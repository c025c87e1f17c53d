import Electrokinetics.Scalar.Double
import Electrokinetics.Catalog.Emit
import Electrokinetics.Catalog.Generate
import Electrokinetics.Sweep.Profile
import Electrokinetics.Sweep.Run
import Electrokinetics.Proofs.Catalog.GhostLayers
import Electrokinetics.Proofs.Expr.Transform
import Electrokinetics.Proofs.Scalar.DoubleInteger
import Electrokinetics.Proofs.Scalar.Real
import Electrokinetics.Proofs.Expr.NormalForm
import Electrokinetics.Proofs.Expr.Value
import Electrokinetics.Proofs.Grid.Translation
import Electrokinetics.Proofs.Grid.Folding
import Electrokinetics.Proofs.Grid.Words
import Electrokinetics.Proofs.Sweep.Writes
import Electrokinetics.Proofs.Sweep.Changes
import Electrokinetics.Proofs.Sweep.Conservation
import Electrokinetics.Proofs.Sweep.Independence
import Electrokinetics.Proofs.Sweep.Translation
import Electrokinetics.Proofs.Expr.Sources
import Electrokinetics.Proofs.Sweep.GhostLayers
import Electrokinetics.Proofs.Transport.Faces
import Electrokinetics.Proofs.Collection
import Electrokinetics.Proofs.Catalog.Kernels
import Electrokinetics.Proofs.Catalog.Generation
import Electrokinetics.Proofs.Expr.Nodes
import Electrokinetics.Proofs.Expr.Reading
import Electrokinetics.Proofs.Catalog.Evaluation
import Electrokinetics.Proofs.Catalog.Fluctuation
import Electrokinetics.Proofs.Catalog.Reach
import Electrokinetics.Proofs.Parameters
import Electrokinetics.Proofs.Transport.Boxes
import Electrokinetics.Proofs.Noise.Balance
import Electrokinetics.Proofs.Catalog.SharedNoise
import Electrokinetics.Proofs.Transport.Sum
import Electrokinetics.Proofs.Expr.Substitution
import Electrokinetics.Proofs.Scalar.Neutral
import Electrokinetics.Proofs.Expr.Canonical
import Electrokinetics.Proofs.Noise.FoldedKeys
import Electrokinetics.Proofs.Transport.Symmetry
import Electrokinetics.Proofs.Transport.Discretisation
import Electrokinetics.Proofs.Transport.Derivatives
import Electrokinetics.Proofs.Transport.Cubics
import Electrokinetics.Proofs.Noise.Isotropy
import Electrokinetics.Proofs.Transport.Overlap
import Electrokinetics.Proofs.Transport.Positivity
import Electrokinetics.Proofs.Transport.Checks
import Electrokinetics.Proofs.Noise.Scale
import Electrokinetics.Proofs.Noise.Keys
import Electrokinetics.Proofs.Transport.Reactions
import Electrokinetics.Proofs.Expr.Shift
import Electrokinetics.Proofs.Expr.Grouping
import Electrokinetics.Proofs.Expr.Unambiguous
import Electrokinetics.Proofs.Transport.SwitchedOff
import Electrokinetics.Proofs.Constructions

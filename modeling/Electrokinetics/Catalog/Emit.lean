/-
Handing kernels to an emitter.

Turning a kernel into a compiled sweep is the work of others.  Here kernels are only handed over, in
order, until the first one that the emitter refuses.

Main definitions:

* `KernelSet.emit` — hands over all kernels, in any monad, with a record before each;
* `Kernel.emissionRecord` — the record.
-/

import Electrokinetics.Catalog.Config
import Electrokinetics.Catalog.Kernel

set_option relaxedAutoImplicit false
set_option autoImplicit false

namespace Electrokinetics

/-- The record that is left before a kernel is handed over. -/
def Kernel.emissionRecord {K : Type} (k : Kernel K) : Log.Record :=
  ⟨.debug, "emitting '" ++ k.name ++ "'"⟩

/-- Hands every kernel and the hints to `emit`, in order.  A monad with failure ends it at the first
refusal. -/
def KernelSet.emit {K : Type} {m : Type → Type} [Monad m] (s : KernelSet K)
    (hints : VectorHints) (log : Log.Record → m Unit) (emit : Kernel K → VectorHints → m Unit) :
    m Unit :=
  s.kernels.forM fun k => do
    log k.emissionRecord
    emit k hints

end Electrokinetics

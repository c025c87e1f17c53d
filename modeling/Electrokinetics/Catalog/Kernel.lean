/-
Named kernels and sets of them.

Main definitions:

* `Kernel` — a collection of assignments with a name, metadata and the fields it touches;
* `KernelSet` — kernels in order, with distinct names;
* `KernelSet.insert`, `KernelSet.get?` — by name.
-/

import Electrokinetics.Assignment
import Electrokinetics.Field
import Electrokinetics.Log

set_option relaxedAutoImplicit false
set_option autoImplicit false

namespace Electrokinetics

/-- What an emitter has to know about the sweep of a kernel. -/
structure KernelMeta where
  /-- The ghost layers that the sweep visits besides the interior. -/
  ghostLayersToInclude : Nat := 0
  /-- Whether the sweep writes a staggered flux. -/
  staggered : Bool := false
  /-- Whether random keys are folded onto the periodic domain. -/
  folded : Bool := false
  deriving DecidableEq, Repr, Inhabited

/-- A named kernel. -/
structure Kernel (K : Type) where
  /-- The name. -/
  name : String
  /-- The assignments. -/
  collection : Collection K
  /-- What an emitter has to know. -/
  info : KernelMeta
  /-- The fields that are read or written. -/
  fields : List Field

instance {K : Type} : Inhabited (Kernel K) := ⟨⟨"", default, {}, []⟩⟩

/-- The parameters that a kernel is called with. -/
def Kernel.parameters {K : Type} (k : Kernel K) : List Symbol := k.collection.parameters

/-- The record that is left when a kernel has been generated. -/
def Kernel.record {K : Type} (k : Kernel K) : Log.Record :=
  ⟨.debug, "generated kernel '" ++ k.name ++ "': " ++ toString k.collection.main.length ++
    " assignments, " ++ toString k.collection.subexpressions.length ++
    " subexpressions, parameters [" ++ ", ".intercalate (k.parameters.map Symbol.name) ++ "]"⟩

/-- Kernels in the order in which their names were first used. -/
structure KernelSet (K : Type) where
  /-- The kernels. -/
  kernels : List (Kernel K)
  /-- No name is used twice. -/
  nodup_names : (kernels.map Kernel.name).Nodup

namespace KernelSet

variable {K : Type}

/-- The set without kernels. -/
def empty : KernelSet K := ⟨[], List.nodup_nil⟩

instance : Inhabited (KernelSet K) := ⟨empty⟩

/-- The names of the kernels, in order. -/
def names (s : KernelSet K) : List String := s.kernels.map Kernel.name

/-- The kernel with a name. -/
def get? (s : KernelSet K) (name : String) : Option (Kernel K) :=
  s.kernels.find? fun k => k.name = name

/-- Replaces the kernel of the same name at its place, or adds one at the end. -/
def insertKernel (kernel : Kernel K) : List (Kernel K) → List (Kernel K)
  | [] => [kernel]
  | k :: rest => if k.name = kernel.name then kernel :: rest else k :: insertKernel kernel rest

theorem mem_names_insertKernel {kernel : Kernel K} {kernels : List (Kernel K)} {name : String} :
    name ∈ (insertKernel kernel kernels).map Kernel.name ↔
      name = kernel.name ∨ name ∈ kernels.map Kernel.name := by
  induction kernels with
  | nil => simp [insertKernel]
  | cons k rest ih =>
      by_cases h : k.name = kernel.name
      · simp [insertKernel, h]
      · simp only [insertKernel, h, if_false, List.map_cons, List.mem_cons, ih]
        exact or_left_comm

theorem nodup_insertKernel {kernel : Kernel K} {kernels : List (Kernel K)}
    (hd : (kernels.map Kernel.name).Nodup) :
    ((insertKernel kernel kernels).map Kernel.name).Nodup := by
  induction kernels with
  | nil => simp [insertKernel]
  | cons k rest ih =>
      obtain ⟨hk, hrest⟩ := List.nodup_cons.1 hd
      by_cases h : k.name = kernel.name
      · rw [insertKernel, if_pos h, List.map_cons, ← h]
        exact hd
      · rw [insertKernel, if_neg h, List.map_cons]
        refine List.nodup_cons.2 ⟨fun hmem => ?_, ih hrest⟩
        rcases mem_names_insertKernel.1 hmem with heq | hmem
        · exact h heq
        · exact hk hmem

/-- The set with a kernel; one of the same name is replaced at its place. -/
def insert (s : KernelSet K) (kernel : Kernel K) : KernelSet K :=
  ⟨insertKernel kernel s.kernels, nodup_insertKernel s.nodup_names⟩

/-- The set of some kernels, inserted in order. -/
def ofList (kernels : List (Kernel K)) : KernelSet K := kernels.foldl insert empty

end KernelSet

end Electrokinetics

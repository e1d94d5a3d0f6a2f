import Veritas.Facts.Witness

/-! Dense id maps and the engine-neutral input of one component execution. -/
namespace Veritas

inductive WpaComponentKind
  | reachability | memoryEffects | flow | effects
  deriving DecidableEq

/-- Stable ids of one kind in ascending order; the dense id of each is its position. -/
structure DenseIdMap (tag : ColumnDomain) (kind : IdKind) where
  denseToStable : List StableId
  sorted : denseToStable.SortedLT
  ofKind : ∀ id ∈ denseToStable, id.kind = kind
  small : denseToStable.length < 2 ^ 32

namespace DenseIdMap

variable {tag : ColumnDomain} {kind : IdKind}

/-- The 32-bit index loop of the source does not end on `2 ^ 32` ids; that is the last error. -/
def build (stableIds : List StableId) : StatusOr (DenseIdMap tag kind) :=
  if hkind : ∀ id ∈ stableIds, id.kind = kind then
    if hsmall : stableIds.toFinset.card < 2 ^ 32 then
      .ok ⟨Ordered.sortUnique stableIds, Ordered.sortedLT_ascending _, by simpa using hkind,
        by simpa [Ordered.sortUnique] using hsmall⟩
    else .error (.internal "dense id space exhausted")
  else .error (.invalidArgument "stable id kind mismatch")

def toDense (map : DenseIdMap tag kind) (stable : StableId) : StatusOr (DenseId tag) :=
  if stable ∈ map.denseToStable then .ok ⟨UInt32.ofNat (map.denseToStable.idxOf stable)⟩
  else .error (.notFound "stable id is not in the dense map")

def toStable (map : DenseIdMap tag kind) (dense : DenseId tag) : StatusOr StableId :=
  match map.denseToStable[dense.value.toNat]? with
  | none => .error (.notFound "dense id is out of range")
  | some stable => .ok stable

def stableIds (map : DenseIdMap tag kind) : List StableId := map.denseToStable

def empty : DenseIdMap tag kind := ⟨[], List.Pairwise.nil.sortedLT, List.forall_mem_nil _, Nat.two_pow_pos 32⟩

open Ordered

variable {dense : DenseId tag} {map : DenseIdMap tag kind} {stable : StableId}

theorem toStable_eq_ok :
    map.toStable dense = .ok stable ↔ map.denseToStable[dense.value.toNat]? = some stable := by
  unfold toStable
  cases map.denseToStable[dense.value.toNat]? <;> simp

theorem mem_of_toStable (h : map.toStable dense = .ok stable) : stable ∈ map.denseToStable :=
  List.mem_of_getElem? (toStable_eq_ok.mp h)

theorem kind_of_toStable (h : map.toStable dense = .ok stable) : stable.kind = kind :=
  map.ofKind _ (mem_of_toStable h)

/-- Dense ids are as good as stable ones: none resolves like another. -/
theorem toStable_injective {d d' : DenseId tag} (h : map.toStable d = .ok stable)
    (h' : map.toStable d' = .ok stable) : d = d' := by
  rw [toStable_eq_ok] at h h'
  have hnodup := map.sorted.nodup
  obtain ⟨hlt, hget⟩ := List.getElem?_eq_some_iff.mp h
  obtain ⟨hlt', hget'⟩ := List.getElem?_eq_some_iff.mp h'
  have hidx := (List.Nodup.getElem_inj_iff hnodup).mp (hget.trans hget'.symm)
  cases d
  cases d'
  exact congrArg _ (UInt32.toNat_inj.mp hidx)

end DenseIdMap

abbrev FunctionDenseMap := DenseIdMap .functionId .functionVariant
abbrev ValueDenseMap := DenseIdMap .valueId .valueRef
abbrev MemoryDenseMap := DenseIdMap .memoryId .memoryRef
abbrev CallSiteDenseMap := DenseIdMap .callSiteId .callSite
abbrev FactDenseMap := DenseIdMap .factId .fact

structure StableIdMappings where
  functions : FunctionDenseMap
  values : ValueDenseMap
  memories : MemoryDenseMap
  callSites : CallSiteDenseMap
  facts : FactDenseMap

/-- The immutable description of one component execution. -/
structure WpaLogicalComponentInput where
  sccId : StableId
  component : WpaComponentKind
  mappings : StableIdMappings
  edb : List ExecutionRow
  localRoots : List RootedInputFact
  successorRoots : List RootedInputFact
  logicalInputHash : String

end Veritas

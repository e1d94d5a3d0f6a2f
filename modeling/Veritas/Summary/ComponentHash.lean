import Veritas.Library.FieldCode
import Veritas.Library.Matching
import Veritas.Summary.FunctionSummary

/-! The bytes a component is hashed by: each semantic field closed by a NUL, then the provenance
references of the entries, one right after the other. -/
namespace Veritas.Summary

open List hiding concat

open Function FieldCode Matching

def nul : Char := '\x00'

@[simp] theorem intRepr_inj {a b : ℤ} : a.repr = b.repr ↔ a = b := intRepr_injective.eq_iff

/-! The semantic fields of an entry, in the order the code appends them. -/

def DominatorSummaryFact.fields (fact : DominatorSummaryFact) : List String :=
  [fact.dominator, fact.dominated, fact.epistemic.repr]

/-- The lists of a block follow each other without a count. -/
def ControlFlowSummary.fields (flow : ControlFlowSummary) : List String :=
  [flow.block.basicBlockSummaryId, flow.block.functionVariantId] ++
    flow.block.semanticSourceAnchorIds ++ flow.block.predecessorAnchorIds ++
    flow.block.successorAnchorIds ++ flow.dominators.flatMap DominatorSummaryFact.fields

def RangeFact.fields (fact : RangeFact) : List String :=
  [fact.variableName, fact.minValue.repr, fact.maxValue.repr, fact.epistemic.repr]

def TaintTransfer.fields (taint : TaintTransfer) : List String :=
  [taint.source, taint.sink, taint.taintKind, taint.epistemic.repr]

def OwnershipEffect.fields (ownership : OwnershipEffect) : List String :=
  [ownership.kind.repr, ownership.object, ownership.epistemic.repr]

def LockEffect.fields (lock : LockEffect) : List String :=
  [lock.kind.repr, lock.lockObject, lock.epistemic.repr]

def StateTransition.fields (state : StateTransition) : List String :=
  [state.fromState, state.toState, state.event, state.epistemic.repr]

def Unknown.fields (unknown : Unknown) : List String :=
  [unknown.kind, unknown.reason, unknown.scope]

def Assumption.fields (assumption : Assumption) : List String :=
  [assumption.description, assumption.condition]

def Dependency.fields (dependency : Dependency) : List String :=
  [dependency.symbol, dependency.kind]

/-- A provenance record is evidence only, and nothing closes its parts. -/
def ProvenanceRef.parts (record : ProvenanceRef) : List String :=
  [record.id, record.filePath, record.line.repr, record.column.repr, record.analysisStep,
    record.displayText]

theorem ProvenanceRef.parts_injective : Injective ProvenanceRef.parts := by
  intro a b h
  cases a
  cases b
  simp_all [parts]

def V1.Call.fields (call : V1.Call) : List String :=
  [call.calleeSymbol, call.resolvedCalleeFunctionVariantId, call.callSiteAnchorId,
    call.epistemic.repr]

def V1.MemoryEffect.fields (effect : V1.MemoryEffect) : List String :=
  [effect.kind.repr, effect.location, effect.offset.repr, effect.size.repr, effect.epistemic.repr]

def V1.ValueFlow.fields (flow : V1.ValueFlow) : List String :=
  [flow.source, flow.sink, flow.epistemic.repr]

def V1.AliasFact.fields (fact : V1.AliasFact) : List String :=
  [fact.locationA, fact.locationB, fact.epistemic.repr]

def V2.AccessPathSegment.fields (segment : V2.AccessPathSegment) : List String :=
  [segment.kind.repr, segment.first.repr, segment.last.repr]

def knownField (known : Bool) : String := if known then "1" else "0"

def V2.MemoryLocation.fields (loc : V2.MemoryLocation) : List String :=
  [loc.memoryLocationId, loc.object.abstractObjectId, loc.object.kind.repr,
    loc.object.ownerFunctionVariantId, loc.object.semanticAnchorId, loc.object.diagnosticName] ++
    loc.accessPath.flatMap V2.AccessPathSegment.fields ++
    [knownField loc.byteRange.offsetKnown, loc.byteRange.offset.repr,
      knownField loc.byteRange.sizeKnown, loc.byteRange.size.repr]

def V2.Call.fields (call : V2.Call) : List String :=
  [call.callSiteId, call.calleeSymbol, call.resolvedCalleeFunctionVariantId, call.dispatch.repr,
    call.epistemic.repr]

def V2.MemoryEffect.fields (effect : V2.MemoryEffect) : List String :=
  effect.kind.repr :: effect.location.fields ++ [effect.epistemic.repr]

def V2.AliasFact.fields (fact : V2.AliasFact) : List String :=
  fact.left.fields ++ fact.right.fields ++ [fact.kind.repr, fact.epistemic.repr]

def V2.ValueFlow.fields (flow : V2.ValueFlow) : List String :=
  [flow.sourceValueId, flow.destinationValueId, flow.epistemic.repr]

def V2.ParameterFlow.fields (flow : V2.ParameterFlow) : List String :=
  [flow.callSiteId, flow.actualId, flow.formalId, flow.epistemic.repr]

def V2.ReturnFlow.fields (flow : V2.ReturnFlow) : List String :=
  [flow.callSiteId, flow.returnId, flow.resultId, flow.epistemic.repr]

/-- What is written of one kind of entry. The shape holds the lengths of the lists inside an entry,
and the erased entry is the fact without its provenance and its display names. -/
structure Layout (Entry : Type) where
  fields : Entry → List String
  refs : Entry → List String
  shape : Entry → List ℕ
  erased : Entry → Entry
  length_fields (a b : Entry) : shape a = shape b → (fields a).length = (fields b).length
  length_refs (a b : Entry) : shape a = shape b → (refs a).length = (refs b).length
  shape_of_erased {a b : Entry} : erased a = erased b → shape a = shape b
  erased_of_fields {a b : Entry} : shape a = shape b → fields a = fields b → erased a = erased b
  eq_of_fields {a b : Entry} : shape a = shape b → fields a = fields b → refs a = refs b → a = b

/-- An entry whose fields are always of the same number, with one provenance reference. -/
def Layout.flat {Entry : Type} (fields : Entry → List String) (ref : Entry → String)
    (erased : Entry → Entry) (heq : ∀ {a b}, fields a = fields b → ref a = ref b → a = b)
    (hlength : ∀ a b, (fields a).length = (fields b).length := by intros; rfl)
    (hfields : ∀ a, fields (erased a) = fields a := by intros; rfl)
    (href : ∀ a b, ref (erased a) = ref (erased b) := by intros; rfl) : Layout Entry where
  fields := fields
  refs entry := [ref entry]
  shape _ := []
  erased := erased
  length_fields _ _ _ := hlength _ _
  length_refs _ _ _ := rfl
  shape_of_erased _ := rfl
  erased_of_fields _ h := heq (by rw [hfields, hfields, h]) (href _ _)
  eq_of_fields _ hfields hrefs := heq hfields (List.cons.inj hrefs).1

/-- A component of a summary: the fields and references its bytes are made of, how the fields fall
into lists, and when two summaries hold the same facts, or the same facts and provenance. -/
structure Component (S : Type) where
  fields : S → List String
  refs : S → List String
  shape : S → List (List ℕ)
  itemCount : S → ℕ
  SameFacts : S → S → Prop
  SameEvidence : S → S → Prop
  sameFacts_of {s t : S} : fields s = fields t → shape s = shape t → SameFacts s t
  shape_of {s t : S} : SameFacts s t → shape s = shape t
  sameEvidence_of {s t : S} :
    fields s = fields t → shape s = shape t → refs s = refs t → SameEvidence s t
  refs_of {s t : S} : SameEvidence s t → refs s = refs t

namespace Component

variable {S T : Type} {Entry : Type}

/-- The component that one list of the summary makes up. -/
def ofEntries (entries : S → List Entry) (layout : Layout Entry) : Component S where
  fields s := (entries s).flatMap layout.fields
  refs s := (entries s).flatMap layout.refs
  shape s := (entries s).map layout.shape
  itemCount s := (entries s).length
  SameFacts s t := (entries s).map layout.erased = (entries t).map layout.erased
  SameEvidence s t := entries s = entries t
  sameFacts_of hfields hshape := by
    have hcut := forall₂_of_flatMap_eq layout.length_fields (map_eq_map_iff.mp hshape) hfields
    exact map_eq_map_iff.mpr (hcut.imp fun _ _ h => layout.erased_of_fields h.1 h.2)
  shape_of h :=
    map_eq_map_iff.mpr ((map_eq_map_iff.mp h).imp fun _ _ h => layout.shape_of_erased h)
  sameEvidence_of hfields hshape hrefs := by
    have hcut := forall₂_of_flatMap_eq layout.length_fields (map_eq_map_iff.mp hshape) hfields
    have hcut := forall₂_of_flatMap_eq (fun a b h => layout.length_refs a b h.1) hcut hrefs
    exact forall₂_eq_eq_eq ▸ hcut.imp fun _ _ h => layout.eq_of_fields h.1.1 h.1.2 h.2
  refs_of h := congrArg (List.flatMap layout.refs) h

/-- The provenance records are no semantic facts: all their parts are evidence. -/
def ofRecords (records : S → List ProvenanceRef) : Component S where
  fields _ := []
  refs s := (records s).flatMap ProvenanceRef.parts
  shape _ := []
  itemCount s := (records s).length
  SameFacts _ _ := True
  SameEvidence s t := records s = records t
  sameFacts_of _ _ := trivial
  shape_of _ := rfl
  sameEvidence_of _ _ hrefs := by
    have hcut := forall₂_of_flatMap_eq_of_length (n := 6) (by decide) (fun _ => rfl) hrefs
    exact forall₂_eq_eq_eq ▸ hcut.imp fun _ _ h => ProvenanceRef.parts_injective h
  refs_of h := congrArg (List.flatMap ProvenanceRef.parts) h

/-- A kind that names no component. -/
def unspecified : Component S where
  fields _ := []
  refs _ := []
  shape _ := []
  itemCount _ := 0
  SameFacts _ _ := True
  SameEvidence _ _ := True
  sameFacts_of _ _ := trivial
  shape_of _ := rfl
  sameEvidence_of _ _ _ := trivial
  refs_of _ := rfl

/-- A component of a part of the summary. -/
def comap (part : T → S) (component : Component S) : Component T where
  fields t := component.fields (part t)
  refs t := component.refs (part t)
  shape t := component.shape (part t)
  itemCount t := component.itemCount (part t)
  SameFacts t t' := component.SameFacts (part t) (part t')
  SameEvidence t t' := component.SameEvidence (part t) (part t')
  sameFacts_of := component.sameFacts_of
  shape_of := component.shape_of
  sameEvidence_of := component.sameEvidence_of
  refs_of := component.refs_of

end Component

def RangeFact.layout : Layout RangeFact :=
  .flat fields provenanceRef (fun fact => { fact with provenanceRef := "" })
    (by rintro ⟨⟩ ⟨⟩; simp +contextual [fields])

def TaintTransfer.layout : Layout TaintTransfer :=
  .flat fields provenanceRef (fun taint => { taint with provenanceRef := "" })
    (by rintro ⟨⟩ ⟨⟩; simp +contextual [fields])

def OwnershipEffect.layout : Layout OwnershipEffect :=
  .flat fields provenanceRef (fun ownership => { ownership with provenanceRef := "" })
    (by rintro ⟨⟩ ⟨⟩; simp +contextual [fields])

def LockEffect.layout : Layout LockEffect :=
  .flat fields provenanceRef (fun lock => { lock with provenanceRef := "" })
    (by rintro ⟨⟩ ⟨⟩; simp +contextual [fields])

def StateTransition.layout : Layout StateTransition :=
  .flat fields provenanceRef (fun state => { state with provenanceRef := "" })
    (by rintro ⟨⟩ ⟨⟩; simp +contextual [fields])

def Unknown.layout : Layout Unknown :=
  .flat fields provenanceRef (fun unknown => { unknown with provenanceRef := "" })
    (by rintro ⟨⟩ ⟨⟩; simp +contextual [fields])

def Assumption.layout : Layout Assumption :=
  .flat fields provenanceRef (fun assumption => { assumption with provenanceRef := "" })
    (by rintro ⟨⟩ ⟨⟩; simp +contextual [fields])

def Dependency.layout : Layout Dependency :=
  .flat fields provenanceRef (fun dependency => { dependency with provenanceRef := "" })
    (by rintro ⟨⟩ ⟨⟩; simp +contextual [fields])

def V1.Call.layout : Layout V1.Call :=
  .flat fields provenanceRef (fun call => { call with provenanceRef := "" })
    (by rintro ⟨⟩ ⟨⟩; simp +contextual [fields])

def V1.MemoryEffect.layout : Layout V1.MemoryEffect :=
  .flat fields provenanceRef (fun effect => { effect with provenanceRef := "" })
    (by rintro ⟨⟩ ⟨⟩; simp +contextual [fields])

def V1.ValueFlow.layout : Layout V1.ValueFlow :=
  .flat fields provenanceRef (fun flow => { flow with provenanceRef := "" })
    (by rintro ⟨⟩ ⟨⟩; simp +contextual [fields])

def V1.AliasFact.layout : Layout V1.AliasFact :=
  .flat fields provenanceRef (fun fact => { fact with provenanceRef := "" })
    (by rintro ⟨⟩ ⟨⟩; simp +contextual [fields])

def V2.Call.layout : Layout V2.Call :=
  .flat fields provenanceRef (fun call => { call with provenanceRef := "" })
    (by rintro ⟨⟩ ⟨⟩; simp +contextual [fields])

namespace DominatorSummaryFact

def erased (fact : DominatorSummaryFact) : DominatorSummaryFact := { fact with provenanceRef := "" }

theorem erased_of_fields {a b : DominatorSummaryFact} (h : a.fields = b.fields) :
    a.erased = b.erased := by
  simp_all [fields, erased]

theorem eq_of_fields {a b : DominatorSummaryFact} (h : a.fields = b.fields)
    (href : a.provenanceRef = b.provenanceRef) : a = b := by
  cases a
  cases b
  simp_all [fields]

end DominatorSummaryFact

namespace ControlFlowSummary

def shape (flow : ControlFlowSummary) : List ℕ :=
  [flow.block.semanticSourceAnchorIds.length, flow.block.predecessorAnchorIds.length,
    flow.block.successorAnchorIds.length, flow.dominators.length]

def refs (flow : ControlFlowSummary) : List String :=
  flow.dominators.map DominatorSummaryFact.provenanceRef

def erased (flow : ControlFlowSummary) : ControlFlowSummary :=
  { flow with dominators := flow.dominators.map DominatorSummaryFact.erased }

/-- With the lengths of its lists, the fields of an entry fall into its parts. -/
theorem cut_fields {a b : ControlFlowSummary} (hshape : a.shape = b.shape)
    (h : a.fields = b.fields) : a.block = b.block ∧
      List.Forall₂ (fun x y => x.fields = y.fields) a.dominators b.dominators := by
  obtain ⟨⟨id, fn, anchors, preds, succs⟩, doms⟩ := a
  obtain ⟨⟨id', fn', anchors', preds', succs'⟩, doms'⟩ := b
  simp only [shape, cons.injEq, and_true] at hshape
  obtain ⟨hanchors, hpreds, hsuccs, -⟩ := hshape
  simp only [fields, append_assoc, cons_append, nil_append, cons.injEq] at h
  obtain ⟨rfl, rfl, hlists⟩ := h
  obtain ⟨rfl, hafterAnchors⟩ := append_inj hlists hanchors
  obtain ⟨rfl, hafterPreds⟩ := append_inj hafterAnchors hpreds
  obtain ⟨rfl, hdoms⟩ := append_inj hafterPreds hsuccs
  exact ⟨rfl, forall₂_of_flatMap_eq_of_length (n := 3) (by decide) (fun _ => rfl) hdoms⟩

def layout : Layout ControlFlowSummary where
  fields := fields
  refs := refs
  shape := shape
  erased := erased
  length_fields a b h := by
    simp only [shape, cons.injEq, and_true] at h
    simp [fields, DominatorSummaryFact.fields, h]
  length_refs a b h := by
    simp only [shape, cons.injEq, and_true] at h
    simp [refs, h]
  shape_of_erased {a b} h := by
    have hshape : ∀ flow, (erased flow).shape = flow.shape := by
      intro flow
      simp [shape, erased]
    rw [← hshape a, ← hshape b, h]
  erased_of_fields {a b} hshape h := by
    obtain ⟨hblock, hdoms⟩ := cut_fields hshape h
    have hmap : a.dominators.map DominatorSummaryFact.erased =
        b.dominators.map DominatorSummaryFact.erased :=
      map_eq_map_iff.mpr (hdoms.imp fun _ _ h => DominatorSummaryFact.erased_of_fields h)
    simp only [erased, hblock, hmap]
  eq_of_fields {a b} hshape h hrefs := by
    obtain ⟨hblock, hdoms⟩ := cut_fields hshape h
    rw [refs, refs, map_eq_flatMap, map_eq_flatMap] at hrefs
    have hcut := forall₂_of_flatMap_eq (fun _ _ _ => rfl) hdoms hrefs
    have heq : a.dominators = b.dominators := forall₂_eq_eq_eq ▸ hcut.imp fun _ _ h =>
      DominatorSummaryFact.eq_of_fields h.1 (cons.inj h.2).1
    cases a
    cases b
    simp_all

end ControlFlowSummary

namespace V2

theorem AccessPathSegment.fields_injective : Injective AccessPathSegment.fields := by
  intro a b h
  cases a
  cases b
  simp_all [fields]

theorem knownField_injective : Injective knownField := by
  intro a b h
  cases a <;> cases b <;> simp_all [knownField]

namespace MemoryLocation

/-- A location without the name it is shown by. -/
def erased (loc : MemoryLocation) : MemoryLocation :=
  { loc with object := { loc.object with diagnosticName := "" } }

theorem length_fields {a b : MemoryLocation} (h : a.accessPath.length = b.accessPath.length) :
    a.fields.length = b.fields.length := by
  simp [fields, AccessPathSegment.fields, h]

theorem eq_of_fields {a b : MemoryLocation} (hlength : a.accessPath.length = b.accessPath.length)
    (h : a.fields = b.fields) : a = b := by
  obtain ⟨id, ⟨obj, kind, owner, anchor, name⟩, path, ⟨offsetKnown, offset, sizeKnown, size⟩⟩ := a
  obtain ⟨id', ⟨obj', kind', owner', anchor', name'⟩, path',
    ⟨offsetKnown', offset', sizeKnown', size'⟩⟩ := b
  simp only [fields, cons_append, nil_append, cons.injEq, intRepr_inj] at h
  obtain ⟨rfl, rfl, rfl, rfl, rfl, rfl, h⟩ := h
  have hpath : ∀ segments : List AccessPathSegment,
      (segments.flatMap AccessPathSegment.fields).length = 3 * segments.length := by
    intro segments
    simp [AccessPathSegment.fields, Nat.mul_comm]
  obtain ⟨hsegments, hrange⟩ := append_inj h (by rw [hpath, hpath]; exact congrArg _ hlength)
  have hcut := forall₂_of_flatMap_eq_of_length (n := 3) (by decide) (fun _ => rfl) hsegments
  have hsame : path = path' := forall₂_eq_eq_eq ▸ hcut.imp fun _ _ h =>
    AccessPathSegment.fields_injective h
  simp only [cons.injEq, knownField_injective.eq_iff, intRepr_inj, and_true] at hrange
  obtain ⟨rfl, rfl, rfl, rfl⟩ := hrange
  rw [hsame]

end MemoryLocation

namespace MemoryEffect

theorem cut_fields {a b : MemoryEffect}
    (hlength : a.location.accessPath.length = b.location.accessPath.length)
    (h : a.fields = b.fields) :
    a.kind = b.kind ∧ a.location = b.location ∧ a.epistemic = b.epistemic := by
  simp only [fields, cons_append, cons.injEq, intRepr_inj] at h
  obtain ⟨hkind, h⟩ := h
  obtain ⟨hlocation, hlast⟩ := append_inj h (MemoryLocation.length_fields hlength)
  exact ⟨hkind, MemoryLocation.eq_of_fields hlength hlocation, by simpa using hlast⟩

def layout : Layout MemoryEffect where
  fields := fields
  refs effect := [effect.provenanceRef]
  shape effect := [effect.location.accessPath.length]
  erased effect := { effect with location := effect.location.erased, provenanceRef := "" }
  length_fields a b h := by simp [fields, MemoryLocation.length_fields (cons.inj h).1]
  length_refs _ _ _ := rfl
  shape_of_erased h := by
    have hpath := congrArg (fun effect : MemoryEffect => effect.location.accessPath) h
    exact congrArg (fun path => [path.length]) hpath
  erased_of_fields hshape h := by
    obtain ⟨hkind, hlocation, hepistemic⟩ := cut_fields (cons.inj hshape).1 h
    simp only [hkind, hlocation, hepistemic]
  eq_of_fields {a b} hshape h hrefs := by
    obtain ⟨hkind, hlocation, hepistemic⟩ := cut_fields (cons.inj hshape).1 h
    have href := (cons.inj hrefs).1
    cases a
    cases b
    simp_all

end MemoryEffect

namespace AliasFact

def shape (fact : AliasFact) : List ℕ :=
  [fact.left.accessPath.length, fact.right.accessPath.length]

theorem cut_fields {a b : AliasFact} (hshape : a.shape = b.shape) (h : a.fields = b.fields) :
    a.left = b.left ∧ a.right = b.right ∧ a.kind = b.kind ∧ a.epistemic = b.epistemic := by
  simp only [shape, cons.injEq, and_true] at hshape
  simp only [fields, append_assoc] at h
  obtain ⟨hleft, h⟩ := append_inj h (MemoryLocation.length_fields hshape.1)
  obtain ⟨hright, hlast⟩ := append_inj h (MemoryLocation.length_fields hshape.2)
  exact ⟨MemoryLocation.eq_of_fields hshape.1 hleft, MemoryLocation.eq_of_fields hshape.2 hright,
    by simpa using hlast⟩

def layout : Layout AliasFact where
  fields := fields
  refs fact := [fact.provenanceRef]
  shape := shape
  erased fact :=
    { fact with left := fact.left.erased, right := fact.right.erased, provenanceRef := "" }
  length_fields a b h := by
    simp only [shape, cons.injEq, and_true] at h
    simp [fields, MemoryLocation.length_fields h.1, MemoryLocation.length_fields h.2]
  length_refs _ _ _ := rfl
  shape_of_erased h := by
    have hpaths := congrArg (fun fact : AliasFact => (fact.left.accessPath, fact.right.accessPath)) h
    exact congrArg (fun paths => [paths.1.length, paths.2.length]) hpaths
  erased_of_fields hshape h := by
    obtain ⟨hleft, hright, hkind, hepistemic⟩ := cut_fields hshape h
    simp only [hleft, hright, hkind, hepistemic]
  eq_of_fields {a b} hshape h hrefs := by
    obtain ⟨hleft, hright, hkind, hepistemic⟩ := cut_fields hshape h
    have href := (cons.inj hrefs).1
    cases a
    cases b
    simp_all

end AliasFact

/-- An entry of one of the three lists that the value-flow component writes back to back. -/
inductive Flow
  | value (flow : ValueFlow)
  | parameter (flow : ParameterFlow)
  | result (flow : ReturnFlow)
  deriving DecidableEq

namespace Flow

def fields : Flow → List String
  | value flow => flow.fields
  | parameter flow => flow.fields
  | result flow => flow.fields

def provenanceRef : Flow → String
  | value flow => flow.provenanceRef
  | parameter flow => flow.provenanceRef
  | result flow => flow.provenanceRef

def erased : Flow → Flow
  | value flow => value { flow with provenanceRef := "" }
  | parameter flow => parameter { flow with provenanceRef := "" }
  | result flow => result { flow with provenanceRef := "" }

/-- Which of the lists the entry is in. -/
def shape : Flow → List ℕ
  | value _ => [0]
  | parameter _ => [1]
  | result _ => [2]

def layout : Layout Flow where
  fields := fields
  refs flow := [flow.provenanceRef]
  shape := shape
  erased := erased
  length_fields a b h := by
    cases a <;> cases b <;> first | rfl | simp [shape] at h
  length_refs _ _ _ := rfl
  shape_of_erased {a b} h := by
    cases a <;> cases b <;> first | rfl | simp [erased] at h
  erased_of_fields {a b} hshape h := by
    cases a <;> cases b <;> simp_all [shape, fields, erased, ValueFlow.fields,
      ParameterFlow.fields, ReturnFlow.fields]
  eq_of_fields {a b} hshape h hrefs := by
    obtain ⟨⟨⟩⟩ | ⟨⟨⟩⟩ | ⟨⟨⟩⟩ := a <;> obtain ⟨⟨⟩⟩ | ⟨⟨⟩⟩ | ⟨⟨⟩⟩ := b <;>
      simp_all [shape, fields, provenanceRef, ValueFlow.fields, ParameterFlow.fields,
        ReturnFlow.fields]

end Flow

def FunctionSummary.flows (summary : FunctionSummary) : List Flow :=
  summary.valueFlows.map .value ++ summary.parameterFlows.map .parameter ++
    summary.returnFlows.map .result

end V2

/-- The kinds from calls to provenance. -/
def componentKinds : List ℤ := [1, 2, 3, 4, 5, 6, 7, 8, 9, 10, 11, 12, 13, 14]

/-- The components that both schemas hold in one layout. -/
def CommonComponents.component (kind : ℤ) : Component CommonComponents :=
  match kind with
  | 4 => .ofEntries controlFlow ControlFlowSummary.layout
  | 5 => .ofEntries rangeFacts RangeFact.layout
  | 7 => .ofEntries taintTransfers TaintTransfer.layout
  | 8 => .ofEntries ownershipEffects OwnershipEffect.layout
  | 9 => .ofEntries lockEffects LockEffect.layout
  | 10 => .ofEntries stateTransitions StateTransition.layout
  | 11 => .ofEntries unknowns Unknown.layout
  | 12 => .ofEntries assumptions Assumption.layout
  | 13 => .ofEntries dependencies Dependency.layout
  | 14 => .ofRecords provenanceRefs
  | _ => .unspecified

def V1.component (kind : ℤ) : Component V1.FunctionSummary :=
  match kind with
  | 1 => .ofEntries FunctionSummary.calls Call.layout
  | 2 => .ofEntries FunctionSummary.memoryEffects MemoryEffect.layout
  | 3 => .ofEntries FunctionSummary.valueFlows ValueFlow.layout
  | 6 => .ofEntries FunctionSummary.aliasFacts AliasFact.layout
  | kind => .comap FunctionSummary.toCommonComponents (CommonComponents.component kind)

def V2.component (kind : ℤ) : Component V2.FunctionSummary :=
  match kind with
  | 1 => .ofEntries FunctionSummary.calls Call.layout
  | 2 => .ofEntries FunctionSummary.memoryEffects MemoryEffect.layout
  | 3 => .ofEntries FunctionSummary.flows Flow.layout
  | 6 => .ofEntries FunctionSummary.aliasFacts AliasFact.layout
  | kind => .comap FunctionSummary.toCommonComponents (CommonComponents.component kind)

namespace Component

variable {S : Type} (component : Component S) {s t : S}

def serializeSemantic (s : S) : String := concat (terminated nul) (component.fields s)

def serializeEvidence (s : S) : String :=
  component.serializeSemantic s ++ concat id (component.refs s)

structure DigestInfo where
  kind : ℤ
  semanticHash : String
  evidenceHash : String
  itemCount : ℕ
  payloadOffset : ℕ
  payloadLength : ℕ

/-- The payload offset is left to the serialization layer. -/
def computeDigest (sha256 : String → String) (kind : ℤ) (s : S) : DigestInfo where
  kind := kind
  semanticHash := sha256 (component.serializeSemantic s)
  evidenceHash := sha256 (component.serializeEvidence s)
  itemCount := component.itemCount s
  payloadOffset := 0
  payloadLength := (component.serializeSemantic s).length

/-- Equal bytes are of equal facts, with and without the provenance. -/
def NeverMisses (s t : S) : Prop :=
  (component.serializeSemantic s = component.serializeSemantic t → component.SameFacts s t) ∧
    (component.serializeEvidence s = component.serializeEvidence t → component.SameEvidence s t)

/-- Equal fields fall into lists alike, and equal texts of all references into references. -/
def Framed (s t : S) : Prop :=
  component.fields s = component.fields t →
    component.shape s = component.shape t ∧
      (concat id (component.refs s) = concat id (component.refs t) →
        (component.refs s).map String.length = (component.refs t).map String.length)

/-- No text of the component holds the character that closes the fields. -/
def NulFree (s : S) : Prop :=
  (∀ text ∈ component.fields s, nul ∉ text.toList) ∧ ∀ text ∈ component.refs s, nul ∉ text.toList

variable {component}

theorem NulFree.concat_refs (h : component.NulFree s) :
    nul ∉ (concat id (component.refs s)).toList := by
  have hrefs := h.2
  generalize component.refs s = refs at hrefs
  induction refs with
  | nil => simp [concat]
  | cons ref refs ih =>
    simp only [concat, id_eq, String.toList_append, mem_append, not_or]
    exact ⟨hrefs ref mem_cons_self, ih fun text htext =>
      hrefs text (mem_cons_of_mem _ htext)⟩

theorem fields_of_serializeSemantic (hs : component.NulFree s) (ht : component.NulFree t)
    (h : component.serializeSemantic s = component.serializeSemantic t) :
    component.fields s = component.fields t := by
  have hempty : nul ∉ ("" : String).toList := by simp
  exact (concat_terminated_append_inj hs.1 ht.1 hempty hempty (congrArg (· ++ "") h)).1

theorem neverMisses_iff_framed (hs : component.NulFree s) (ht : component.NulFree t) :
    component.NeverMisses s t ↔ component.Framed s t := by
  constructor
  · rintro ⟨hsemantic, hevidence⟩ hfields
    have hbytes : component.serializeSemantic s = component.serializeSemantic t :=
      congrArg (concat (terminated nul)) hfields
    refine ⟨component.shape_of (hsemantic hbytes), fun hrefs => ?_⟩
    have hsame := hevidence (congrArg₂ (· ++ ·) hbytes hrefs)
    rw [component.refs_of hsame]
  · intro hframed
    refine ⟨fun h => ?_, fun h => ?_⟩
    · have hfields := fields_of_serializeSemantic hs ht h
      exact component.sameFacts_of hfields (hframed hfields).1
    · obtain ⟨hfields, hrefs⟩ := concat_terminated_append_inj hs.1 ht.1 hs.concat_refs
        ht.concat_refs h
      obtain ⟨hshape, hlengths⟩ := hframed hfields
      exact component.sameEvidence_of hfields hshape (concat_id_inj (hlengths hrefs) hrefs)

end Component

def V1.computeComponentDigest (sha256 : String → String) (kind : ℤ) (summary : V1.FunctionSummary) :
    Component.DigestInfo :=
  (V1.component kind).computeDigest sha256 kind summary

def V2.computeComponentDigest (sha256 : String → String) (kind : ℤ) (summary : V2.FunctionSummary) :
    Component.DigestInfo :=
  (V2.component kind).computeDigest sha256 kind summary

def V1.computeComponentDigests (sha256 : String → String) (summary : V1.FunctionSummary) :
    List Component.DigestInfo :=
  componentKinds.map fun kind => V1.computeComponentDigest sha256 kind summary

def V2.computeComponentDigests (sha256 : String → String) (summary : V2.FunctionSummary) :
    List Component.DigestInfo :=
  componentKinds.map fun kind => V2.computeComponentDigest sha256 kind summary

end Veritas.Summary

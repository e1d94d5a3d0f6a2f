import Mathlib.Data.Finset.Prod
import Veritas.Library.Saturation
import Veritas.Wpa.Component

/-! The C++ rule evaluator: row resolution, then four snapshot-driven closures. -/
namespace Veritas

open Saturation Ordered

/-- How weak a warrant is; a negative statement has no rank. -/
def weaknessRank : EpistemicState → Option ℕ
  | .must => some 0
  | .may => some 1
  | .inferred => some 2
  | .assumed => some 3
  | .unknown => some 4
  | .mustNot => none

/-- A conclusion is never better warranted than the weakest step used to reach it. -/
def weaken (left right : EpistemicState) : Option EpistemicState :=
  match weaknessRank left, weaknessRank right with
  | some l, some r => some (if l ≥ r then left else right)
  | _, _ => none

structure DerivedTuple where
  subject : StableId
  object : StableId
  epistemic : EpistemicState

def DerivedTuple.sortKey (t : DerivedTuple) : StableId ×ₗ StableId ×ₗ ℕ :=
  toLex (t.subject, toLex (t.object, t.epistemic.ordinal))

theorem DerivedTuple.sortKey_injective : Function.Injective DerivedTuple.sortKey := by
  rintro ⟨s, o, e⟩ ⟨s', o', e'⟩ h
  simp only [sortKey, EmbeddingLike.apply_eq_iff_eq, Prod.mk.injEq] at h
  obtain ⟨rfl, rfl, he⟩ := h
  rw [EpistemicState.ordinal_injective he]

instance : LinearOrder DerivedTuple :=
  LinearOrder.lift' DerivedTuple.sortKey DerivedTuple.sortKey_injective

/-- A call edge and the row a witness cites for it. -/
structure CallEdgeTuple where
  caller : StableId
  callee : StableId
  epistemic : EpistemicState
  row : SemanticRow

/-- One call-mediated closure: its relations and the rule ids it writes into witnesses. -/
structure Domain where
  baseRelation : RelationId
  supportRelation : RelationId
  derivedRelation : RelationId
  rulePrefix : String

def domainsFor (component : WpaComponentKind) : List Domain :=
  if component = .reachability then
    [⟨.directCall, .supportReachableCall, .reachableCall, "wpa.reachability."⟩]
  else
    [⟨.directWrite, .supportMayWrite, .mayWrite, "wpa.memory.may_write."⟩,
      ⟨.directRead, .supportMayRead, .mayRead, "wpa.memory.may_read."⟩]

/-- A row in semantic form, with its endpoint, value and epistemic cells in column order. -/
structure ResolvedRow where
  semantic : SemanticRow
  endpointIds : List StableId
  valueIds : List StableId
  epistemics : List EpistemicState

/-- One cell mapped back; a `FactId` cell is dropped, as the source's visitor drops it. -/
def resolveCell (mappings : StableIdMappings) (resolved : ResolvedRow) (cell : ExecutionCellValue) :
    StatusOr ResolvedRow :=
  let push (value : SemanticCellValue) : SemanticRow :=
    { resolved.semantic with cells := resolved.semantic.cells ++ [value] }
  match cell with
  | .functionId f => do
    let stable ← mappings.functions.toStable f
    return { resolved with
      endpointIds := resolved.endpointIds ++ [stable], semantic := push (.stableId stable) }
  | .memoryId m => do
    let stable ← mappings.memories.toStable m
    return { resolved with
      endpointIds := resolved.endpointIds ++ [stable], semantic := push (.stableId stable) }
  | .callSiteId c => do
    let stable ← mappings.callSites.toStable c
    return { resolved with semantic := push (.stableId stable) }
  | .valueId v => do
    let stable ← mappings.values.toStable v
    return { resolved with
      valueIds := resolved.valueIds ++ [stable], semantic := push (.stableId stable) }
  | .epistemic e => return { resolved with
      epistemics := resolved.epistemics ++ [e], semantic := push (.epistemic e) }
  | .int64 v => return { resolved with semantic := push (.int64 v) }
  | .uint64 v => return { resolved with semantic := push (.uint64 v) }
  | .string v => return { resolved with semantic := push (.string v) }
  | .dispatchKind v => return { resolved with semantic := push (.dispatchKind v) }
  | .aliasKind v => return { resolved with semantic := push (.aliasKind v) }
  | .byteRangeKind v => return { resolved with semantic := push (.byteRangeKind v) }
  | .factId _ => return resolved

def resolveRow (mappings : StableIdMappings) (row : ExecutionRow) : StatusOr ResolvedRow :=
  if row.cells.length ≠ (relationsV2 row.relation).columns.length then
    .error (.invalidArgument "execution row does not match its schema")
  else do
    let resolved ← row.cells.foldlM (resolveCell mappings) ⟨⟨row.relation, []⟩, [], [], []⟩
    if resolved.epistemics = [] then
      .error (.invalidArgument "row carries no epistemic state")
    else return resolved

/-- A resolved row read as a tuple: two endpoints and the first epistemic cell. -/
def ResolvedRow.tuple (resolved : ResolvedRow) (ids : List StableId) : Option DerivedTuple :=
  match ids, resolved.epistemics with
  | subject :: object :: _, epistemic :: _ => some ⟨subject, object, epistemic⟩
  | _, _ => none

/-- A row read through the endpoints that `ids` selects. -/
def readTuple (ids : ResolvedRow → List StableId) (mappings : StableIdMappings)
    (missing : String) (row : ExecutionRow) : StatusOr (DerivedTuple × SemanticRow) := do
  let resolved ← resolveRow mappings row
  match resolved.tuple (ids resolved) with
  | some t => return (t, resolved.semantic)
  | none => .error (.invalidArgument missing)

def callEdge (mappings : StableIdMappings) (row : ExecutionRow) : StatusOr CallEdgeTuple := do
  let read ← readTuple (·.endpointIds) mappings "DirectCall row is missing endpoints" row
  return ⟨read.1.subject, read.1.object, read.1.epistemic, read.2⟩

def resultRow (relation : RelationId) (t : DerivedTuple) : SemanticRow :=
  ⟨relation, [.stableId t.subject, .stableId t.object, .epistemic t.epistemic]⟩

/-- The single edge of a rule that copies one input. -/
def directEdges (result : SemanticRow) (ruleId : String) (input : SemanticRow) : List WitnessEdge :=
  [⟨result, ruleId, encodeSemanticKey input, input, 0⟩]

/-- The two edges of a rule that joins two inputs; they share the firing's key. -/
def joinEdges (result : SemanticRow) (ruleId : String) (left right : SemanticRow) :
    List WitnessEdge :=
  let key := encodeSemanticKey left ++ encodeSemanticKey right
  [⟨result, ruleId, key, left, 0⟩, ⟨result, ruleId, key, right, 1⟩]

abbrev TupleFiring := Firing DerivedTuple (List WitnessEdge)

/-- Every tuple over the given endpoints; no closure leaves it. -/
def tupleCarrier (subjects objects : Finset StableId) : Finset DerivedTuple :=
  (subjects ×ˢ objects ×ˢ Finset.univ).map ⟨fun p => ⟨p.1, p.2.1, p.2.2⟩, fun p q h => by
      simp only [DerivedTuple.mk.injEq] at h
      exact Prod.ext h.1 (Prod.ext h.2.1 h.2.2)⟩

variable {t : DerivedTuple}

theorem mem_tupleCarrier {subjects objects : Finset StableId} :
    t ∈ tupleCarrier subjects objects ↔ t.subject ∈ subjects ∧ t.object ∈ objects := by
  obtain ⟨s, o, e⟩ := t
  simp only [tupleCarrier, Finset.mem_map, Finset.mem_product, Finset.mem_univ, and_true]
  constructor
  · rintro ⟨p, hp, heq⟩
    obtain ⟨rfl, rfl, -⟩ := DerivedTuple.mk.inj heq
    exact hp
  · intro h
    exact ⟨(s, o, e), h, rfl⟩

/-! The call-mediated closures: a call edge composed with what its callee has. -/

def baseFiring (domain : Domain) (base : DerivedTuple × SemanticRow) : Option TupleFiring :=
  if (weaknessRank base.1.epistemic).isSome then
    some ⟨base.1, [], directEdges (resultRow domain.derivedRelation base.1)
      (domain.rulePrefix ++ "direct.v2") base.2⟩
  else none

def callTransitive (domain : Domain) (call : CallEdgeTuple) (t : DerivedTuple) :
    Option TupleFiring :=
  if t.subject ≠ call.callee then none
  else (weaken call.epistemic t.epistemic).map fun combined =>
    let next : DerivedTuple := ⟨call.caller, t.object, combined⟩
    ⟨next, [t], joinEdges (resultRow domain.derivedRelation next)
      (domain.rulePrefix ++ "transitive.v2") call.row (resultRow domain.derivedRelation t)⟩

def callSupport (domain : Domain) (call : CallEdgeTuple) (support : DerivedTuple × SemanticRow) :
    Option TupleFiring :=
  if support.1.subject ≠ call.callee then none
  else (weaken call.epistemic support.1.epistemic).map fun combined =>
    let next : DerivedTuple := ⟨call.caller, support.1.object, combined⟩
    ⟨next, [], joinEdges (resultRow domain.derivedRelation next)
      (domain.rulePrefix ++ "support.v2") call.row support.2⟩

/-- What one domain of a component reads. -/
structure DomainInput where
  domain : Domain
  calls : List CallEdgeTuple
  base : List (DerivedTuple × SemanticRow)
  support : List (DerivedTuple × SemanticRow)

def DomainInput.fire (d : DomainInput) (snapshot : Finset DerivedTuple) : List TupleFiring :=
  (d.calls.flatMap fun call => (ascending snapshot).filterMap (callTransitive d.domain call)) ++
    d.calls.flatMap fun call => d.support.filterMap (callSupport d.domain call)

def DomainInput.seeds (d : DomainInput) : List TupleFiring := d.base.filterMap (baseFiring d.domain)

def DomainInput.carrier (d : DomainInput) : Finset DerivedTuple :=
  tupleCarrier (d.base.map (·.1.subject) ++ d.calls.map (·.caller)).toFinset
    (d.base.map (·.1.object) ++ d.support.map (·.1.object)).toFinset

variable {d : DomainInput} {call : CallEdgeTuple} {domain : Domain} {f : TupleFiring}

theorem DomainInput.mem_carrier :
    t ∈ d.carrier ↔
      ((∃ p ∈ d.base, p.1.subject = t.subject) ∨ ∃ call ∈ d.calls, call.caller = t.subject) ∧
        ((∃ p ∈ d.base, p.1.object = t.object) ∨ ∃ p ∈ d.support, p.1.object = t.object) := by
  simp only [DomainInput.carrier, mem_tupleCarrier, List.mem_toFinset, List.mem_append,
    List.mem_map]

/-- A rule that joins two tuples fires where they meet and their states compose. -/
theorem joined_eq_some {α ε β : Type} {a b : α} [Decidable (a ≠ b)] {state : Option ε}
    {firing : ε → β} {f : β} : (if a ≠ b then none else state.map firing) = some f ↔
      a = b ∧ ∃ e, state = some e ∧ f = firing e := by
  split_ifs with h
  · simp [h]
  · simp only [not_not.mp h, true_and, Option.map_eq_some_iff]
    exact exists_congr fun e => and_congr_right fun _ => eq_comm

theorem callTransitive_eq_some :
    callTransitive domain call t = some f ↔
      t.subject = call.callee ∧ ∃ e, weaken call.epistemic t.epistemic = some e ∧
        f = ⟨⟨call.caller, t.object, e⟩, [t],
          joinEdges (resultRow domain.derivedRelation ⟨call.caller, t.object, e⟩)
            (domain.rulePrefix ++ "transitive.v2") call.row
            (resultRow domain.derivedRelation t)⟩ := by
  exact joined_eq_some

theorem callSupport_eq_some {support : DerivedTuple × SemanticRow} :
    callSupport domain call support = some f ↔
      support.1.subject = call.callee ∧
        ∃ e, weaken call.epistemic support.1.epistemic = some e ∧
          f = ⟨⟨call.caller, support.1.object, e⟩, [],
            joinEdges (resultRow domain.derivedRelation ⟨call.caller, support.1.object, e⟩)
              (domain.rulePrefix ++ "support.v2") call.row support.2⟩ := by
  exact joined_eq_some

theorem baseFiring_eq_some {base : DerivedTuple × SemanticRow} :
    baseFiring domain base = some f ↔
      (weaknessRank base.1.epistemic).isSome ∧
        f = ⟨base.1, [], directEdges (resultRow domain.derivedRelation base.1)
          (domain.rulePrefix ++ "direct.v2") base.2⟩ := by
  unfold baseFiring
  split_ifs with h
  · simp only [h, true_and, Option.some.injEq, eq_comm]
  · simp [h]

theorem DomainInput.mem_fire {s : Finset DerivedTuple} :
    f ∈ d.fire s ↔
      (∃ call ∈ d.calls, ∃ t ∈ s, callTransitive d.domain call t = some f) ∨
        ∃ call ∈ d.calls, ∃ p ∈ d.support, callSupport d.domain call p = some f := by
  simp [DomainInput.fire]

def DomainInput.system (d : DomainInput) : System DerivedTuple (List WitnessEdge) where
  carrier := d.carrier
  fire := d.fire
  fire_mem := by
    intro s hs f hf
    rcases DomainInput.mem_fire.mp hf with ⟨call, hcall, t, ht, hf⟩ | ⟨call, hcall, p, hp, hf⟩
    · obtain ⟨-, e, -, rfl⟩ := callTransitive_eq_some.mp hf
      exact DomainInput.mem_carrier.mpr
        ⟨.inr ⟨call, hcall, rfl⟩, (DomainInput.mem_carrier.mp (hs ht)).2⟩
    · obtain ⟨-, e, -, rfl⟩ := callSupport_eq_some.mp hf
      exact DomainInput.mem_carrier.mpr ⟨.inr ⟨call, hcall, rfl⟩, .inr ⟨p, hp, rfl⟩⟩

theorem DomainInput.mem_seeds : f ∈ d.seeds ↔ ∃ p ∈ d.base, baseFiring d.domain p = some f := by
  simp [DomainInput.seeds]

theorem DomainInput.seeds_carrier (d : DomainInput) :
    ∀ f ∈ d.seeds, f.conclusion ∈ d.system.carrier := by
  intro f hf
  obtain ⟨p, hp, hf⟩ := DomainInput.mem_seeds.mp hf
  obtain ⟨-, rfl⟩ := baseFiring_eq_some.mp hf
  exact DomainInput.mem_carrier.mpr ⟨.inl ⟨p, hp, rfl⟩, .inl ⟨p, hp, rfl⟩⟩

/-- The fixpoint loop of one domain; only the first derivation of a tuple is witnessed. -/
def DomainInput.close (d : DomainInput) : Progress DerivedTuple (List WitnessEdge) :=
  d.system.saturate .first d.seeds d.seeds_carrier

/-- The base and support rows of a domain, read in one pass over the input. -/
def domainInput (input : WpaLogicalComponentInput) (calls : List CallEdgeTuple) (domain : Domain) :
    StatusOr DomainInput := do
  let rows ← (input.edb.filter fun row =>
      row.relation = domain.baseRelation ∨ row.relation = domain.supportRelation).mapM
    fun row => do
      let tuple ← readTuple (·.endpointIds) input.mappings "base row is missing subjects" row
      return (row.relation, tuple)
  return ⟨domain, calls, (rows.filter (·.1 = domain.baseRelation)).map (·.2),
    (rows.filter (·.1 ≠ domain.baseRelation)).map (·.2)⟩

/-- Results and witnesses of several closed domains; witnesses are sorted without repetition. -/
def collect (closed : List DomainInput) : RawWpaEvaluation where
  results := closed.flatMap fun d =>
    (ascending d.close.derived).map (resultRow d.domain.derivedRelation)
  witnesses := sortUnique (closed.flatMap fun d => d.close.log.flatMap (·.evidence))
  diagnostics := []

def callInputs (input : WpaLogicalComponentInput) : StatusOr (List DomainInput) := do
  let calls ← (input.edb.filter (·.relation = .directCall)).mapM (callEdge input.mappings)
  (domainsFor input.component).mapM (domainInput input calls)

/-- The reachability and memory-effects components. -/
def evaluateCalls (input : WpaLogicalComponentInput) : StatusOr RawWpaEvaluation := do
  return collect (← callInputs input)

end Veritas

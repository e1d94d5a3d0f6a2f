import Veritas.Wpa.Evaluator

/-! The GlobalFlow closure: derived flows joined with each other and with support rows. -/
namespace Veritas

open Saturation Ordered

def isBaseFlow (relation : RelationId) : Bool :=
  relation = .localFlow ∨ relation = .parameterFlow ∨ relation = .returnFlow

def flowRule (relation : RelationId) : String :=
  if relation = .localFlow then "wpa.flow.global.local.v2"
  else if relation = .parameterFlow then "wpa.flow.global.parameter.v2"
  else "wpa.flow.global.return.v2"

/-- The flow rows of an input; a base row keeps the relation that names its rule. -/
structure FlowInput where
  base : List (RelationId × DerivedTuple × SemanticRow)
  support : List (DerivedTuple × SemanticRow)

/-- The first row that states a tuple decides which rule its witness names. -/
def FlowInput.baseRule (d : FlowInput) (t : DerivedTuple) : String :=
  (d.base.find? fun b => b.2.1 = t).elim "" fun b => flowRule b.1

def FlowInput.baseFiring (d : FlowInput) (base : RelationId × DerivedTuple × SemanticRow) :
    Option TupleFiring :=
  if (weaknessRank base.2.1.epistemic).isSome then
    some ⟨base.2.1, [], directEdges (resultRow .globalFlow base.2.1) (d.baseRule base.2.1) base.2.2⟩
  else none

def flowTransitive (a b : DerivedTuple) : Option TupleFiring :=
  if a.object ≠ b.subject then none
  else (weaken a.epistemic b.epistemic).map fun combined =>
    let next : DerivedTuple := ⟨a.subject, b.object, combined⟩
    ⟨next, [a, b], joinEdges (resultRow .globalFlow next) "wpa.flow.global.transitive.v2"
      (resultRow .globalFlow a) (resultRow .globalFlow b)⟩

def flowSupport (a : DerivedTuple) (support : DerivedTuple × SemanticRow) : Option TupleFiring :=
  if a.object ≠ support.1.subject then none
  else (weaken a.epistemic support.1.epistemic).map fun combined =>
    let next : DerivedTuple := ⟨a.subject, support.1.object, combined⟩
    ⟨next, [a], joinEdges (resultRow .globalFlow next) "wpa.flow.global.support.v2"
      (resultRow .globalFlow a) support.2⟩

def FlowInput.seeds (d : FlowInput) : List TupleFiring := d.base.filterMap d.baseFiring

def FlowInput.fire (d : FlowInput) (snapshot : Finset DerivedTuple) : List TupleFiring :=
  ((ascending snapshot).flatMap fun a => (ascending snapshot).filterMap (flowTransitive a)) ++
    (ascending snapshot).flatMap fun a => d.support.filterMap (flowSupport a)

def FlowInput.carrier (d : FlowInput) : Finset DerivedTuple :=
  tupleCarrier (d.base.map (·.2.1.subject)).toFinset
    (d.base.map (·.2.1.object) ++ d.support.map (·.1.object)).toFinset

variable {d : FlowInput} {f : TupleFiring}

theorem FlowInput.mem_carrier {t : DerivedTuple} :
    t ∈ d.carrier ↔
      (∃ b ∈ d.base, b.2.1.subject = t.subject) ∧
        ((∃ b ∈ d.base, b.2.1.object = t.object) ∨ ∃ p ∈ d.support, p.1.object = t.object) := by
  simp only [FlowInput.carrier, mem_tupleCarrier, List.mem_toFinset, List.mem_append, List.mem_map]

theorem flowTransitive_eq_some {a b : DerivedTuple} :
    flowTransitive a b = some f ↔
      a.object = b.subject ∧ ∃ e, weaken a.epistemic b.epistemic = some e ∧
        f = ⟨⟨a.subject, b.object, e⟩, [a, b],
          joinEdges (resultRow .globalFlow ⟨a.subject, b.object, e⟩)
            "wpa.flow.global.transitive.v2" (resultRow .globalFlow a)
            (resultRow .globalFlow b)⟩ := by
  exact joined_eq_some

theorem flowSupport_eq_some {a : DerivedTuple} {support : DerivedTuple × SemanticRow} :
    flowSupport a support = some f ↔
      a.object = support.1.subject ∧ ∃ e, weaken a.epistemic support.1.epistemic = some e ∧
        f = ⟨⟨a.subject, support.1.object, e⟩, [a],
          joinEdges (resultRow .globalFlow ⟨a.subject, support.1.object, e⟩)
            "wpa.flow.global.support.v2" (resultRow .globalFlow a) support.2⟩ := by
  exact joined_eq_some

theorem FlowInput.baseFiring_eq_some {base : RelationId × DerivedTuple × SemanticRow} :
    d.baseFiring base = some f ↔
      (weaknessRank base.2.1.epistemic).isSome ∧
        f = ⟨base.2.1, [], directEdges (resultRow .globalFlow base.2.1) (d.baseRule base.2.1)
          base.2.2⟩ := by
  unfold FlowInput.baseFiring
  split_ifs with h
  · simp only [h, true_and, Option.some.injEq, eq_comm]
  · simp [h]

theorem FlowInput.mem_fire {s : Finset DerivedTuple} :
    f ∈ d.fire s ↔
      (∃ a ∈ s, ∃ b ∈ s, flowTransitive a b = some f) ∨
        ∃ a ∈ s, ∃ p ∈ d.support, flowSupport a p = some f := by
  simp [FlowInput.fire]

def FlowInput.system (d : FlowInput) : System DerivedTuple (List WitnessEdge) where
  carrier := d.carrier
  fire := d.fire
  fire_mem := by
    intro s hs f hf
    rcases FlowInput.mem_fire.mp hf with ⟨a, ha, b, hb, hf⟩ | ⟨a, ha, p, hp, hf⟩
    · obtain ⟨-, e, -, rfl⟩ := flowTransitive_eq_some.mp hf
      exact FlowInput.mem_carrier.mpr
        ⟨(FlowInput.mem_carrier.mp (hs ha)).1, (FlowInput.mem_carrier.mp (hs hb)).2⟩
    · obtain ⟨-, e, -, rfl⟩ := flowSupport_eq_some.mp hf
      exact FlowInput.mem_carrier.mpr ⟨(FlowInput.mem_carrier.mp (hs ha)).1, .inr ⟨p, hp, rfl⟩⟩

theorem FlowInput.mem_seeds : f ∈ d.seeds ↔ ∃ b ∈ d.base, d.baseFiring b = some f := by
  simp [FlowInput.seeds]

theorem FlowInput.seeds_carrier (d : FlowInput) :
    ∀ f ∈ d.seeds, f.conclusion ∈ d.system.carrier := by
  intro f hf
  obtain ⟨b, hb, hf⟩ := FlowInput.mem_seeds.mp hf
  obtain ⟨-, rfl⟩ := FlowInput.baseFiring_eq_some.mp hf
  exact FlowInput.mem_carrier.mpr ⟨⟨b, hb, rfl⟩, .inl ⟨b, hb, rfl⟩⟩

/-- The fixpoint loop; every join is witnessed, also of a tuple already derived. -/
def FlowInput.close (d : FlowInput) : Progress DerivedTuple (List WitnessEdge) :=
  d.system.saturate .every d.seeds d.seeds_carrier

def flowInput (input : WpaLogicalComponentInput) : StatusOr FlowInput := do
  let rows ← (input.edb.filter fun row =>
      isBaseFlow row.relation ∨ row.relation = .supportGlobalFlow).mapM fun row => do
    let tuple ← readTuple (·.valueIds) input.mappings "flow row is missing value endpoints" row
    return (row.relation, tuple)
  return ⟨rows.filter (·.1 ≠ .supportGlobalFlow),
    (rows.filter (·.1 = .supportGlobalFlow)).map (·.2)⟩

def FlowInput.collect (d : FlowInput) : RawWpaEvaluation where
  results := (ascending d.close.derived).map (resultRow .globalFlow)
  witnesses := sortUnique (d.close.log.flatMap (·.evidence))
  diagnostics := []

def evaluateFlow (input : WpaLogicalComponentInput) : StatusOr RawWpaEvaluation := do
  return (← flowInput input).collect

end Veritas

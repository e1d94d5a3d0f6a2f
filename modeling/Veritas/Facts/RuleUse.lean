import Veritas.Facts.CanonicalResult

/-! Witness edges that come from whole uses of rules, as an engine writes them. -/
namespace Veritas

open Hypergraph Relaxation Ordered List

/-- A rule applied to rows, in the order of its premises. -/
structure RuleUse where
  result : SemanticRow
  ruleId : String
  derivationKey : String
  inputs : List SemanticRow

variable {e : WitnessEdge} {u : RuleUse}

namespace RuleUse

def edges (u : RuleUse) : List WitnessEdge :=
  u.inputs.mapIdx fun i input => ⟨u.result, u.ruleId, u.derivationKey, input, i⟩

def firing (u : RuleUse) : String ×ₗ String ×ₗ String :=
  toLex (encodeSemanticKey u.result, toLex (u.ruleId, u.derivationKey))

def step (u : RuleUse) : ProofStep where
  result := encodeSemanticKey u.result
  rule := u.ruleId
  derivation := u.derivationKey
  spec := ruleSpecOf u.ruleId
  inputs := u.inputs.mapIdx fun i input => (i, encodeSemanticKey input)

theorem mem_edges : e ∈ u.edges ↔
    ∃ i input, u.inputs[i]? = some input ∧
      e = ⟨u.result, u.ruleId, u.derivationKey, input, i⟩ := by
  rw [edges, mem_mapIdx]
  constructor
  · rintro ⟨i, hi, rfl⟩
    exact ⟨i, _, getElem?_eq_getElem hi, rfl⟩
  · rintro ⟨i, input, hi, rfl⟩
    obtain ⟨hlt, rfl⟩ := List.getElem?_eq_some_iff.mp hi
    exact ⟨i, hlt, rfl⟩

theorem mem_step_inputs {i : ℕ} {k : String} : (i, k) ∈ u.step.inputs ↔
    ∃ input, u.inputs[i]? = some input ∧ encodeSemanticKey input = k := by
  rw [step, mem_mapIdx]
  constructor
  · rintro ⟨j, hj, heq⟩
    obtain ⟨rfl, rfl⟩ := Prod.mk.inj heq
    exact ⟨_, getElem?_eq_getElem hj, rfl⟩
  · rintro ⟨input, hi, rfl⟩
    obtain ⟨hlt, rfl⟩ := List.getElem?_eq_some_iff.mp hi
    exact ⟨i, hlt, rfl⟩

theorem step_ascending (u : RuleUse) : Ascending u.step.inputs := by
  have hords : u.step.inputs.map (·.1) = List.range u.inputs.length :=
    ext_getElem (by simp [step]) fun i h h' => by simp [step]
  rw [Ascending, hords]
  exact sortedLT_range _

theorem step_edge (u : RuleUse) : u.step.edge =
    ⟨encodeSemanticKey u.result, u.inputs.map encodeSemanticKey⟩ := by
  rw [Derivation.edge, Edge.mk.injEq]
  exact ⟨rfl, ext_getElem (by simp [step]) fun i h h' => by simp [step]⟩

end RuleUse

/-- Uses of registered rules on declared rows, no two of which share a firing unless they are
one and the same. -/
structure RuleUses (roots results : List SemanticRow) (uses : List RuleUse) : Prop where
  roots_valid : ∀ row ∈ roots, validateSemanticRow row = .ok ()
  results_valid : ∀ row ∈ results, validateSemanticRow row = .ok ()
  result : ∀ u ∈ uses, u.result ∈ results
  inputs : ∀ u ∈ uses, ∀ row ∈ u.inputs, row ∈ roots ++ results
  rule : ∀ u ∈ uses, ∃ rule, findRule u.ruleId = some rule ∧ rule.result = u.result.relation ∧
    rule.arity = u.inputs.length
  functional : ∀ u ∈ uses, ∀ u' ∈ uses, u.firing = u'.firing → u.inputs = u'.inputs

section Uses

variable {roots results : List SemanticRow} {uses : List RuleUse} {edges : List WitnessEdge}
  (huses : RuleUses roots results uses) (hedges : ∀ e, e ∈ edges ↔ ∃ u ∈ uses, e ∈ u.edges)

include huses

theorem RuleUses.valid {row : SemanticRow} (h : row ∈ roots ++ results) :
    validateSemanticRow row = .ok () := by
  rcases mem_append.mp h with h | h
  · exact huses.roots_valid row h
  · exact huses.results_valid row h

include hedges

/-- An edge of a use's firing stands where the use has its row. -/
theorem RuleUses.input_of_firing (hu : u ∈ uses) (he : e ∈ edges) (hfire : e.firing = u.firing) :
    u.inputs[e.inputOrdinal]? = some e.input := by
  obtain ⟨u', hu', he'⟩ := (hedges e).mp he
  obtain ⟨i, input, hi, rfl⟩ := RuleUse.mem_edges.mp he'
  rw [huses.functional u' hu' u hu hfire] at hi
  exact hi

theorem RuleUses.admissible : Admissible roots results edges := by
  refine ⟨huses.roots_valid, huses.results_valid, ?_, ?_, ?_, ?_, ?_, ?_⟩
  · intro e he
    obtain ⟨u, hu, he⟩ := (hedges e).mp he
    obtain ⟨i, input, -, rfl⟩ := RuleUse.mem_edges.mp he
    exact mem_map_of_mem (huses.result u hu)
  · intro e he
    obtain ⟨u, hu, he⟩ := (hedges e).mp he
    obtain ⟨i, input, -, rfl⟩ := RuleUse.mem_edges.mp he
    obtain ⟨rule, hfind, hrel, -⟩ := huses.rule u hu
    exact ⟨rule, derivingRule_eq_ok.mpr ⟨hfind, hrel⟩⟩
  · intro e he
    obtain ⟨u, hu, he⟩ := (hedges e).mp he
    obtain ⟨i, input, hi, rfl⟩ := RuleUse.mem_edges.mp he
    exact huses.valid (huses.inputs u hu input (mem_of_getElem? hi))
  · intro e he
    obtain ⟨u, hu, he⟩ := (hedges e).mp he
    obtain ⟨i, input, hi, rfl⟩ := RuleUse.mem_edges.mp he
    exact mem_map_of_mem (huses.inputs u hu input (mem_of_getElem? hi))
  · intro e he e' he' hfire hord
    obtain ⟨u, hu, heu⟩ := (hedges e).mp he
    obtain ⟨i, input, hi, rfl⟩ := RuleUse.mem_edges.mp heu
    have hinput := huses.input_of_firing hedges hu he' hfire.symm
    rw [← hord, hi, Option.some.injEq] at hinput
    rw [hinput]
  · intro e he rule hrule n
    obtain ⟨u, hu, heu⟩ := (hedges e).mp he
    obtain ⟨i, input, hi, rfl⟩ := RuleUse.mem_edges.mp heu
    obtain ⟨rule', hfind, -, harity⟩ := huses.rule u hu
    obtain rfl : rule' = rule := Option.some.inj (hfind.symm.trans hrule)
    rw [harity]
    constructor
    · rintro ⟨e', he', hfire, rfl⟩
      exact (List.getElem?_eq_some_iff.mp (huses.input_of_firing hedges hu he' hfire)).1
    · intro hn
      refine ⟨⟨u.result, u.ruleId, u.derivationKey, u.inputs[n], n⟩, ?_, rfl, rfl⟩
      exact (hedges _).mpr ⟨u, hu, RuleUse.mem_edges.mpr ⟨n, _, getElem?_eq_getElem hn, rfl⟩⟩

theorem RuleUses.proofStep_eq (hu : u ∈ uses) : proofStep edges u.firing = u.step := by
  have hmem : ∀ b : ℕ × String, b ∈ (proofStep edges u.firing).inputs ↔ b ∈ u.step.inputs := by
    rintro ⟨i, k⟩
    rw [mem_proofStep_inputs, RuleUse.mem_step_inputs]
    constructor
    · rintro ⟨e, he, hfire, rfl, rfl⟩
      exact ⟨e.input, huses.input_of_firing hedges hu he hfire, rfl⟩
    · rintro ⟨input, hi, rfl⟩
      refine ⟨⟨u.result, u.ruleId, u.derivationKey, input, i⟩, ?_, rfl, rfl, rfl⟩
      exact (hedges _).mpr ⟨u, hu, RuleUse.mem_edges.mpr ⟨i, input, hi, rfl⟩⟩
  have hinputs : u.step.inputs = (proofStep edges u.firing).inputs :=
    proofStep_inputs_unique u.step_ascending fun i k => (hmem (i, k)).symm
  rw [Derivation.mk.injEq]
  exact ⟨rfl, rfl, rfl, rfl, hinputs.symm⟩

/-- The proof steps are the uses. -/
theorem RuleUses.mem_proofSteps {step : ProofStep} :
    step ∈ proofSteps edges ↔ ∃ u ∈ uses, u.step = step := by
  rw [proofSteps, mem_map]
  constructor
  · rintro ⟨firing, hfiring, rfl⟩
    rw [mem_sortUnique] at hfiring
    obtain ⟨e, he, rfl⟩ := mem_map.mp hfiring
    obtain ⟨u, hu, heu⟩ := (hedges e).mp he
    obtain ⟨i, input, -, rfl⟩ := RuleUse.mem_edges.mp heu
    exact ⟨u, hu, (huses.proofStep_eq hedges hu).symm⟩
  · rintro ⟨u, hu, rfl⟩
    refine ⟨u.firing, ?_, huses.proofStep_eq hedges hu⟩
    obtain ⟨rule, hfind, -, harity⟩ := huses.rule u hu
    have hpos : 0 < u.inputs.length := harity ▸ findRule_arity_pos hfind
    rw [mem_sortUnique]
    refine mem_map.mpr ⟨⟨u.result, u.ruleId, u.derivationKey, u.inputs[0], 0⟩, ?_, rfl⟩
    exact (hedges _).mpr ⟨u, hu, RuleUse.mem_edges.mpr ⟨0, _, getElem?_eq_getElem hpos, rfl⟩⟩

end Uses

end Veritas

import Veritas.Wpa.CallFixpoint

/-! The flow closure computes the least rows closed under the flow rules. -/
namespace Veritas

open Saturation Ordered StatusOr FlowInput

def FlowInput.rules (d : FlowInput) : Set TupleFiring :=
  {f | (∃ a b, flowTransitive a b = some f) ∨ ∃ a, ∃ p ∈ d.support, flowSupport a p = some f}

theorem FlowInput.generates (d : FlowInput) : d.system.Generates d.rules := by
  intro s f
  refine mem_fire.trans ⟨?_, ?_⟩
  · rintro (⟨a, ha, b, hb, hf⟩ | ⟨a, ha, p, hp, hf⟩)
    · refine ⟨.inl ⟨a, b, hf⟩, ?_⟩
      obtain ⟨-, e, -, rfl⟩ := flowTransitive_eq_some.mp hf
      simp [ha, hb]
    · refine ⟨.inr ⟨a, p, hp, hf⟩, ?_⟩
      obtain ⟨-, e, -, rfl⟩ := flowSupport_eq_some.mp hf
      simpa using ha
  · rintro ⟨⟨a, b, hf⟩ | ⟨a, p, hp, hf⟩, hprem⟩
    · obtain ⟨-, e, -, rfl⟩ := flowTransitive_eq_some.mp hf
      exact .inl ⟨a, hprem a (by simp), b, hprem b (by simp), hf⟩
    · obtain ⟨-, e, -, rfl⟩ := flowSupport_eq_some.mp hf
      exact .inr ⟨a, hprem a (by simp), p, hp, hf⟩

theorem FlowInput.seeds_premises (d : FlowInput) : ∀ f ∈ d.seeds, f.premises = [] := by
  intro f hf
  obtain ⟨b, -, hf⟩ := mem_seeds.mp hf
  obtain ⟨-, rfl⟩ := baseFiring_eq_some.mp hf
  rfl

variable {t : DerivedTuple}

theorem FlowInput.mem_close {d : FlowInput} :
    t ∈ d.close.derived ↔ Derivable (allRules d.seeds d.rules) t :=
  mem_saturate_derived d.generates d.seeds_premises d.seeds_carrier

section Flow

variable {input : WpaLogicalComponentInput} {d : FlowInput}

theorem flowInput_isOk
    (h : ∀ row ∈ input.edb, isBaseFlow row.relation ∨ row.relation = .supportGlobalFlow →
      ∃ resolved, resolveRow input.mappings row = .ok resolved ∧ 2 ≤ resolved.valueIds.length) :
    ∃ d, flowInput input = .ok d := by
  obtain ⟨rows, hrows⟩ := mapM_isOk (fun row => do
      let tuple ← readTuple (·.valueIds) input.mappings "flow row is missing value endpoints" row
      return (row.relation, tuple))
    (input.edb.filter fun row => isBaseFlow row.relation ∨ row.relation = .supportGlobalFlow)
    fun row hrow => by
      simp only [List.mem_filter, decide_eq_true_eq] at hrow
      obtain ⟨resolved, hres, hlen⟩ := h row hrow.1 hrow.2
      obtain ⟨read, hread⟩ := readTuple_isOk "flow row is missing value endpoints" hres hlen
      exact ⟨_, bind_eq_ok.mpr ⟨read, hread, rfl⟩⟩
  exact ⟨_, bind_eq_ok.mpr ⟨rows, hrows, rfl⟩⟩

/-- The flow input holds exactly what the input's rows state. -/
structure FlowInput.Reads (d : FlowInput) (input : WpaLogicalComponentInput) : Prop where
  base : ∀ relation t row, (relation, t, row) ∈ d.base ↔
    isBaseFlow relation ∧ Stated input (·.valueIds) relation t row
  support : ∀ t row, (t, row) ∈ d.support ↔ Stated input (·.valueIds) .supportGlobalFlow t row

theorem flowInput_reads (h : flowInput input = .ok d) : d.Reads input := by
  obtain ⟨rows, hrows, hd⟩ := bind_eq_ok.mp h
  obtain rfl := pure_eq_ok.mp hd
  have hmem := mem_statedRows (p := fun relation => isBaseFlow relation ∨
    relation = .supportGlobalFlow) hrows
  refine ⟨?_, ?_⟩
  · intro relation t row
    simp only [List.mem_filter, decide_eq_true_eq, hmem]
    constructor
    · rintro ⟨⟨hrel, hs⟩, hne⟩
      exact ⟨hrel.resolve_right hne, hs⟩
    · rintro ⟨hbase, hs⟩
      refine ⟨⟨.inl hbase, hs⟩, ?_⟩
      rintro rfl
      exact absurd hbase (by decide)
  · intro t row
    simp only [List.mem_map, List.mem_filter, decide_eq_true_eq]
    constructor
    · rintro ⟨⟨relation, t', row'⟩, ⟨hx, hrel⟩, heq⟩
      obtain ⟨rfl, rfl⟩ := Prod.mk.inj heq
      obtain rfl := hrel
      exact ((hmem _ _ _).mp hx).2
    · intro hs
      exact ⟨(.supportGlobalFlow, t, row), ⟨(hmem _ _ _).mpr ⟨.inr rfl, hs⟩, rfl⟩, rfl⟩

theorem FlowInput.mem_results :
    resultRow .globalFlow t ∈ d.collect.results ↔ t ∈ d.close.derived := by
  simp [collect, resultRow_inj]

theorem flow_isLeast (h : flowInput input = .ok d) :
    IsLeast {facts | FlowClosed input facts} {r | r ∈ d.collect.results} := by
  have hreads := flowInput_reads h
  constructor
  · refine ⟨?_, ?_, ?_⟩
    · rintro relation t hbase ⟨row, hrow⟩ hpos
      have hf : d.baseFiring (relation, t, row) = some _ :=
        FlowInput.baseFiring_eq_some.mpr ⟨weaknessRank_isSome.mpr hpos, rfl⟩
      have hseed : _ ∈ d.seeds :=
        FlowInput.mem_seeds.mpr ⟨_, (hreads.base _ _ _).mpr ⟨hbase, hrow⟩, hf⟩
      exact FlowInput.mem_results.mpr (FlowInput.mem_close.mpr (.seed hseed rfl))
    · intro source middle sink e e' c ha hb hc
      have ha := FlowInput.mem_close.mp (FlowInput.mem_results.mp ha)
      have hb := FlowInput.mem_close.mp (FlowInput.mem_results.mp hb)
      have hf : flowTransitive ⟨source, middle, e⟩ ⟨middle, sink, e'⟩ = some _ :=
        flowTransitive_eq_some.mpr ⟨rfl, c, weaken_eq_some.mpr hc, rfl⟩
      have hrule : _ ∈ d.rules := Or.inl ⟨_, _, hf⟩
      refine FlowInput.mem_results.mpr (FlowInput.mem_close.mpr (.rule hrule ?_))
      simp [ha, hb]
    · rintro source middle sink e e' c ha ⟨row, hrow⟩ hc
      have ha := FlowInput.mem_close.mp (FlowInput.mem_results.mp ha)
      have hf : flowSupport ⟨source, middle, e⟩ (⟨middle, sink, e'⟩, row) = some _ :=
        flowSupport_eq_some.mpr ⟨rfl, c, weaken_eq_some.mpr hc, rfl⟩
      have hrule : _ ∈ d.rules := Or.inr ⟨_, _, (hreads.support _ _).mpr hrow, hf⟩
      refine FlowInput.mem_results.mpr (FlowInput.mem_close.mpr (.rule hrule ?_))
      simp [ha]
  · intro facts hfacts r hr
    obtain ⟨t, ht, rfl⟩ := List.mem_map.mp hr
    rw [mem_ascending, FlowInput.mem_close] at ht
    clear hr
    induction ht with
    | @fire f hf _ ih =>
      rcases hf with hf | ⟨a, b, hf⟩ | ⟨a, p, hp, hf⟩
      · obtain ⟨⟨relation, t, row⟩, hb, hf⟩ := FlowInput.mem_seeds.mp hf
        obtain ⟨hpos, rfl⟩ := FlowInput.baseFiring_eq_some.mp hf
        obtain ⟨hbase, hs⟩ := (hreads.base _ _ _).mp hb
        exact hfacts.base relation t hbase ⟨row, hs⟩ (weaknessRank_isSome.mp hpos)
      · obtain ⟨hmid, e, he, rfl⟩ := flowTransitive_eq_some.mp hf
        obtain ⟨s, m, ea⟩ := a
        obtain ⟨m', o, eb⟩ := b
        obtain rfl : m = m' := hmid
        exact hfacts.transitive _ _ _ _ _ _ (ih ⟨s, m, ea⟩ (by simp)) (ih ⟨m, o, eb⟩ (by simp))
          (weaken_eq_some.mp he)
      · obtain ⟨hmid, e, he, rfl⟩ := flowSupport_eq_some.mp hf
        obtain ⟨s, m, ea⟩ := a
        obtain ⟨⟨m', o, eb⟩, row⟩ := p
        obtain rfl : m = m' := hmid
        exact hfacts.support _ _ _ _ _ _ (ih ⟨s, m, ea⟩ (by simp))
          ⟨row, (hreads.support _ _).mp hp⟩ (weaken_eq_some.mp he)

end Flow

end Veritas

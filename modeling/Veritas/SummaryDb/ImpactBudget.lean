import Veritas.SummaryDb.ImpactSet

/-! When a truncated impact set does lack a component, for any edges and any budget. -/
namespace Veritas.SummaryDb

open Relation StatusOr List

variable {calls : List Replacement} {delta : SummaryDelta} {budget : ImpactBudget}
  {graph : ImpactGraph} {ref : ComponentRef}

/-- A set reported as truncated lacks an impacted component. -/
def HonestBudget (calls : List Replacement) (delta : SummaryDelta) (graph : ImpactGraph) : Prop :=
  graph.truncated = true → ∃ ref, Impacted calls delta ref ∧ ref ∉ graph.consumers.map ConsumerRef.ref

theorem Reached.impacted {distance : ℕ} (h : Reached calls delta distance ref) :
    Impacted calls delta ref := by
  obtain ⟨n, -, scope, hwave⟩ := h
  exact hwave.impacted

/-- A walk without room leaves more reached components than the budget allows. -/
theorem exists_of_overflows {walk : Walk} {S : ComponentRef → Prop} (hwalk : walk.Bounded budget S)
    (h : walk.Overflows budget S) :
    ∃ refs : List ComponentRef, refs.Nodup ∧ budget.maxConsumers < refs.length ∧
      ∀ ref ∈ refs, S ref := by
  obtain ⟨-, hfull, ref, href, hnone⟩ := h
  have habsent : ref ∉ (walk.collected.entries.map Prod.snd).map ConsumerRef.ref := by
    rw [mem_consumers_iff hwalk.keyed, hnone]
    exact Bool.false_ne_true
  refine ⟨_, nodup_cons.mpr ⟨habsent, nodup_consumers hwalk.keyed⟩, ?_, ?_⟩
  · simp only [length_cons, length_map]
    omega
  · intro other hother
    rcases mem_cons.mp hother with rfl | hother
    · exact href
    · exact hwalk.reached ((mem_consumers_iff hwalk.keyed).mp hother)

/-- The flag is honest if no wave is left at the depth limit, or one beyond it is impacted, or there
are more components up to it than the budget allows. -/
theorem honestBudget_iff (h : (replay calls).getImpactSet delta budget = .ok graph) :
    HonestBudget calls delta graph ↔
      (¬∃ ref scope, Wave calls delta budget.maxDepth ref scope) ∨
      (∃ ref, Impacted calls delta ref ∧ ¬Reached calls delta budget.maxDepth ref) ∨
      ∃ refs : List ComponentRef, refs.Nodup ∧ budget.maxConsumers < refs.length ∧
        ∀ ref ∈ refs, Reached calls delta budget.maxDepth ref := by
  obtain ⟨walk, rfl, hwalk, hend⟩ := getImpactSet_reached h
  have hmem := fun ref => @mem_consumers_iff ref walk hwalk.keyed
  constructor
  · intro hhonest
    rcases hend with hover | ⟨hall, htruncated⟩
    · exact .inr (.inr (exists_of_overflows hwalk hover))
    by_cases hlast : ∃ ref scope, Wave calls delta budget.maxDepth ref scope
    · obtain ⟨ref, himpacted, habsent⟩ := hhonest (htruncated.mpr hlast)
      exact .inr (.inl ⟨ref, himpacted, fun href => habsent ((hmem ref).mpr (hall ref href))⟩)
    · exact .inl hlast
  · rintro (hlast | ⟨ref, himpacted, hfar⟩ | ⟨refs, hnodup, hmany, hreached⟩) htruncated
    · rcases hend with ⟨-, -, ref, href, hnone⟩ | ⟨-, hiff⟩
      · refine ⟨ref, href.impacted, fun hheld => ?_⟩
        have hsome := (hmem ref).mp hheld
        rw [hnone] at hsome
        cases hsome
      · exact absurd (hiff.mp htruncated) hlast
    · exact ⟨ref, himpacted, fun hheld => hfar (hwalk.reached ((hmem ref).mp hheld))⟩
    · -- The distinct components do not all fit.
      have hmissing : ∃ ref ∈ refs, ref ∉ (walk.collected.entries.map Prod.snd).map ConsumerRef.ref := by
        by_contra hall
        push Not at hall
        have hle := (hnodup.subperm hall).length_le
        have hsize := hwalk.size
        simp only [length_map] at hle
        omega
      obtain ⟨ref, href, habsent⟩ := hmissing
      exact ⟨ref, (hreached ref href).impacted, habsent⟩

/-- With room for one, the second of a chain is missing. -/
theorem honestBudget_chain :
    (replay chainCalls).getImpactSet (sampleDelta [sampleChange 1 true]) ⟨1, 16⟩ =
      .ok ⟨[⟨sampleId '2', 1, .semantic⟩], 2, true⟩ ∧
    ((¬∃ ref scope, Wave chainCalls (sampleDelta [sampleChange 1 true]) 16 ref scope) ∨
      (∃ ref, Impacted chainCalls (sampleDelta [sampleChange 1 true]) ref ∧
        ¬Reached chainCalls (sampleDelta [sampleChange 1 true]) 16 ref) ∨
      ∃ refs : List ComponentRef, refs.Nodup ∧ 1 < refs.length ∧
        ∀ ref ∈ refs, Reached chainCalls (sampleDelta [sampleChange 1 true]) 16 ref) := by
  have hrun : (replay chainCalls).getImpactSet (sampleDelta [sampleChange 1 true]) ⟨1, 16⟩ =
      .ok ⟨[⟨sampleId '2', 1, .semantic⟩], 2, true⟩ := toOption_eq_some.mp (by decide +kernel)
  refine ⟨hrun, (honestBudget_iff hrun).mp fun _ => ⟨(sampleId '3', 1), ?_, by decide +kernel⟩⟩
  have hfirst : CurrentEdge chainCalls .semantic (sampleId '0', 1) (sampleId '2', 1) :=
    ⟨sampleEdge (sampleId '0') 1 .semantic, by decide +kernel, rfl, rfl⟩
  have hsecond : CurrentEdge chainCalls .semantic (sampleId '2', 1) (sampleId '3', 1) :=
    ⟨sampleEdge (sampleId '2') 1 .semantic, by decide +kernel, rfl, rfl⟩
  exact ⟨sampleChange 1 true, mem_cons_self, .tail (.single hfirst) hsecond⟩

/-- Two consumers that depend on each other, one of them on the changed component too. -/
def cycleCalls : List Replacement :=
  [(sampleId '2', [sampleEdge (sampleId '0') 1 .semantic, sampleEdge (sampleId '3') 1 .semantic]),
    (sampleId '3', [sampleEdge (sampleId '2') 1 .semantic])]

/-- Both are collected, and the set is reported as truncated all the same. -/
theorem cycle_reported_truncated :
    (replay cycleCalls).getImpactSet (sampleDelta [sampleChange 1 true]) {} =
      .ok ⟨[⟨sampleId '2', 1, .semantic⟩, ⟨sampleId '3', 1, .semantic⟩], 16, true⟩ ∧
    ¬HonestBudget cycleCalls (sampleDelta [sampleChange 1 true])
      ⟨[⟨sampleId '2', 1, .semantic⟩, ⟨sampleId '3', 1, .semantic⟩], 16, true⟩ := by
  refine ⟨toOption_eq_some.mp (by decide +kernel), fun h => ?_⟩
  obtain ⟨ref, ⟨component, -, hchain⟩, habsent⟩ := h rfl
  obtain ⟨producer, -, edge, hedge, hkey, -⟩ := TransGen.tail'_iff.mp hchain
  obtain ⟨call, hcall, hid, hlast⟩ := exists_call_of_mem_lastEdges hedge
  have hlisted : ∀ call ∈ cycleCalls, ∀ edge ∈ call.2, (call.1, edge.consumerComponent) ∈
      [(⟨sampleId '2', 1, .semantic⟩ : ConsumerRef), ⟨sampleId '3', 1, .semantic⟩].map
        ConsumerRef.ref := by
    decide +kernel
  have hheld := hlisted call hcall edge (hlast ▸ hedge)
  rw [hid, show edge.consumerComponent = ref.2 from congrArg Prod.fst hkey] at hheld
  exact habsent hheld

end Veritas.SummaryDb

import Mathlib.Order.Lattice.Nat
import Veritas.Facts.Acceptance

/-! The proofs a canonical result keeps: one step for each result, least among its proofs, and
never supported by itself. -/
namespace Veritas

open Hypergraph Relaxation Ordered List Option

section Definitions

variable (roots : List SemanticRow) (edges : List WitnessEdge)

/-- The size of a smallest proof tree. -/
noncomputable def leastCost (k : String) : ℕ := sInf {n | ProofTree roots edges k n}

/-- What the selection minimises: tree edges, priority, rule id, derivation key. -/
noncomputable def selectionRank (step : ProofStep) : ℕ ×ₗ ℕ ×ₗ String ×ₗ String :=
  toLex (weight (leastCost roots edges) step.edge, toLex (step.spec.priority,
    toLex (step.rule, step.derivation)))

/-- No simple proof has as many edges as the cost that stands for no proof. -/
def CountableTrees : Prop := Fits (rootKeys roots) (stepSet edges) (2 ^ 64 - 1)

/-- The witnesses keep one least proof of a row. -/
structure KeepsLeastProof (witnesses : List WitnessEdge) (row : SemanticRow) (step : ProofStep) :
    Prop where
  mem : step ∈ proofSteps edges
  result : step.result = encodeSemanticKey row
  inputs : (witnesses.filter (·.result = row)).map
    (fun e => (e.inputOrdinal, encodeSemanticKey e.input)) = step.inputs
  rule : ∀ e ∈ witnesses, e.result = row → e.ruleId = step.rule
  cost : IsLeast {n | ProofTree roots edges (encodeSemanticKey row) n}
    (weight (leastCost roots edges) step.edge)
  tie : ∀ step' ∈ proofSteps edges, step'.result = encodeSemanticKey row →
    (∀ k ∈ step'.edge.inputs, Rooted roots edges k) →
      selectionRank roots edges step ≤ selectionRank roots edges step'
  smaller : ∀ k ∈ step.edge.inputs, k ∉ rootKeys roots →
    leastCost roots edges k < leastCost roots edges (encodeSemanticKey row)

end Definitions

variable {k : String}

section Exact

variable {roots results : List SemanticRow} {edges : List WitnessEdge} {step : ProofStep}
  {c : UInt64} (hfits : CountableTrees roots edges)

include hfits

theorem fits_steps :
    Fits (rootSet (isRootKey roots)) (Set.range (hyperedges edges).get) (2 ^ 64 - 1) := by
  rw [rootSet_isRootKey, range_steps]
  exact hfits

theorem leastCost_isLeast (h : Rooted roots edges k) :
    IsLeast {n | ProofTree roots edges k n} ((stepCosts roots edges).2 k).toNat := by
  have hleast := cost_isLeast (fits_steps hfits) (a := k) (by
    rw [rootSet_isRootKey, range_steps]
    exact h)
  rw [rootSet_isRootKey, range_steps] at hleast
  exact hleast

omit hfits in
theorem leastCost_eq_of_isLeast {n : ℕ} (h : IsLeast {n | ProofTree roots edges k n} n) :
    leastCost roots edges k = n := h.csInf_eq

theorem leastCost_eq (h : Rooted roots edges k) :
    leastCost roots edges k = ((stepCosts roots edges).2 k).toNat :=
  leastCost_eq_of_isLeast (leastCost_isLeast hfits h)

theorem costed_ne_iff (h : (step, c) ∈ costedSteps roots edges) :
    c ≠ unproven ↔ ∀ k ∈ step.edge.inputs, Rooted roots edges k := by
  obtain ⟨i, hedge, rfl⟩ := exists_index h
  have hiff := edgeCost_ne_iff (fits_steps hfits) (i := i)
  rw [rootSet_isRootKey, range_steps, hedge] at hiff
  exact hiff

/-- A step's cost is its size over smallest proofs of its inputs. -/
theorem costed_eq_weight (h : (step, c) ∈ costedSteps roots edges) (hc : c ≠ unproven) :
    c.toNat = weight (leastCost roots edges) step.edge := by
  have hrooted := (costed_ne_iff hfits h).mp hc
  obtain ⟨i, hedge, rfl⟩ := exists_index h
  have hweight := edgeCost_eq_weight (fits_steps hfits) hc
  have hmap : step.edge.inputs.map (leastCost roots edges) =
      step.edge.inputs.map fun b => ((stepCosts roots edges).2 b).toNat :=
    map_congr_left fun b hb => leastCost_eq hfits (hrooted b hb)
  rw [weight, hmap]
  rw [hedge] at hweight
  exact hweight

end Exact

section Emitted

variable {roots results : List SemanticRow} {edges : List WitnessEdge}
  (hadm : Admissible roots results edges)

theorem sortedResults_nodup (results : List SemanticRow) : (sortedResults results).Nodup := by
  refine List.Nodup.filterMap ?_ (nodup_ascending _)
  intro k k' row h h'
  exact (of_find? h).2.symm.trans (of_find? h').2

theorem chosenSteps_nodup : (chosenSteps roots results edges).Nodup := by
  refine List.Nodup.filterMap ?_ (sortedResults_nodup results)
  intro row row' q h h'
  obtain ⟨step, -, rfl⟩ := map_eq_some_iff.mp h
  obtain ⟨step', -, heq⟩ := map_eq_some_iff.mp h'
  exact (congrArg Prod.fst heq).symm

include hadm

variable {row : SemanticRow}

theorem Admissible.mem_sortedResults : row ∈ sortedResults results ↔ row ∈ results := by
  have hinj : ∀ a ∈ results, ∀ b ∈ results, encodeSemanticKey a = encodeSemanticKey b → a = b :=
    fun a ha b hb => encodeSemanticKey_inj (hadm.results_valid a ha) (hadm.results_valid b hb)
  rw [sortedResults, mem_filterMap]
  constructor
  · rintro ⟨k, -, hk⟩
    exact mem_of_find?_eq_some hk
  · intro hrow
    refine ⟨encodeSemanticKey row, ?_, (find?_eq_some_of_inj hinj).mpr ⟨hrow, rfl⟩⟩
    rw [mem_sortUnique]
    exact mem_map_of_mem hrow

variable {step : ProofStep}

theorem Admissible.mem_chosenSteps :
    (row, step) ∈ chosenSteps roots results edges ↔
      row ∈ results ∧ chosenStep roots edges (encodeSemanticKey row) = some step := by
  rw [chosenSteps, mem_filterMap]
  constructor
  · rintro ⟨row', hrow', h⟩
    obtain ⟨step', hstep', heq⟩ := map_eq_some_iff.mp h
    obtain ⟨rfl, rfl⟩ := Prod.mk.inj heq
    exact ⟨hadm.mem_sortedResults.mp hrow', hstep'⟩
  · rintro ⟨hrow, hstep⟩
    exact ⟨row, hadm.mem_sortedResults.mpr hrow, by rw [hstep]; rfl⟩

omit hadm in
theorem mem_stepEdges {e : WitnessEdge} :
    e ∈ stepEdges roots results row step ↔ ∃ q ∈ step.inputs, ∃ input,
      rowOfKey roots results q.2 = some input ∧ e = ⟨row, step.spec.id, "", input, q.1⟩ := by
  rw [stepEdges, mem_filterMap]
  refine exists_congr fun q => and_congr_right fun _ => ?_
  rw [map_eq_some_iff]
  exact exists_congr fun input => and_congr_right fun _ => eq_comm

/-- The witnesses of a result are the edges of its step. -/
theorem Admissible.filter_publishedEdges (hrow : row ∈ results)
    (hstep : chosenStep roots edges (encodeSemanticKey row) = some step) :
    (publishedEdges roots results edges).filter (·.result = row) =
      stepEdges roots results row step := by
  rw [publishedEdges, filter_flatMap]
  have hmem := hadm.mem_chosenSteps.mpr ⟨hrow, hstep⟩
  rw [flatMap_eq_of_unique chosenSteps_nodup hmem]
  · refine filter_eq_self.mpr fun e he => ?_
    obtain ⟨q, -, input, -, rfl⟩ := mem_stepEdges.mp he
    exact decide_eq_true rfl
  · rintro ⟨row', step'⟩ hmem' hne
    refine filter_eq_nil_iff.mpr fun e he hresult => ?_
    obtain ⟨q, -, input, -, rfl⟩ := mem_stepEdges.mp he
    obtain rfl : row' = row := of_decide_eq_true hresult
    have hstep' := (hadm.mem_chosenSteps.mp hmem').2
    rw [hstep] at hstep'
    exact hne (by rw [some.inj hstep'])

/-- Every input of a step has its row. -/
theorem Admissible.stepEdges_inputs (hstep : step ∈ proofSteps edges) :
    (stepEdges roots results row step).map
      (fun e => (e.inputOrdinal, encodeSemanticKey e.input)) = step.inputs := by
  rw [stepEdges, map_filterMap]
  have hsome : ∀ q ∈ step.inputs, Option.map (fun e : WitnessEdge =>
      (e.inputOrdinal, encodeSemanticKey e.input)) ((rowOfKey roots results q.2).map fun input =>
        (⟨row, step.spec.id, "", input, q.1⟩ : WitnessEdge)) = some q := by
    intro q hq
    obtain ⟨input, hinput, hkey⟩ : ∃ input ∈ roots ++ results, encodeSemanticKey input = q.2 := by
      have hk : q.2 ∈ step.edge.inputs := mem_map_of_mem hq
      rcases hadm.step_inputs hstep hk with hroot | ⟨input, hinput, hkey⟩
      · obtain ⟨input, hinput, hkey⟩ := mem_map.mp hroot
        exact ⟨input, mem_append_left _ hinput, hkey⟩
      · exact ⟨input, mem_append_right _ hinput, hkey⟩
    rw [hadm.rowOfKey_eq_some.mpr ⟨hinput, hkey⟩]
    simp only [map_some, hkey]
  rw [filterMap_congr hsome, filterMap_some]

end Emitted

section Selection

variable {roots results : List SemanticRow} {edges : List WitnessEdge} {step : ProofStep}

theorem proofSteps_sorted (edges : List WitnessEdge) :
    (proofSteps edges).Pairwise fun a b => a.order < b.order := by
  rw [proofSteps, pairwise_map]
  exact (sortedLT_ascending _).pairwise

/-- The chosen step of a key is the selected one among its steps. -/
theorem chosenStep_selected (h : chosenStep roots edges k = some step) :
    ∃ c, Selected (fun step : ProofStep => step.spec.priority)
      (fun a b => a.1.order < b.1.order) ((costedSteps roots edges).filter (·.1.result = k))
        (step, c) := by
  have hsorted : (costedSteps roots edges).Pairwise fun a b => a.1.order < b.1.order := by
    have hsteps := proofSteps_sorted edges
    rw [← costedSteps_fst roots, pairwise_map] at hsteps
    exact hsteps
  have hspec := (selectProof_spec (fun step : ProofStep => step.spec.priority)
    (hsorted.sublist (filter_sublist (p := fun q => decide (q.1.result = k))))).2
  rw [chosenStep] at h
  split_ifs at h
  obtain ⟨⟨step', c⟩, hsel, rfl⟩ := map_eq_some_iff.mp h
  exact ⟨c, hspec _ hsel⟩

theorem Admissible.findRule_spec (hadm : Admissible roots results edges)
    (h : step ∈ proofSteps edges) : ∃ e ∈ edges, step = proofStep edges e.firing ∧
      findRule e.ruleId = some step.spec := by
  obtain ⟨firing, hfiring, rfl⟩ := mem_map.mp h
  rw [mem_sortUnique] at hfiring
  obtain ⟨e, he, rfl⟩ := mem_map.mp hfiring
  obtain ⟨rule, hrule⟩ := hadm.rule e he
  have hfind := (derivingRule_eq_ok.mp hrule).1
  have hspec : (proofStep edges e.firing).spec = rule := by
    change ruleSpecOf e.ruleId = rule
    rw [ruleSpecOf, hfind, getD_some]
  exact ⟨e, he, rfl, hspec ▸ hfind⟩

theorem Admissible.spec_id (hadm : Admissible roots results edges)
    (h : step ∈ proofSteps edges) : step.spec.id = step.rule := by
  obtain ⟨e, he, rfl, hfind⟩ := hadm.findRule_spec h
  exact findRule_id hfind

/-- The chosen step is least where costs are exact. -/
theorem chosenStep_least (hfits : CountableTrees roots edges)
    (h : chosenStep roots edges k = some step) :
    step ∈ proofSteps edges ∧ step.result = k ∧ (∀ b ∈ step.edge.inputs, Rooted roots edges b) ∧
      ∀ step' ∈ proofSteps edges, step'.result = k →
        (∀ b ∈ step'.edge.inputs, Rooted roots edges b) →
          selectionRank roots edges step ≤ selectionRank roots edges step' := by
  obtain ⟨c, hmem, hproven, hleast⟩ := chosenStep_selected h
  obtain ⟨hmem, hresult⟩ := mem_filter.mp hmem
  have hresult : step.result = k := of_decide_eq_true hresult
  refine ⟨costed_fst hmem, hresult, (costed_ne_iff hfits hmem).mp hproven, ?_⟩
  intro step' hstep' hresult' hrooted'
  obtain ⟨c', hmem'⟩ := exists_cost roots hstep'
  have hproven' := (costed_ne_iff hfits hmem').mpr hrooted'
  have hrank := hleast (step', c') (mem_filter.mpr ⟨hmem', decide_eq_true hresult'⟩) hproven'
  have hc := costed_eq_weight hfits hmem hproven
  have hc' := costed_eq_weight hfits hmem' hproven'
  simp only [proofRank, hc, hc', Prod.Lex.toLex_lt_toLex, EmbeddingLike.apply_eq_iff_eq,
    Prod.mk.injEq] at hrank
  rw [selectionRank, selectionRank, Prod.Lex.toLex_le_toLex, Prod.Lex.toLex_le_toLex]
  rcases hrank with (hlt | ⟨heq, hlt⟩) | ⟨⟨heq, hprio⟩, heqs | horder⟩
  · exact .inl hlt
  · exact .inr ⟨heq, .inl hlt⟩
  · refine .inr ⟨heq, .inr ⟨hprio, ?_⟩⟩
    rw [heqs.1]
  · refine .inr ⟨heq, .inr ⟨hprio, ?_⟩⟩
    rcases Prod.Lex.lt_iff.mp horder with hlt | ⟨-, hlt⟩
    · exact absurd (hresult.trans hresult'.symm) hlt.ne
    · exact hlt.le

/-- A derived key costs what its chosen step does. -/
theorem chosenStep_cost (hfits : CountableTrees roots edges) (hroot : k ∉ rootKeys roots)
    (h : chosenStep roots edges k = some step) :
    IsLeast {n | ProofTree roots edges k n} (weight (leastCost roots edges) step.edge) := by
  obtain ⟨hstep, hresult, hrooted, hleast⟩ := chosenStep_least hfits h
  have hk : Rooted roots edges k := by
    rw [← hresult]
    exact Grounded.step (mem_map_of_mem hstep) hrooted
  have hcost := leastCost_isLeast hfits hk
  have hne : (stepCosts roots edges).2 k ≠ unproven := by
    intro heq
    rw [chosenStep, if_pos heq] at h
    cases h
  obtain ⟨step', hmem', hresult'⟩ := cost_attained hroot hne
  have hweight' := costed_eq_weight hfits hmem' hne
  have hrooted' := (costed_ne_iff hfits hmem').mp hne
  have hle := hleast step' (costed_fst hmem') hresult' hrooted'
  obtain ⟨c, hmem⟩ := exists_cost roots hstep
  have hproven := (costed_ne_iff hfits hmem).mpr hrooted
  have hweight := costed_eq_weight hfits hmem hproven
  have hge := cost_le_costed hmem
  rw [hresult, UInt64.le_iff_toNat_le, hweight] at hge
  have heq : weight (leastCost roots edges) step.edge = ((stepCosts roots edges).2 k).toNat := by
    refine le_antisymm ?_ hge
    rw [hweight']
    rw [selectionRank, selectionRank, Prod.Lex.toLex_le_toLex] at hle
    rcases hle with hlt | ⟨heq, -⟩
    · exact hlt.le
    · exact heq.le
  rw [heq]
  exact hcost

end Selection

theorem copyLevel_countable : CountableTrees [levelRow 0] (towerEdges 0 (copyLevel 0)) := by
  intro e he sizes nodes htrees
  rcases (tower_stepSet (Nat.zero_le 1) (copyLevel_tops 0)).mp he with ⟨m, hm, -⟩ | rfl
  · omega
  · have hsum : ∑ j, sizes j = sizes ⟨0, Nat.zero_lt_one⟩ := Fin.sum_univ_one sizes
    have hsize := tower_tree_size (Nat.zero_le 1) (copyLevel_tops 0) copyLevel_result_ne
      (htrees ⟨0, Nat.zero_lt_one⟩).tree
    rw [hsum, hsize]
    decide

/-- A level supported by itself, on top of a tower. -/
def loopLevel (n : ℕ) : RuleUse :=
  ⟨levelRow (n + 1), "wpa.effect.unknown.transitive.v2", "loop", [levelRow (n + 1), levelRow 0]⟩

theorem loopLevel_tops (n : ℕ) : Tops (loopLevel n) (n + 1) := by
  refine ⟨⟨n, by omega, rfl⟩, ?_, ⟨_, joinRule, rfl, rfl⟩, ?_⟩
  · intro row hrow
    have hcases : row = levelRow (n + 1) ∨ row = levelRow 0 := by simpa [loopLevel] using hrow
    rcases hcases with rfl | rfl
    · exact ⟨n + 1, by omega, rfl⟩
    · exact ⟨0, by omega, rfl⟩
  · simp [loopLevel]

theorem loopLevel_result_ne {n : ℕ} : ∀ k ≤ n, (loopLevel n).result ≠ levelRow k := by
  intro k hk heq
  have hkey : levelKey (n + 1) = levelKey k := congrArg encodeSemanticKey heq
  have hlevel := levelKey_injective hkey
  omega

/-- The join below the loop costs what its one proof does. -/
theorem loopLevel_join_cost {n : ℕ} {c : UInt64} (hc : c ≠ unproven)
    (hmem : ((joinLevel n).step, c) ∈ costedSteps [levelRow 0] (towerEdges (n + 1) (loopLevel n))) :
    c = UInt64.ofNat (2 ^ (n + 2) - 2) := by
  obtain ⟨sizes, htrees, hsize⟩ := costed_tree hmem hc
  have hedge : (joinLevel n).step.edge = ⟨levelKey (n + 1), [levelKey n, levelKey n]⟩ :=
    RuleUse.step_edge _
  rw [hsize]
  generalize (joinLevel n).step.edge = e at hedge sizes htrees
  subst hedge
  have hsizes : ∀ i, sizes i = 2 ^ (n + 1) - 2 := by
    intro i
    have htree := htrees i
    rw [get_pair] at htree
    exact tower_tree_size (Nat.le_refl _) (loopLevel_tops n) loopLevel_result_ne htree
  simp only [hsizes, Finset.sum_const, Finset.card_univ, Fintype.card_fin, smul_eq_mul,
    length_cons, length_nil]
  exact congrArg UInt64.ofNat (double_size n)

section Loop

variable {n : ℕ} (hn : n + 2 = 64)

include hn

/-- The relaxation settles on the loop: were it to cost what the join does, its own total would
wrap around to nothing. -/
theorem loopLevel_cheaper : ∃ c, ((loopLevel n).step, c) ∈
    costedSteps [levelRow 0] (towerEdges (n + 1) (loopLevel n)) ∧ c.toNat < 2 ^ 64 - 2 := by
  have hsteps : ∀ step, step ∈ proofSteps (towerEdges (n + 1) (loopLevel n)) ↔ _ := fun step =>
    tower_steps (Nat.le_refl (n + 1)) (loopLevel_tops n)
  obtain ⟨join, hjoin⟩ := exists_cost [levelRow 0] ((hsteps _).mpr (.inl ⟨n, by omega, rfl⟩))
  obtain ⟨loop, hloop⟩ := exists_cost [levelRow 0] ((hsteps _).mpr (.inr rfl))
  generalize hcost : (stepCosts [levelRow 0] (towerEdges (n + 1) (loopLevel n))).2 = cost
  have hproven : join ≠ unproven := by
    obtain ⟨sizes, htrees, hsize⟩ :=
      join_trees (Nat.le_refl (n + 1)) (loopLevel_tops n) (Nat.lt_succ_self n)
    rintro rfl
    rw [hn] at hsize
    have hle := costed_le hjoin htrees (by omega)
    rw [toNat_unproven, ← hsize] at hle
    omega
  have hle : (cost (levelKey (n + 1))).toNat ≤ 2 ^ 64 - 2 := by
    have hle := cost_le_costed hjoin
    rw [hcost, loopLevel_join_cost hproven hjoin, hn, UInt64.le_iff_toNat_le,
      toNat_ofNat_of_lt (by omega)] at hle
    exact hle
  have hne : cost (levelKey (n + 1)) ≠ unproven := by
    intro heq
    rw [heq, toNat_unproven] at hle
    omega
  by_cases heq : (cost (levelKey (n + 1))).toNat = 2 ^ 64 - 2
  · refine ⟨loop, hloop, ?_⟩
    have hzero : cost (levelKey 0) = 0 := by
      rw [← hcost]
      exact (stepWork_invariant _ _).root_cost _ (by simp [isRootKey, levelKey])
    have htotal : total cost (loopLevel n).step.edge.inputs = some (UInt64.ofNat (2 ^ 64)) := by
      rw [RuleUse.step_edge, total_eq_some]
      constructor
      · intro b hb
        have hcases : b = levelKey (n + 1) ∨ b = levelKey 0 := by
          simpa [loopLevel, levelKey] using hb
        rcases hcases with rfl | rfl
        · exact hne
        · rw [hzero]
          decide
      · have hweight : weight (fun b => (cost b).toNat) ⟨levelKey (n + 1),
            [levelKey (n + 1), levelKey 0]⟩ = 2 ^ 64 := by
          simp [weight, heq, hzero]
        exact congrArg UInt64.ofNat hweight.symm
    rw [← hcost] at htotal
    have hle := costed_settled hloop htotal
    rw [UInt64.le_iff_toNat_le, UInt64.toNat_ofNat', Nat.mod_self] at hle
    omega
  · rw [← hcost] at hne heq hle
    obtain ⟨step, hmem, hresult⟩ := cost_attained (levelKey_not_root n) hne
    rcases (hsteps _).mp (costed_fst hmem) with ⟨m, hm, rfl⟩ | rfl
    · have hlevel := levelKey_injective hresult
      obtain rfl : m = n := by omega
      rw [loopLevel_join_cost hne hmem, hn, toNat_ofNat_of_lt (by omega)] at heq
      exact absurd rfl heq
    · exact ⟨_, hmem, by omega⟩

theorem loopLevel_isSome : ∀ row ∈ levelRows (n + 1), (chosenStep [levelRow 0]
    (towerEdges (n + 1) (loopLevel n)) (encodeSemanticKey row)).isSome := by
  intro row hrow
  obtain ⟨m, hm, rfl⟩ := mem_levelRows.mp hrow
  refine (tower_stepTree (Nat.le_refl (n + 1)) (loopLevel_tops n) hm).isSome ?_
  have hpow : 2 ^ (m + 2) ≤ 2 ^ 64 := Nat.pow_le_pow_right (by omega) (by omega)
  omega

/-- The level keeps the loop as its proof. -/
theorem loopLevel_chosen : chosenStep [levelRow 0] (towerEdges (n + 1) (loopLevel n))
    (levelKey (n + 1)) = some (loopLevel n).step := by
  have htop : levelRow (n + 1) ∈ levelRows (n + 1) := mem_levelRows.mpr ⟨n, by omega, rfl⟩
  obtain ⟨step, hstep⟩ := isSome_iff_exists.mp (loopLevel_isSome hn _ htop)
  obtain ⟨c, hsel⟩ := chosenStep_selected hstep
  have hproven : c ≠ unproven := hsel.proven
  obtain ⟨hmem, hresult⟩ := mem_filter.mp hsel.mem
  have hresult : step.result = levelKey (n + 1) := of_decide_eq_true hresult
  obtain ⟨c', hmem', hlt⟩ := loopLevel_cheaper hn
  rcases (tower_steps (Nat.le_refl (n + 1)) (loopLevel_tops n)).mp (costed_fst hmem) with
    ⟨m, hm, rfl⟩ | rfl
  · exfalso
    have hlevel := levelKey_injective hresult
    obtain rfl : m = n := by omega
    have hproven' : c' ≠ unproven := by
      rintro rfl
      rw [toNat_unproven] at hlt
      omega
    have hc : c.toNat = 2 ^ 64 - 2 := by
      rw [loopLevel_join_cost hproven hmem, hn, toNat_ofNat_of_lt (by omega)]
    have hle : c.toNat ≤ c'.toNat :=
      hsel.cost_le (mem_filter.mpr ⟨hmem', decide_eq_true rfl⟩) hproven'
    omega
  · exact hstep

theorem loopLevel_cites_itself {sha256 : String → String} :
    ∃ c, canonicalize sha256 ⟨[towerRoot], [], some (towerRaw (n + 1) (loopLevel n) (n + 1))⟩ =
      .ok c ∧ ∃ e ∈ c.witnesses, e.result = levelRow (n + 1) ∧ e.input = levelRow (n + 1) := by
  have hadm := tower_admissible (Nat.le_refl (n + 1)) (loopLevel_tops n)
  obtain ⟨c, hc⟩ : ∃ c, canonicalize sha256 ⟨[towerRoot], [],
      some (towerRaw (n + 1) (loopLevel n) (n + 1))⟩ = .ok c :=
    (tower_isOk_iff (Nat.le_refl (n + 1)) (loopLevel_tops n)).mpr (loopLevel_isSome hn)
  refine ⟨c, hc, ?_⟩
  obtain ⟨raw, hraw, -, -, rfl⟩ := canonicalize_eq_ok.mp hc
  obtain rfl := some.inj hraw
  have htop : levelRow (n + 1) ∈ levelRows (n + 1) := mem_levelRows.mpr ⟨n, by omega, rfl⟩
  have hchosen := hadm.mem_chosenSteps.mpr ⟨htop, loopLevel_chosen hn⟩
  have hedge : (⟨levelRow (n + 1), (loopLevel n).step.spec.id, "", levelRow (n + 1), 0⟩ :
      WitnessEdge) ∈ stepEdges [levelRow 0] (levelRows (n + 1)) (levelRow (n + 1))
        (loopLevel n).step := by
    refine mem_stepEdges.mpr ⟨(0, levelKey (n + 1)), ?_, levelRow (n + 1),
      hadm.rowOfKey_eq_some.mpr ⟨mem_append_right _ htop, rfl⟩, rfl⟩
    exact RuleUse.mem_step_inputs.mpr ⟨levelRow (n + 1), rfl, rfl⟩
  exact ⟨_, mem_flatMap.mpr ⟨_, hchosen, hedge⟩, rfl, rfl⟩

end Loop

end Veritas

import Veritas.Facts.ProofTower

/-! Acceptance: canonicalization succeeds on the grounded evaluations whose proofs can be counted,
and on no others. -/
namespace Veritas

open Hypergraph Relaxation Ordered

/-- Every result that can be proved has a proof with fewer tree edges than the cost that stands
for no proof. -/
def CountableProofs (roots results : List SemanticRow) (edges : List WitnessEdge) : Prop :=
  ∀ row ∈ results, (∃ n, StepTree roots edges (encodeSemanticKey row) n) →
    ∃ n < 2 ^ 64 - 1, StepTree roots edges (encodeSemanticKey row) n

/-- Once the checks on rows and edges pass, only grounded evaluations are accepted, and all of
them that have proofs small enough to be counted. -/
theorem canonicalize_isOk_iff_grounds {sha256 : String → String} {locals successors}
    {raw : RawWpaEvaluation} (hchecks : ∃ p, prepare (locals ++ successors) raw = .ok p) :
    let roots := rootRowsOf (locals ++ successors)
    let accepted := ∃ c, canonicalize sha256 ⟨locals, successors, some raw⟩ = .ok c
    (accepted → Grounds roots raw.results raw.witnesses) ∧
      (CountableProofs roots raw.results raw.witnesses →
        (accepted ↔ Grounds roots raw.results raw.witnesses)) := by
  intro roots accepted
  obtain ⟨p, hprep⟩ := hchecks
  have hadm : Admissible roots raw.results raw.witnesses := (prepare_spec hprep).1
  have haccepted : accepted ↔ _ := canonicalize_isOk_iff hadm
  have hsound : accepted → Grounds roots raw.results raw.witnesses := by
    intro h row hrow
    obtain ⟨n, htree⟩ := exists_stepTree (haccepted.mp h row hrow)
    exact htree.rooted
  refine ⟨hsound, fun hcount => ⟨hsound, fun hgrounds => haccepted.mpr fun row hrow => ?_⟩⟩
  obtain ⟨n, hn, htree⟩ := hcount row hrow (hgrounds.stepTree hadm hrow)
  exact htree.isSome hn

/-- A copy of the level below, on top of a tower. -/
def copyLevel (n : ℕ) : RuleUse :=
  ⟨levelRow (n + 1), "wpa.effect.unknown.call.v2", "", [levelRow n]⟩

theorem copyRule : findRule "wpa.effect.unknown.call.v2" =
    some ⟨"wpa.effect.unknown.call.v2", 10, .unknownEffect, 1⟩ := by
  decide

theorem copyLevel_tops (n : ℕ) : Tops (copyLevel n) (n + 1) := by
  refine ⟨⟨n, by omega, rfl⟩, ?_, ?_, ?_⟩
  · intro row hrow
    exact ⟨n, by omega, List.mem_singleton.mp hrow⟩
  · exact ⟨⟨"wpa.effect.unknown.call.v2", 10, .unknownEffect, 1⟩, copyRule, rfl, rfl⟩
  · simp [copyLevel]

section Copy

variable {n : ℕ}

theorem copyLevel_result_ne : ∀ k ≤ n, (copyLevel n).result ≠ levelRow k := by
  intro k hk heq
  have hkey : levelKey (n + 1) = levelKey k := congrArg encodeSemanticKey heq
  have hlevel := levelKey_injective hkey
  omega

/-- The only proof of the copy has one edge more than that of the level below. -/
theorem copyLevel_sizes {step : ProofStep} (hstep : step ∈ proofSteps (towerEdges n (copyLevel n)))
    (hresult : step.result = levelKey (n + 1)) {sizes : Fin step.edge.inputs.length → ℕ}
    (htrees : ∀ j, ProofTree [levelRow 0] (towerEdges n (copyLevel n))
      (step.edge.inputs.get j) (sizes j)) :
    step.edge.inputs.length + ∑ j, sizes j = 2 ^ (n + 1) - 1 := by
  rcases (tower_steps (Nat.le_succ n) (copyLevel_tops n)).mp hstep with ⟨m, hm, rfl⟩ | rfl
  · have hlevel := levelKey_injective hresult
    omega
  · have hedge : (copyLevel n).step.edge = ⟨levelKey (n + 1), [levelKey n]⟩ := RuleUse.step_edge _
    generalize (copyLevel n).step.edge = e at hedge sizes htrees
    subst hedge
    have hsize := tower_tree_size (Nat.le_succ n) (copyLevel_tops n) copyLevel_result_ne
      (htrees ⟨0, Nat.zero_lt_one⟩)
    have hsum : ∑ j, sizes j = sizes ⟨0, Nat.zero_lt_one⟩ := Fin.sum_univ_one sizes
    have hpos := Nat.two_pow_pos n
    rw [hsum, hsize, List.length_singleton, pow_succ]
    omega

theorem copyLevel_grounds (n : ℕ) :
    Grounds [levelRow 0] (levelRows (n + 1)) (towerEdges n (copyLevel n)) := by
  intro row hrow
  obtain ⟨m, hm, rfl⟩ := mem_levelRows.mp hrow
  rcases Nat.lt_succ_iff_lt_or_eq.mp hm with hlt | rfl
  · refine ⟨⟨(joinLevel m).step, ?_, rfl⟩, ?_⟩
    · exact (tower_steps (Nat.le_succ n) (copyLevel_tops n)).mpr (.inl ⟨m, hlt, rfl⟩)
    · exact (tower_tree (Nat.le_succ n) (copyLevel_tops n) hlt).grounded
  · refine ⟨⟨(copyLevel m).step, ?_, rfl⟩, ?_⟩
    · exact (tower_steps (Nat.le_succ m) (copyLevel_tops m)).mpr (.inr rfl)
    · have he : (⟨levelKey (m + 1), [levelKey m]⟩ : Edge String) ∈
          stepSet (towerEdges m (copyLevel m)) :=
        (tower_stepSet (Nat.le_succ m) (copyLevel_tops m)).mpr (.inr rfl)
      refine Grounded.step he fun k hk => ?_
      rw [List.mem_singleton.mp hk]
      exact (tower_tree (Nat.le_succ m) (copyLevel_tops m) (Nat.le_refl m)).grounded

theorem copyLevel_stepTree (n : ℕ) : StepTree [levelRow 0] (towerEdges n (copyLevel n))
    (levelKey (n + 1)) (2 ^ (n + 1) - 1) := by
  have htop : levelRow (n + 1) ∈ levelRows (n + 1) := mem_levelRows.mpr ⟨n, by omega, rfl⟩
  obtain ⟨m, step, hstep, hresult, sizes, htrees, hm⟩ := (copyLevel_grounds n).stepTree
    (tower_admissible (Nat.le_succ n) (copyLevel_tops n)) htop
  rw [← copyLevel_sizes hstep hresult htrees]
  exact ⟨step, hstep, hresult, sizes, htrees, rfl⟩

end Copy

/-- A single copy of the input is accepted. -/
theorem copyLevel_accepted :
    (∃ p, prepare ([towerRoot] ++ []) (towerRaw 0 (copyLevel 0) 1) = .ok p) ∧
      ∃ c, canonicalize id ⟨[towerRoot], [], some (towerRaw 0 (copyLevel 0) 1)⟩ = .ok c := by
  have hchecks := tower_prepare (Nat.zero_le 1) (copyLevel_tops 0)
  refine ⟨hchecks, ?_⟩
  refine ((canonicalize_isOk_iff_grounds hchecks).2 ?_).mpr (copyLevel_grounds 0)
  intro row hrow _
  obtain ⟨m, hm, rfl⟩ := mem_levelRows.mp hrow
  obtain rfl : m = 0 := by omega
  exact ⟨1, by decide, copyLevel_stepTree 0⟩

/-- Sixty-three joins and a copy: the copy's one proof has as many edges as the cost that stands
for no proof, and a grounded evaluation is rejected. -/
theorem copyLevel_rejected :
    (∃ p, prepare ([towerRoot] ++ []) (towerRaw 63 (copyLevel 63) 64) = .ok p) ∧
      Grounds [levelRow 0] (levelRows 64) (towerEdges 63 (copyLevel 63)) ∧
        ¬ ∃ c, canonicalize id ⟨[towerRoot], [], some (towerRaw 63 (copyLevel 63) 64)⟩ = .ok c := by
  refine ⟨tower_prepare (Nat.le_succ 63) (copyLevel_tops 63), copyLevel_grounds 63, ?_⟩
  intro hok
  have hall := (tower_isOk_iff (Nat.le_succ 63) (copyLevel_tops 63)).mp hok
  have htop : levelRow 64 ∈ levelRows 64 := mem_levelRows.mpr ⟨63, by omega, rfl⟩
  obtain ⟨step, cost, hmem, hresult, hcost⟩ := chosenStep_isSome.mp (hall _ htop)
  obtain ⟨sizes, htrees, hsize⟩ := costed_tree hmem hcost
  rw [copyLevel_sizes (costed_fst hmem) hresult htrees] at hsize
  exact hcost hsize

end Veritas

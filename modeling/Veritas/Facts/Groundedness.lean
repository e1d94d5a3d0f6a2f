import Veritas.Facts.RuleUse
import Veritas.Library.CostFixpoint

/-! Which evaluations canonicalization accepts: those whose results have finite rooted proofs. -/
namespace Veritas

open Hypergraph Relaxation Ordered List

section Definitions

variable (roots results : List SemanticRow) (edges : List WitnessEdge)

def rootKeys : Set String := {k | k ∈ roots.map encodeSemanticKey}

/-- The proof steps as hyperedges. -/
def hyperedges : List (Edge String) := (proofSteps edges).map (·.edge)

def stepSet : Set (Edge String) := {e | e ∈ hyperedges edges}

/-- A key with a finite proof tree whose leaves are roots. -/
def Rooted (k : String) : Prop := Grounded (rootKeys roots) (stepSet edges) k

/-- A proof tree of a key, with this many tree edges. -/
def ProofTree (k : String) (n : ℕ) : Prop := Tree (rootKeys roots) (stepSet edges) k n

/-- A proof of a key that ends in one of its steps. -/
def StepTree (k : String) (n : ℕ) : Prop :=
  ∃ step ∈ proofSteps edges, step.result = k ∧ ∃ sizes : Fin step.edge.inputs.length → ℕ,
    (∀ j, ProofTree roots edges (step.edge.inputs.get j) (sizes j)) ∧
      n = step.edge.inputs.length + ∑ j, sizes j

/-- Every result has a derivation and a finite proof from the roots. -/
def Grounds : Prop :=
  ∀ row ∈ results, (∃ step ∈ proofSteps edges, step.result = encodeSemanticKey row) ∧
    Rooted roots edges (encodeSemanticKey row)

/-- The steps with their relaxed costs. -/
def costedSteps : List (ProofStep × UInt64) :=
  (proofSteps edges).zip (stepCosts roots edges).1

end Definitions

section Costs

variable {roots results : List SemanticRow} {edges : List WitnessEdge}

theorem rootSet_isRootKey : rootSet (isRootKey roots) = rootKeys roots := by
  ext k
  simp [rootSet, isRootKey, rootKeys]

theorem range_steps : Set.range (hyperedges edges).get = stepSet edges :=
  Set.range_list_get _

/-- The relaxation behind the costs. -/
def stepWork (roots : List SemanticRow) (edges : List WitnessEdge) :=
  relax (isRootKey roots) (hyperedges edges).get

theorem stepWork_invariant (roots : List SemanticRow) (edges : List WitnessEdge) :
    Invariant (isRootKey roots) (hyperedges edges).get (stepWork roots edges) :=
  (relax_invariant _ _).1

theorem stepCosts_fst : (stepCosts roots edges).1 = List.ofFn (stepWork roots edges).edgeCost := rfl

variable {q : ProofStep × UInt64}

theorem exists_index {step : ProofStep} {c : UInt64} (h : (step, c) ∈ costedSteps roots edges) :
    ∃ i, (hyperedges edges).get i = step.edge ∧ (stepWork roots edges).edgeCost i = c := by
  obtain ⟨i, hi, heq⟩ := mem_iff_getElem.mp h
  obtain ⟨rfl, rfl⟩ := Prod.mk.inj heq
  rw [costedSteps, length_zip, stepCosts_fst, length_ofFn, hyperedges, length_map, min_self] at hi
  refine ⟨⟨i, by rwa [hyperedges, length_map]⟩, ?_, ?_⟩
  · simp [costedSteps, hyperedges]
  · simp [costedSteps, stepCosts_fst]

theorem exists_costed (roots : List SemanticRow) (i : Fin (hyperedges edges).length) :
    ∃ q ∈ costedSteps roots edges, q.1.edge = (hyperedges edges).get i ∧
      q.2 = (stepWork roots edges).edgeCost i := by
  obtain ⟨i, hi⟩ := i
  have hi' : i < (costedSteps roots edges).length := by
    simpa [costedSteps, stepCosts_fst, hyperedges] using hi
  refine ⟨_, getElem_mem hi', ?_, ?_⟩
  · simp [costedSteps, hyperedges]
  · simp [costedSteps, stepCosts_fst]

theorem costedSteps_fst (roots : List SemanticRow) :
    (costedSteps roots edges).map (·.1) = proofSteps edges := by
  refine map_fst_zip (le_of_eq ?_)
  rw [stepCosts_fst, length_ofFn, hyperedges, length_map]

theorem costed_fst (h : q ∈ costedSteps roots edges) :
    q.1 ∈ proofSteps edges := (List.of_mem_zip h).1

theorem exists_cost (roots : List SemanticRow) {step : ProofStep} (h : step ∈ proofSteps edges) :
    ∃ c, (step, c) ∈ costedSteps roots edges := by
  rw [← costedSteps_fst roots] at h
  obtain ⟨⟨step', c⟩, hq, rfl⟩ := mem_map.mp h
  exact ⟨c, hq⟩

variable {step : ProofStep} {c : UInt64}

/-- A step with a cost has a proof tree of that size, wrapped. -/
theorem costed_tree (h : (step, c) ∈ costedSteps roots edges) (hc : c ≠ unproven) :
    ∃ sizes : Fin step.edge.inputs.length → ℕ,
      (∀ j, ProofTree roots edges (step.edge.inputs.get j) (sizes j)) ∧
        c = UInt64.ofNat (step.edge.inputs.length + ∑ j, sizes j) := by
  obtain ⟨i, hedge, rfl⟩ := exists_index h
  have htree := (stepWork_invariant roots edges).tree i hc
  rw [rootSet_isRootKey, range_steps, hedge] at htree
  exact htree

/-- A small enough tree bounds the cost of its last step. -/
theorem costed_le (h : (step, c) ∈ costedSteps roots edges)
    {sizes : Fin step.edge.inputs.length → ℕ}
    (htrees : ∀ j, ProofTree roots edges (step.edge.inputs.get j) (sizes j))
    (hlt : step.edge.inputs.length + ∑ j, sizes j < 2 ^ 64 - 1) :
    c.toNat ≤ step.edge.inputs.length + ∑ j, sizes j := by
  obtain ⟨i, hedge, rfl⟩ := exists_index h
  unfold ProofTree at htrees
  rw [← rootSet_isRootKey, ← range_steps] at htrees
  generalize step.edge = e at hedge sizes htrees hlt
  subst hedge
  exact edgeCost_le_of_tree htrees hlt

theorem cost_le_costed (h : (step, c) ∈ costedSteps roots edges) :
    (stepCosts roots edges).2 step.result ≤ c := by
  obtain ⟨i, hedge, rfl⟩ := exists_index h
  have hle := (stepWork_invariant roots edges).cost_le i
  rw [hedge] at hle
  exact hle

/-- No step is left that its inputs' costs could lower. -/
theorem costed_settled (h : (step, c) ∈ costedSteps roots edges) {t : UInt64}
    (ht : total (stepCosts roots edges).2 step.edge.inputs = some t) : c ≤ t := by
  obtain ⟨i, hedge, rfl⟩ := exists_index h
  refine relax_settled (isRootKey roots) (hyperedges edges).get i ?_
  rw [hedge]
  exact ht

variable {k : String} {n : ℕ}

/-- A derived key costs what one of its steps does. -/
theorem cost_attained (hroot : k ∉ rootKeys roots) (hne : (stepCosts roots edges).2 k ≠ unproven) :
    ∃ step, (step, (stepCosts roots edges).2 k) ∈ costedSteps roots edges ∧ step.result = k := by
  have hfalse : isRootKey roots k = false := decide_eq_false hroot
  obtain ⟨i, hresult, hcost⟩ := (stepWork_invariant roots edges).attained k hfalse hne
  obtain ⟨⟨step, c⟩, hmem, hedge, hc⟩ := exists_costed roots i
  obtain rfl : c = (stepCosts roots edges).2 k := hc.trans hcost
  refine ⟨step, hmem, ?_⟩
  rw [← hresult, ← hedge]
  rfl

/-- A key has a chosen step when one of its steps has a cost. -/
theorem chosenStep_isSome : (chosenStep roots edges k).isSome ↔
    ∃ step c, (step, c) ∈ costedSteps roots edges ∧ step.result = k ∧ c ≠ unproven := by
  have hrun : ((costedSteps roots edges).filter (·.1.result = k)).Pairwise fun _ _ => True :=
    pairwise_of_forall fun _ _ => trivial
  have hspec := selectProof_spec (fun step : ProofStep => step.spec.priority) hrun
  rw [chosenStep]
  constructor
  · intro h
    split_ifs at h with hcost
    · cases h
    · rw [Option.isSome_map] at h
      obtain ⟨⟨step, c⟩, hsel⟩ := Option.isSome_iff_exists.mp h
      obtain ⟨hmem, hproven, -⟩ := hspec.2 _ hsel
      obtain ⟨hmem, hresult⟩ := mem_filter.mp hmem
      exact ⟨step, c, hmem, of_decide_eq_true hresult, hproven⟩
  · rintro ⟨step, c, hmem, rfl, hc⟩
    have hcost : (stepCosts roots edges).2 step.result ≠ unproven := by
      intro heq
      have hle := cost_le_costed hmem
      rw [heq, UInt64.le_iff_toNat_le, toNat_unproven] at hle
      have hlt := toNat_lt_of_ne hc
      omega
    rw [if_neg hcost, Option.isSome_map, Option.isSome_iff_ne_none]
    intro hnone
    exact hc (hspec.1 hnone (step, c) (mem_filter.mpr ⟨hmem, decide_eq_true rfl⟩))

theorem StepTree.rooted (h : StepTree roots edges k n) :
    (∃ step ∈ proofSteps edges, step.result = k) ∧ Rooted roots edges k := by
  obtain ⟨step, hstep, rfl, sizes, htrees, -⟩ := h
  exact ⟨⟨step, hstep, rfl⟩, (Tree.step sizes (mem_map_of_mem hstep) htrees).grounded⟩

/-- A chosen step proves its key, whether or not a cost wrapped. -/
theorem exists_stepTree (h : (chosenStep roots edges k).isSome) :
    ∃ n, StepTree roots edges k n := by
  obtain ⟨step, c, hmem, rfl, hc⟩ := chosenStep_isSome.mp h
  obtain ⟨sizes, htrees, -⟩ := costed_tree hmem hc
  exact ⟨_, step, costed_fst hmem, rfl, sizes, htrees, rfl⟩

/-- A key with a proof that can be counted has a chosen step. -/
theorem StepTree.isSome (h : StepTree roots edges k n) (hn : n < 2 ^ 64 - 1) :
    (chosenStep roots edges k).isSome := by
  obtain ⟨step, hstep, rfl, sizes, htrees, rfl⟩ := h
  obtain ⟨c, hmem⟩ := exists_cost roots hstep
  refine chosenStep_isSome.mpr ⟨step, c, hmem, rfl, fun heq => ?_⟩
  have hle := costed_le hmem htrees hn
  rw [heq, toNat_unproven] at hle
  omega

/-- The inputs of a step are roots or results. -/
theorem Admissible.step_inputs (hadm : Admissible roots results edges)
    (hstep : step ∈ proofSteps edges) (hk : k ∈ step.edge.inputs) :
    k ∈ rootKeys roots ∨ ∃ row ∈ results, encodeSemanticKey row = k := by
  obtain ⟨firing, -, rfl⟩ := mem_map.mp hstep
  obtain ⟨⟨ordinal, k'⟩, hq, rfl⟩ := mem_map.mp hk
  obtain ⟨e, he, -, -, rfl⟩ := mem_proofStep_inputs.mp hq
  have hcited := hadm.cited e he
  rw [map_append, mem_append] at hcited
  exact hcited.imp id mem_map.mp

/-- Where all results are proved, each is proved by one of its steps. -/
theorem Grounds.stepTree (h : Grounds roots results edges)
    (hadm : Admissible roots results edges) {row : SemanticRow} (hrow : row ∈ results) :
    ∃ n, StepTree roots edges (encodeSemanticKey row) n := by
  obtain ⟨⟨step, hstep, hresult⟩, -⟩ := h row hrow
  have hinputs : ∀ j, ∃ n, ProofTree roots edges (step.edge.inputs.get j) n := by
    intro j
    rcases hadm.step_inputs hstep (get_mem _ j) with hroot | ⟨input, hinput, hkey⟩
    · exact ⟨0, .root hroot⟩
    · rw [← hkey]
      exact (h input hinput).2.exists_tree
  choose sizes hsizes using hinputs
  exact ⟨_, step, hstep, hresult, sizes, hsizes, rfl⟩

end Costs

end Veritas

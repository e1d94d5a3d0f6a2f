import Veritas.Facts.Groundedness

/-! A tower of joins: each level is proved from the one below it taken twice, so that proof trees
double while the evaluation grows by one result. -/
namespace Veritas

open Hypergraph Relaxation Ordered List

/-- The bottom level is an input; the levels over it are results. -/
def levelRelation : ℕ → RelationId
  | 0 => .supportUnknownEffect
  | _ + 1 => .unknownEffect

def levelRow (n : ℕ) : SemanticRow :=
  ⟨levelRelation n, [.stableId ⟨.functionVariant, ""⟩, .string (String.ofList (List.replicate n 'x')),
    .string "", .epistemic .may]⟩

def levelKey (n : ℕ) : String := encodeSemanticKey (levelRow n)

theorem levelRow_valid (n : ℕ) : validateSemanticRow (levelRow n) = .ok () := by
  cases n <;> rfl

theorem levelKey_injective : Function.Injective levelKey := by
  intro m n h
  have hrow := encodeSemanticKey_inj (levelRow_valid m) (levelRow_valid n) h
  have hcells := congrArg SemanticRow.cells hrow
  have htext : String.ofList (List.replicate m 'x') = String.ofList (List.replicate n 'x') := by
    simpa [levelRow] using hcells
  have hlist := congrArg List.length (String.ofList_injective htext)
  simpa using hlist

theorem levelKey_not_root (n : ℕ) : levelKey (n + 1) ∉ rootKeys [levelRow 0] := by
  intro hroot
  have hzero : levelKey (n + 1) = levelKey 0 := by simpa [rootKeys, levelKey] using hroot
  exact absurd (levelKey_injective hzero) (by omega)

def joinLevel (n : ℕ) : RuleUse :=
  ⟨levelRow (n + 1), "wpa.effect.unknown.transitive.v2", "", [levelRow n, levelRow n]⟩

theorem joinRule : findRule "wpa.effect.unknown.transitive.v2" =
    some ⟨"wpa.effect.unknown.transitive.v2", 30, .unknownEffect, 2⟩ := by
  decide

theorem get_pair {α : Type} {a : α} (i : Fin [a, a].length) : [a, a].get i = a := by
  have hmem := get_mem [a, a] i
  rwa [mem_cons, mem_singleton, or_self] at hmem

theorem double_size (n : ℕ) : 2 + 2 * (2 ^ (n + 1) - 2) = 2 ^ (n + 2) - 2 := by
  have hpos := Nat.two_pow_pos n
  rw [pow_succ, pow_succ, pow_succ]
  omega

section Tower

variable (height : ℕ) (last : RuleUse)

/-- A tower of this height and one more use. -/
def towerUses : List RuleUse := (List.range height).map joinLevel ++ [last]

def towerEdges : List WitnessEdge := (towerUses height last).flatMap (·.edges)

/-- The results up to a level. -/
def levelRows : List SemanticRow := (List.range height).map fun n => levelRow (n + 1)

def towerRoot : RootedInputFact := ⟨⟨⟨.fact, ""⟩, levelRow 0⟩, "", "", "", "", ""⟩

def towerRaw (levels : ℕ) : RawWpaEvaluation := ⟨levelRows levels, towerEdges height last, []⟩

end Tower

/-- The last use adds to a tower with these results. -/
structure Tops (last : RuleUse) (levels : ℕ) : Prop where
  result : ∃ n < levels, last.result = levelRow (n + 1)
  inputs : ∀ row ∈ last.inputs, ∃ n ≤ levels, row = levelRow n
  rule : ∃ rule, findRule last.ruleId = some rule ∧ rule.result = .unknownEffect ∧
    rule.arity = last.inputs.length
  fresh : ¬ (last.ruleId = "wpa.effect.unknown.transitive.v2" ∧ last.derivationKey = "")

section Facts

variable {height levels : ℕ} {last : RuleUse}

theorem mem_towerEdges {e : WitnessEdge} :
    e ∈ towerEdges height last ↔ ∃ u ∈ towerUses height last, e ∈ u.edges := List.mem_flatMap

theorem mem_levelRows {row : SemanticRow} :
    row ∈ levelRows levels ↔ ∃ n < levels, row = levelRow (n + 1) := by
  simp [levelRows, eq_comm]

variable {n : ℕ}

theorem mem_declared (h : n ≤ levels) : levelRow n ∈ [levelRow 0] ++ levelRows levels := by
  cases n with
  | zero => exact mem_append_left _ (mem_singleton_self _)
  | succ n => exact mem_append_right _ (mem_levelRows.mpr ⟨n, h, rfl⟩)

theorem mem_towerUses {u : RuleUse} :
    u ∈ towerUses height last ↔ (∃ n < height, u = joinLevel n) ∨ u = last := by
  simp [towerUses, eq_comm]

theorem tower_ruleUses (hle : height ≤ levels) (hlast : Tops last levels) :
    RuleUses [levelRow 0] (levelRows levels) (towerUses height last) := by
  refine ⟨?_, ?_, ?_, ?_, ?_, ?_⟩
  · intro row hrow
    rw [mem_singleton.mp hrow]
    exact levelRow_valid 0
  · intro row hrow
    obtain ⟨n, -, rfl⟩ := mem_levelRows.mp hrow
    exact levelRow_valid _
  · intro u hu
    rcases mem_towerUses.mp hu with ⟨n, hn, rfl⟩ | rfl
    · exact mem_levelRows.mpr ⟨n, by omega, rfl⟩
    · exact mem_levelRows.mpr hlast.result
  · intro u hu row hrow
    rcases mem_towerUses.mp hu with ⟨n, hn, rfl⟩ | rfl
    · have hrow : row = levelRow n := by simpa [joinLevel] using hrow
      rw [hrow]
      exact mem_declared (by omega)
    · obtain ⟨n, hn, rfl⟩ := hlast.inputs row hrow
      exact mem_declared hn
  · intro u hu
    rcases mem_towerUses.mp hu with ⟨n, hn, rfl⟩ | rfl
    · exact ⟨⟨"wpa.effect.unknown.transitive.v2", 30, .unknownEffect, 2⟩, joinRule, rfl, rfl⟩
    · obtain ⟨rule, hfind, hrel, harity⟩ := hlast.rule
      obtain ⟨n, -, hresult⟩ := hlast.result
      refine ⟨rule, hfind, ?_, harity⟩
      rw [hrel, hresult]
      rfl
  · have hsplit : ∀ n, (joinLevel n).firing ≠ last.firing := by
      intro n heq
      have hlabels := congrArg (fun t => ((ofLex (ofLex t).2).1, (ofLex (ofLex t).2).2)) heq
      obtain ⟨hrule, hkey⟩ := Prod.mk.inj hlabels
      exact hlast.fresh ⟨hrule.symm, hkey.symm⟩
    intro u hu u' hu' hfire
    rcases mem_towerUses.mp hu with ⟨n, -, rfl⟩ | rfl
    · rcases mem_towerUses.mp hu' with ⟨m, -, rfl⟩ | rfl
      · have hkey : levelKey (n + 1) = levelKey (m + 1) := congrArg (fun t => (ofLex t).1) hfire
        have hnm := levelKey_injective hkey
        obtain rfl : n = m := by omega
        rfl
      · exact absurd hfire (hsplit n)
    · rcases mem_towerUses.mp hu' with ⟨m, -, rfl⟩ | rfl
      · exact absurd hfire.symm (hsplit m)
      · rfl

variable (hle : height ≤ levels) (hlast : Tops last levels)

include hle hlast

theorem tower_admissible : Admissible [levelRow 0] (levelRows levels) (towerEdges height last) :=
  (tower_ruleUses hle hlast).admissible fun _ => mem_towerEdges

/-- The steps of a tower are its joins and the last use. -/
theorem tower_steps {step : ProofStep} : step ∈ proofSteps (towerEdges height last) ↔
    (∃ n < height, (joinLevel n).step = step) ∨ last.step = step := by
  rw [(tower_ruleUses hle hlast).mem_proofSteps fun _ => mem_towerEdges]
  constructor
  · rintro ⟨u, hu, rfl⟩
    rcases mem_towerUses.mp hu with ⟨n, hn, rfl⟩ | rfl
    · exact .inl ⟨n, hn, rfl⟩
    · exact .inr rfl
  · rintro (⟨n, hn, rfl⟩ | rfl)
    · exact ⟨_, mem_towerUses.mpr (.inl ⟨n, hn, rfl⟩), rfl⟩
    · exact ⟨_, mem_towerUses.mpr (.inr rfl), rfl⟩

/-- The hyperedges of a tower, over keys. -/
theorem tower_stepSet {e : Edge String} : e ∈ stepSet (towerEdges height last) ↔
    (∃ n < height, e = ⟨levelKey (n + 1), [levelKey n, levelKey n]⟩) ∨
      e = ⟨encodeSemanticKey last.result, last.inputs.map encodeSemanticKey⟩ := by
  have hmem : e ∈ stepSet (towerEdges height last) ↔
      ∃ step ∈ proofSteps (towerEdges height last), step.edge = e := mem_map
  rw [hmem]
  constructor
  · rintro ⟨step, hstep, rfl⟩
    rcases (tower_steps hle hlast).mp hstep with ⟨n, hn, rfl⟩ | rfl
    · exact .inl ⟨n, hn, RuleUse.step_edge _⟩
    · exact .inr (RuleUse.step_edge _)
  · rintro (⟨n, hn, rfl⟩ | rfl)
    · exact ⟨_, (tower_steps hle hlast).mpr (.inl ⟨n, hn, rfl⟩), RuleUse.step_edge _⟩
    · exact ⟨_, (tower_steps hle hlast).mpr (.inr rfl), RuleUse.step_edge _⟩

/-- A level has a proof that joins the one below it with itself. -/
theorem tower_tree (hn : n ≤ height) :
    ProofTree [levelRow 0] (towerEdges height last) (levelKey n) (2 ^ (n + 1) - 2) := by
  induction n with
  | zero => exact .root (by simp [rootKeys, levelKey])
  | succ n ih =>
    have he : (⟨levelKey (n + 1), [levelKey n, levelKey n]⟩ : Edge String) ∈
        stepSet (towerEdges height last) :=
      (tower_stepSet hle hlast).mpr (.inl ⟨n, hn, rfl⟩)
    have htree := Tree.step (fun _ => 2 ^ (n + 1) - 2) he fun i => by
      rw [get_pair]
      exact ih (by omega)
    simp only [Finset.sum_const, Finset.card_univ, Fintype.card_fin, smul_eq_mul,
      length_cons, length_nil] at htree
    rw [← double_size]
    exact htree

omit hle in
theorem Tops.result_eq {k : ℕ} (h : encodeSemanticKey last.result = levelKey k) :
    last.result = levelRow k := by
  obtain ⟨n, -, hn⟩ := hlast.result
  rw [hn] at h ⊢
  rw [levelKey_injective h]

/-- Below the last use the tower has one proof of each level, and its size doubles. -/
theorem tower_tree_size {m : ℕ} (hbelow : ∀ k ≤ n, last.result ≠ levelRow k)
    (h : ProofTree [levelRow 0] (towerEdges height last) (levelKey n) m) : m = 2 ^ (n + 1) - 2 := by
  induction n generalizing m with
  | zero =>
    rcases Tree.inv h with ⟨-, rfl⟩ | ⟨e, he, hresult, -⟩
    · rfl
    · exfalso
      rcases (tower_stepSet hle hlast).mp he with ⟨j, -, rfl⟩ | rfl
      · exact absurd (levelKey_injective hresult) (by omega)
      · exact hbelow 0 (Nat.le_refl 0) (hlast.result_eq hresult)
  | succ n ih =>
    rcases Tree.inv h with ⟨hroot, -⟩ | ⟨e, he, hresult, sizes, htrees, rfl⟩
    · exact absurd hroot (levelKey_not_root n)
    · rcases (tower_stepSet hle hlast).mp he with ⟨j, -, rfl⟩ | rfl
      · have hj := levelKey_injective hresult
        obtain rfl : j = n := by omega
        have hsizes : ∀ i, sizes i = 2 ^ (j + 1) - 2 := by
          intro i
          have htree := htrees i
          rw [get_pair] at htree
          exact ih (fun k hk => hbelow k (by omega)) htree
        simp only [hsizes, Finset.sum_const, Finset.card_univ, Fintype.card_fin, smul_eq_mul,
          length_cons, length_nil]
        exact double_size j
      · exact absurd (hlast.result_eq hresult) (hbelow _ (Nat.le_refl _))

theorem join_trees (hn : n < height) : ∃ sizes : Fin (joinLevel n).step.edge.inputs.length → ℕ,
      (∀ j, ProofTree [levelRow 0] (towerEdges height last)
        ((joinLevel n).step.edge.inputs.get j) (sizes j)) ∧
          2 ^ (n + 2) - 2 = (joinLevel n).step.edge.inputs.length + ∑ j, sizes j := by
  have hedge : (joinLevel n).step.edge = ⟨levelKey (n + 1), [levelKey n, levelKey n]⟩ :=
    RuleUse.step_edge _
  rw [hedge]
  refine ⟨fun _ => 2 ^ (n + 1) - 2, fun i => ?_, ?_⟩
  · rw [get_pair]
    exact tower_tree hle hlast hn.le
  · simp only [Finset.sum_const, Finset.card_univ, Fintype.card_fin, smul_eq_mul,
      length_cons, length_nil]
    exact (double_size n).symm

/-- A level over the input is proved by its join. -/
theorem tower_stepTree (hn : n < height) :
    StepTree [levelRow 0] (towerEdges height last) (levelKey (n + 1)) (2 ^ (n + 2) - 2) :=
  ⟨(joinLevel n).step, (tower_steps hle hlast).mpr (.inl ⟨n, hn, rfl⟩), rfl,
    join_trees hle hlast hn⟩

theorem tower_prepare : ∃ p, prepare [towerRoot] (towerRaw height last levels) = .ok p :=
  prepare_isOk (tower_admissible hle hlast)

theorem tower_isOk_iff {sha256 : String → String} :
    (∃ c, canonicalize sha256 ⟨[towerRoot], [], some (towerRaw height last levels)⟩ = .ok c) ↔
      ∀ row ∈ levelRows levels,
        (chosenStep [levelRow 0] (towerEdges height last) (encodeSemanticKey row)).isSome :=
  canonicalize_isOk_iff (tower_admissible hle hlast :)

end Facts

theorem levelRow_not_input {levels : ℕ} : ∀ row ∈ levelRows levels, row ∉ [levelRow 0] := by
  intro row hrow hinput
  obtain ⟨n, -, rfl⟩ := mem_levelRows.mp hrow
  have hkey : levelKey (n + 1) = levelKey 0 :=
    congrArg encodeSemanticKey (mem_singleton.mp hinput)
  have hlevel := levelKey_injective hkey
  omega

end Veritas

import Veritas.Library.Relaxation

/-! What the relaxed costs say: which nodes are grounded, and what their proof trees measure. -/
namespace Relaxation

open Hypergraph Function List UInt64 Work

variable {α : Type*} [DecidableEq α] {n : ℕ} {root : α → Bool} {edges : Fin n → Edge α}

/-- The nodes the search starts from. -/
def rootSet (root : α → Bool) : Set α := {a | root a = true}

theorem toNat_unproven : unproven.toNat = 2 ^ 64 - 1 := rfl

theorem toNat_lt_of_ne {c : UInt64} (h : c ≠ unproven) : c.toNat < 2 ^ 64 - 1 := by
  have hlt := c.toNat_lt
  have hne : c.toNat ≠ 2 ^ 64 - 1 := fun heq => h (UInt64.toNat_inj.mp (heq.trans toNat_unproven.symm))
  omega

theorem le_unproven (c : UInt64) : c ≤ unproven := by
  have hlt := c.toNat_lt
  rw [le_iff_toNat_le, toNat_unproven]
  omega

theorem toNat_ofNat_of_lt {k : ℕ} (h : k < 2 ^ 64) : (ofNat k).toNat = k := by
  exact Nat.mod_eq_of_lt h

/-- What every visit keeps, wrapped sums included. -/
structure Invariant (root : α → Bool) (edges : Fin n → Edge α) (w : Work α n) : Prop where
  root_cost : ∀ a, root a = true → w.cost a = 0
  cost_le : ∀ i, w.cost (edges i).result ≤ w.edgeCost i
  attained : ∀ a, root a = false → w.cost a ≠ unproven →
    ∃ i, (edges i).result = a ∧ w.edgeCost i = w.cost a
  settled : ∀ i, i ∉ w.pending → ∀ t, total w.cost (edges i).inputs = some t → w.edgeCost i ≤ t
  tree : ∀ i, w.edgeCost i ≠ unproven → ∃ sizes : Fin (edges i).inputs.length → ℕ,
    (∀ j, Tree (rootSet root) (Set.range edges) ((edges i).inputs.get j) (sizes j)) ∧
      w.edgeCost i = ofNat ((edges i).inputs.length + ∑ j, sizes j)

variable {a : α} {t : UInt64}

namespace Invariant

variable {w w' : Work α n} {i : Fin n} {rest : List (Fin n)}

omit [DecidableEq α] in
theorem init (root : α → Bool) (edges : Fin n → Edge α) : Invariant root edges (init root n) := by
  refine ⟨?_, ?_, ?_, ?_, ?_⟩
  · intro a ha
    simp [init_cost, ha]
  · intro i
    rw [init_edgeCost]
    exact le_unproven _
  · intro a ha hne
    simp [init_cost, ha] at hne
  · intro i hi
    exact absurd (mem_init_pending root i) hi
  · intro i hne
    simp [init_edgeCost] at hne

omit [DecidableEq α] in
/-- A proved node has a tree whose size the cost is, wrapped. -/
theorem exists_tree (h : Invariant root edges w) (hne : w.cost a ≠ unproven) :
    ∃ k, Tree (rootSet root) (Set.range edges) a k ∧ w.cost a = ofNat k := by
  cases hroot : root a with
  | true => exact ⟨0, .root hroot, h.root_cost a hroot⟩
  | false =>
    obtain ⟨i, rfl, hcost⟩ := h.attained a hroot hne
    obtain ⟨sizes, htrees, hsize⟩ := h.tree i (hcost ▸ hne)
    exact ⟨_, .step sizes ⟨i, rfl⟩ htrees, hcost.symm.trans hsize⟩

omit [DecidableEq α] in
/-- The total of a provable edge, as the size of a tree over it. -/
theorem exists_sizes (h : Invariant root edges w) {e : Edge α} (ht : total w.cost e.inputs = some t) :
    ∃ sizes : Fin e.inputs.length → ℕ,
      (∀ j, Tree (rootSet root) (Set.range edges) (e.inputs.get j) (sizes j)) ∧
        t = UInt64.ofNat (e.inputs.length + ∑ j, sizes j) := by
  obtain ⟨hne, rfl⟩ := total_eq_some.mp ht
  choose sizes htree hsize using fun j => h.exists_tree (hne (e.inputs.get j) (get_mem _ j))
  refine ⟨sizes, htree, ?_⟩
  rw [weight_eq_sum, ← UInt64.toNat_inj, UInt64.toNat_ofNat', UInt64.toNat_ofNat']
  have hsum : (∑ j, (w.cost (e.inputs.get j)).toNat) % 2 ^ 64 = (∑ j, sizes j) % 2 ^ 64 := by
    rw [Finset.sum_nat_mod, Finset.sum_nat_mod _ _ sizes]
    congr 1
    refine Finset.sum_congr rfl fun j _ => ?_
    rw [hsize j, UInt64.toNat_ofNat', Nat.mod_mod]
  rw [Nat.add_mod, hsum, ← Nat.add_mod]

theorem total_update {cost : α → UInt64} {inputs : List α} (h : a ∉ inputs) :
    total (update cost a t) inputs = total cost inputs := by
  have hsame : ∀ b ∈ inputs, update cost a t (id b) = cost b := fun b hb =>
    update_of_ne (ne_of_mem_of_not_mem hb h) t cost
  simpa using total_map hsame

theorem visit (h : Invariant root edges w) (hp : w.pending = i :: rest)
    (hv : Work.Visited edges w i rest w') : Invariant root edges w' := by
  have hpending : ∀ j, j ∉ rest → j ≠ i → j ∉ w.pending := by
    intro j hj hne
    rw [hp, mem_cons]
    exact not_or.mpr ⟨hne, hj⟩
  cases hv with
  | skip hsettled hc he hpend =>
    refine ⟨?_, ?_, ?_, ?_, ?_⟩
    · rw [hc]
      exact h.root_cost
    · rw [hc, he]
      exact h.cost_le
    · rw [hc, he]
      exact h.attained
    · intro j hj
      rw [hc, he]
      rw [hpend] at hj
      by_cases hji : j = i
      · rw [hji]
        exact hsettled
      · exact h.settled j (hpending j hj hji)
    · rw [he]
      exact h.tree
  | lower t ht hlt hle hc he hpend =>
    refine ⟨?_, ?_, ?_, ?_, ?_⟩
    · rw [hc]
      exact h.root_cost
    · intro j
      rw [hc, he]
      by_cases hji : j = i
      · rw [hji, update_self]
        exact hle
      · rw [update_of_ne hji]
        exact h.cost_le j
    · intro a hroot hne
      rw [hc] at hne ⊢
      obtain ⟨j, hj, hcost⟩ := h.attained a hroot hne
      refine ⟨j, hj, ?_⟩
      -- the lowered edge attained nothing: its result was already at or below its new cost
      have hji : j ≠ i := by
        rintro rfl
        rw [hcost, ← hj] at hlt
        exact UInt64.not_le.mpr hlt hle
      rw [he, update_of_ne hji]
      exact hcost
    · intro j hj t' ht'
      rw [hc] at ht'
      rw [hpend] at hj
      rw [he]
      by_cases hji : j = i
      · rw [hji] at ht' ⊢
        rw [ht] at ht'
        rw [update_self, Option.some.inj ht']
        exact UInt64.le_refl _
      · rw [update_of_ne hji]
        exact h.settled j (hpending j hj hji) t' ht'
    · intro j hne
      rw [he] at hne ⊢
      by_cases hji : j = i
      · rw [hji, update_self]
        exact h.exists_sizes ht
      · rw [update_of_ne hji] at hne ⊢
        exact h.tree j hne
  | improve t ht hlt hlt' hc he hpend =>
    refine ⟨?_, ?_, ?_, ?_, ?_⟩
    · intro a hroot
      have ha : a ≠ (edges i).result := by
        rintro rfl
        rw [h.root_cost _ hroot] at hlt'
        exact absurd (UInt64.lt_iff_toNat_lt.mp hlt') (Nat.not_lt_zero _)
      rw [hc, update_of_ne ha]
      exact h.root_cost a hroot
    · intro j
      rw [hc, he]
      by_cases hji : j = i
      · rw [hji, update_self, update_self]
        exact UInt64.le_refl _
      · rw [update_of_ne hji]
        have hle := h.cost_le j
        by_cases hres : (edges j).result = (edges i).result
        · rw [hres, update_self]
          rw [hres] at hle
          exact UInt64.le_of_lt (UInt64.lt_of_lt_of_le hlt' hle)
        · rw [update_of_ne hres]
          exact hle
    · intro a hroot hne
      rw [hc] at hne ⊢
      by_cases ha : a = (edges i).result
      · refine ⟨i, ha.symm, ?_⟩
        rw [he, ha, update_self, update_self]
      · rw [update_of_ne ha] at hne ⊢
        obtain ⟨j, hj, hcost⟩ := h.attained a hroot hne
        have hji : j ≠ i := by
          rintro rfl
          exact ha hj.symm
        refine ⟨j, hj, ?_⟩
        rw [he, update_of_ne hji]
        exact hcost
    · intro j hj t' ht'
      -- an edge that reads the improved node is back on the worklist
      rw [hpend, not_or] at hj
      rw [hc, total_update hj.2] at ht'
      rw [he]
      by_cases hji : j = i
      · rw [hji] at ht' ⊢
        rw [ht] at ht'
        rw [update_self, Option.some.inj ht']
        exact UInt64.le_refl _
      · rw [update_of_ne hji]
        exact h.settled j (hpending j hj.1 hji) t' ht'
    · intro j hne
      rw [he] at hne ⊢
      by_cases hji : j = i
      · rw [hji, update_self]
        exact h.exists_sizes ht
      · rw [update_of_ne hji] at hne ⊢
        exact h.tree j hne

end Invariant

/-- The relaxed costs keep the invariant, and no edge is left to visit. -/
theorem relax_invariant (root : α → Bool) (edges : Fin n → Edge α) :
    Invariant root edges (relax root edges) ∧ (relax root edges).pending = [] :=
  run_invariant (fun _ _ _ _ hp hv h => h.visit hp hv) _ (Invariant.init root edges)

theorem relax_settled (root : α → Bool) (edges : Fin n → Edge α) (i : Fin n)
    (ht : total (relax root edges).cost (edges i).inputs = some t) :
    (relax root edges).edgeCost i ≤ t := by
  obtain ⟨h, hp⟩ := relax_invariant root edges
  refine h.settled i ?_ t ht
  rw [hp]
  exact not_mem_nil

variable {i : Fin n}

theorem grounded_of_edgeCost (h : (relax root edges).edgeCost i ≠ unproven) :
    ∀ b ∈ (edges i).inputs, Grounded (rootSet root) (Set.range edges) b := by
  obtain ⟨sizes, htree, -⟩ := (relax_invariant root edges).1.tree i h
  intro b hb
  obtain ⟨j, rfl⟩ := get_of_mem hb
  exact (htree j).grounded

/-- Costs below the bound on their inputs bound an edge's cost. -/
theorem edgeCost_le_of_sizes {sizes : Fin (edges i).inputs.length → ℕ}
    (hcost : ∀ j, ((relax root edges).cost ((edges i).inputs.get j)).toNat ≤ sizes j)
    (hlt : (edges i).inputs.length + ∑ j, sizes j < 2 ^ 64 - 1) :
    ((relax root edges).edgeCost i).toNat ≤ (edges i).inputs.length + ∑ j, sizes j := by
  have hne : ∀ b ∈ (edges i).inputs, (relax root edges).cost b ≠ unproven := by
    intro b hb
    obtain ⟨j, rfl⟩ := get_of_mem hb
    intro heq
    have hj := hcost j
    have hsmall := lt_of_input sizes j
    rw [heq, toNat_unproven] at hj
    omega
  have hle := relax_settled root edges i (total_eq_some.mpr ⟨hne, rfl⟩)
  have hweight : weight (fun b => ((relax root edges).cost b).toNat) (edges i) ≤
      (edges i).inputs.length + ∑ j, sizes j := by
    rw [weight_eq_sum]
    exact Nat.add_le_add_left (Finset.sum_le_sum fun j _ => hcost j) _
  rw [le_iff_toNat_le, toNat_ofNat_of_lt (by omega)] at hle
  omega

/-- A tree small enough to be counted bounds its node's cost. -/
theorem cost_le_of_tree {k : ℕ} (h : Tree (rootSet root) (Set.range edges) a k)
    (hk : k < 2 ^ 64 - 1) : ((relax root edges).cost a).toNat ≤ k := by
  have hinv := (relax_invariant root edges).1
  induction h with
  | root ha =>
    rw [hinv.root_cost _ ha]
    exact Nat.le_refl 0
  | @step e sizes he _ ih =>
    obtain ⟨i, rfl⟩ := he
    have hcost := edgeCost_le_of_sizes (fun j => ih j ((lt_of_input sizes j).trans hk)) hk
    exact (le_iff_toNat_le.mp (hinv.cost_le i)).trans hcost

theorem edgeCost_le_of_tree {sizes : Fin (edges i).inputs.length → ℕ}
    (h : ∀ j, Tree (rootSet root) (Set.range edges) ((edges i).inputs.get j) (sizes j))
    (hlt : (edges i).inputs.length + ∑ j, sizes j < 2 ^ 64 - 1) :
    ((relax root edges).edgeCost i).toNat ≤ (edges i).inputs.length + ∑ j, sizes j :=
  edgeCost_le_of_sizes (fun j => cost_le_of_tree (h j) ((lt_of_input sizes j).trans hlt)) hlt

/-! Exact costs, where no sum over simple trees can wrap. -/

/-- Costs are the sizes of simple trees, and bound the costs of all nodes in them. -/
structure Exact (root : α → Bool) (edges : Fin n → Edge α) (w : Work α n) : Prop where
  simple : ∀ a, w.cost a ≠ unproven → ∃ nodes,
    SimpleTree (rootSet root) (Set.range edges) a (w.cost a).toNat nodes ∧
      ∀ b ∈ nodes, (w.cost b).toNat ≤ (w.cost a).toNat
  edge : ∀ i, w.edgeCost i ≠ unproven → (∀ b ∈ (edges i).inputs, w.cost b ≠ unproven) ∧
    weight (fun b => (w.cost b).toNat) (edges i) ≤ (w.edgeCost i).toNat

namespace Exact

variable {w w' : Work α n} {i : Fin n} {rest : List (Fin n)}

omit [DecidableEq α] in
theorem init (root : α → Bool) (edges : Fin n → Edge α) : Exact root edges (Work.init root n) := by
  constructor
  · intro a hne
    cases hroot : root a with
    | true =>
      have hzero : (Work.init root n).cost a = 0 := by simp [Work.init_cost, hroot]
      rw [hzero]
      exact ⟨∅, .root hroot, by simp⟩
    | false => simp [Work.init_cost, hroot] at hne
  · intro i hne
    simp [Work.init_edgeCost] at hne

variable (hfits : Fits (rootSet root) (Set.range edges) (2 ^ 64 - 1))

include hfits

omit [DecidableEq α] in
/-- No total wraps. -/
theorem weight_lt (h : Exact root edges w)
    (hne : ∀ b ∈ (edges i).inputs, w.cost b ≠ unproven) :
    weight (fun b => (w.cost b).toNat) (edges i) < 2 ^ 64 - 1 := by
  choose nodes htree _ using fun j => h.simple ((edges i).inputs.get j) (hne _ (get_mem _ j))
  rw [weight_eq_sum]
  exact hfits (edges i) ⟨i, rfl⟩ _ nodes htree

omit [DecidableEq α] in
theorem toNat_total (h : Exact root edges w)
    (ht : total w.cost (edges i).inputs = some t) :
    t.toNat = weight (fun b => (w.cost b).toNat) (edges i) := by
  obtain ⟨hne, rfl⟩ := total_eq_some.mp ht
  have hlt := h.weight_lt hfits hne
  exact toNat_ofNat_of_lt (by omega)

omit [DecidableEq α] in
/-- The improved node stands in none of its inputs' trees, which it would have bounded. -/
theorem simpleTree_step (h : Exact root edges w) (ht : total w.cost (edges i).inputs = some t)
    (hlt : t < w.cost (edges i).result) :
    ∃ nodes, SimpleTree (rootSet root) (Set.range edges) (edges i).result t.toNat
        (insert (edges i).result nodes) ∧ (edges i).result ∉ nodes ∧
          ∀ b ∈ nodes, (w.cost b).toNat ≤ t.toNat := by
  have hweight := h.toNat_total hfits ht
  obtain ⟨hne, -⟩ := total_eq_some.mp ht
  choose nodes htree hbound using
    fun j => h.simple ((edges i).inputs.get j) (hne _ (get_mem _ j))
  have hinput : ∀ j, (w.cost ((edges i).inputs.get j)).toNat < t.toNat := by
    intro j
    rw [hweight]
    exact value_lt_weight (fun b => (w.cost b).toNat) (get_mem _ j)
  have hnot : ∀ j, (edges i).result ∉ nodes j := by
    intro j hmem
    have hle := hbound j _ hmem
    have hj := hinput j
    have hlt := lt_iff_toNat_lt.mp hlt
    omega
  refine ⟨⋃ j, nodes j, ?_, ?_, ?_⟩
  · rw [hweight, weight_eq_sum]
    exact .step _ nodes ⟨i, rfl⟩ htree hnot
  · simpa using hnot
  · intro b hb
    obtain ⟨j, hj⟩ := Set.mem_iUnion.mp hb
    have hle := hbound j b hj
    have hlt := hinput j
    omega

theorem visit (h : Exact root edges w) (hv : Work.Visited edges w i rest w') :
    Exact root edges w' := by
  cases hv with
  | skip _ hc he _ =>
    refine ⟨?_, ?_⟩
    · rw [hc]
      exact h.simple
    · rw [hc, he]
      exact h.edge
  | lower t ht hlt _ hc he _ =>
    refine ⟨?_, ?_⟩
    · rw [hc]
      exact h.simple
    · intro j hne
      rw [he] at hne ⊢
      rw [hc]
      by_cases hji : j = i
      · subst hji
        rw [update_self]
        exact ⟨(total_eq_some.mp ht).1, (h.toNat_total hfits ht).ge⟩
      · rw [update_of_ne hji] at hne ⊢
        exact h.edge j hne
  | improve t ht hlt hlt' hc he _ =>
    have hcost : ∀ b, (w'.cost b).toNat ≤ (w.cost b).toNat := by
      intro b
      rw [hc]
      by_cases hb : b = (edges i).result
      · rw [hb, update_self]
        exact (lt_iff_toNat_lt.mp hlt').le
      · rw [update_of_ne hb]
    have hproved : ∀ b, w.cost b ≠ unproven → w'.cost b ≠ unproven := by
      intro b hb heq
      have hle := hcost b
      have hsmall := toNat_lt_of_ne hb
      rw [heq, toNat_unproven] at hle
      omega
    refine ⟨?_, ?_⟩
    · intro a hne
      by_cases ha : a = (edges i).result
      · subst ha
        obtain ⟨nodes, htree, -, hbound⟩ := h.simpleTree_step hfits ht hlt'
        have hself : w'.cost (edges i).result = t := by rw [hc, update_self]
        rw [hself]
        refine ⟨_, htree, ?_⟩
        intro b hb
        rcases Set.mem_insert_iff.mp hb with rfl | hb
        · rw [hself]
        · exact (hcost b).trans (hbound b hb)
      · have hsame : w'.cost a = w.cost a := by rw [hc, update_of_ne ha]
        rw [hsame] at hne ⊢
        obtain ⟨nodes, htree, hbound⟩ := h.simple a hne
        exact ⟨nodes, htree, fun b hb => (hcost b).trans (hbound b hb)⟩
    · intro j hne
      rw [he] at hne ⊢
      have hmono : weight (fun b => (w'.cost b).toNat) (edges j) ≤
          weight (fun b => (w.cost b).toNat) (edges j) := weight_mono fun b _ => hcost b
      by_cases hji : j = i
      · subst hji
        rw [update_self]
        refine ⟨fun b hb => hproved b ((total_eq_some.mp ht).1 b hb), ?_⟩
        rw [h.toNat_total hfits ht]
        exact hmono
      · rw [update_of_ne hji] at hne ⊢
        obtain ⟨hinputs, hle⟩ := h.edge j hne
        exact ⟨fun b hb => hproved b (hinputs b hb), hmono.trans hle⟩

end Exact

section Fit

variable (hfits : Fits (rootSet root) (Set.range edges) (2 ^ 64 - 1))

include hfits

theorem relax_exact : Exact root edges (relax root edges) :=
  (run_invariant (fun _ _ _ _ _ hv h => Exact.visit hfits h hv) _ (Exact.init root edges)).1

theorem edgeCost_le_weight
    (hne : ∀ b ∈ (edges i).inputs, (relax root edges).cost b ≠ unproven) :
    ((relax root edges).edgeCost i).toNat ≤
        weight (fun b => ((relax root edges).cost b).toNat) (edges i) ∧
      weight (fun b => ((relax root edges).cost b).toNat) (edges i) < 2 ^ 64 - 1 := by
  have hlt := (relax_exact hfits).weight_lt hfits hne
  have hle := relax_settled root edges i (total_eq_some.mpr ⟨hne, rfl⟩)
  rw [le_iff_toNat_le, toNat_ofNat_of_lt (by omega)] at hle
  exact ⟨hle, hlt⟩

/-- Every grounded node gets a cost. -/
theorem cost_ne_of_grounded (h : Grounded (rootSet root) (Set.range edges) a) :
    (relax root edges).cost a ≠ unproven := by
  have hinv := (relax_invariant root edges).1
  induction h with
  | root ha =>
    rw [hinv.root_cost _ ha]
    decide
  | @step e he _ ih =>
    obtain ⟨i, rfl⟩ := he
    obtain ⟨hle, hlt⟩ := edgeCost_le_weight hfits ih
    have hcost := le_iff_toNat_le.mp (hinv.cost_le i)
    intro heq
    rw [heq, toNat_unproven] at hcost
    omega

/-- The cost of a grounded node is the size of its smallest proof tree. -/
theorem cost_isLeast (h : Grounded (rootSet root) (Set.range edges) a) :
    IsLeast {k | Tree (rootSet root) (Set.range edges) a k} ((relax root edges).cost a).toNat := by
  constructor
  · obtain ⟨nodes, htree, -⟩ := (relax_exact hfits).simple a (cost_ne_of_grounded hfits h)
    exact htree.tree
  · intro k hk
    by_cases hlt : k < 2 ^ 64 - 1
    · exact cost_le_of_tree hk hlt
    · have hmax := ((relax root edges).cost a).toNat_lt
      omega

theorem edgeCost_ne_iff : (relax root edges).edgeCost i ≠ unproven ↔
    ∀ b ∈ (edges i).inputs, Grounded (rootSet root) (Set.range edges) b := by
  refine ⟨grounded_of_edgeCost, fun h heq => ?_⟩
  obtain ⟨hle, hlt⟩ := edgeCost_le_weight hfits fun b hb => cost_ne_of_grounded hfits (h b hb)
  rw [heq, toNat_unproven] at hle
  omega

/-- An edge's cost is what its inputs weigh at their own costs. -/
theorem edgeCost_eq_weight (h : (relax root edges).edgeCost i ≠ unproven) :
    ((relax root edges).edgeCost i).toNat =
      weight (fun b => ((relax root edges).cost b).toNat) (edges i) := by
  obtain ⟨hne, hge⟩ := (relax_exact hfits).edge i h
  have hle := (edgeCost_le_weight hfits hne).1
  omega

end Fit

end Relaxation

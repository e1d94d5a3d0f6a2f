import Mathlib.Algebra.BigOperators.Fin
import Mathlib.Algebra.Order.BigOperators.Group.Finset

/-! Directed hypergraphs: a node is proved by a root, or by an edge all of whose inputs are. -/
namespace Hypergraph

open List

variable {α β : Type*}

structure Edge (α : Type*) where
  result : α
  inputs : List α

def Edge.map (f : α → β) (e : Edge α) : Edge β := ⟨f e.result, e.inputs.map f⟩

variable {e : Edge α}

section Trees

variable (roots : Set α) (edges : Set (Edge α))

/-- The least set with the roots that every edge keeps. -/
inductive Grounded : α → Prop
  | root {a : α} : a ∈ roots → Grounded a
  | step {e : Edge α} : e ∈ edges → (∀ b ∈ e.inputs, Grounded b) → Grounded e.result

/-- A node has a proof tree with this many tree edges. -/
inductive Tree : α → ℕ → Prop
  | root {a : α} : a ∈ roots → Tree a 0
  | step {e : Edge α} (sizes : Fin e.inputs.length → ℕ) : e ∈ edges →
      (∀ j, Tree (e.inputs.get j) (sizes j)) → Tree e.result (e.inputs.length + ∑ j, sizes j)

/-- A proof tree in which no path meets a derived node twice, with the derived nodes in it. -/
inductive SimpleTree : α → ℕ → Set α → Prop
  | root {a : α} : a ∈ roots → SimpleTree a 0 ∅
  | step {e : Edge α} (sizes : Fin e.inputs.length → ℕ) (nodes : Fin e.inputs.length → Set α) :
      e ∈ edges → (∀ j, SimpleTree (e.inputs.get j) (sizes j) (nodes j)) →
        (∀ j, e.result ∉ nodes j) →
          SimpleTree e.result (e.inputs.length + ∑ j, sizes j) (insert e.result (⋃ j, nodes j))

/-- Whatever simple trees the inputs of an edge have, they stay together below a bound. -/
def Fits (bound : ℕ) : Prop :=
  ∀ e ∈ edges, ∀ (sizes : Fin e.inputs.length → ℕ) (nodes : Fin e.inputs.length → Set α),
    (∀ j, SimpleTree roots edges (e.inputs.get j) (sizes j) (nodes j)) →
      e.inputs.length + ∑ j, sizes j < bound

variable {roots edges}

variable {a : α} {n : ℕ} {names nodes : Set α} {edges' : Set (Edge β)} {f : α → β} {roots' : Set β}

theorem Tree.grounded (h : Tree roots edges a n) : Grounded roots edges a := by
  induction h with
  | root ha => exact .root ha
  | step sizes he _ ih =>
    refine .step he fun b hb => ?_
    obtain ⟨j, rfl⟩ := get_of_mem hb
    exact ih j

theorem Grounded.exists_tree (h : Grounded roots edges a) : ∃ n, Tree roots edges a n := by
  induction h with
  | root ha => exact ⟨0, .root ha⟩
  | @step e he _ ih =>
    choose sizes hsizes using fun j => ih (e.inputs.get j) (get_mem _ _)
    exact ⟨_, .step sizes he hsizes⟩

theorem SimpleTree.tree (h : SimpleTree roots edges a n nodes) : Tree roots edges a n := by
  induction h with
  | root ha => exact .root ha
  | step sizes nodes he _ _ ih => exact .step sizes he ih

/-- Simple trees do not depend on the names of the nodes. -/
theorem SimpleTree.map (hinj : names.InjOn f) (hroots : ∀ a ∈ roots, f a ∈ roots')
    (hedges : ∀ e ∈ edges, e.map f ∈ edges' ∧ e.result ∈ names) {k : ℕ}
    (h : SimpleTree roots edges a k nodes) :
    nodes ⊆ names ∧ SimpleTree roots' edges' (f a) k (f '' nodes) := by
  induction h with
  | root ha => exact ⟨Set.empty_subset _, Set.image_empty f ▸ .root (hroots _ ha)⟩
  | @step e sizes nodes he _ hnot ih =>
    obtain ⟨he', hresult⟩ := hedges e he
    have hlen : (e.map f).inputs.length = e.inputs.length := length_map f
    have hget : ∀ j, (e.map f).inputs.get j = f (e.inputs.get (j.cast hlen)) := fun j =>
      getElem_map f
    have hsub : (⋃ j, nodes j) ⊆ names := Set.iUnion_subset fun j => (ih j).1
    refine ⟨Set.insert_subset hresult hsub, ?_⟩
    have htree := SimpleTree.step (fun j => sizes (j.cast hlen))
      (fun j => f '' nodes (j.cast hlen)) he' (fun j => hget j ▸ (ih (j.cast hlen)).2)
      fun j hmem => by
        obtain ⟨b, hb, hfb⟩ := hmem
        exact hnot _ (hinj ((ih _).1 hb) hresult hfb ▸ hb)
    have hsum : ∑ j, sizes (Fin.cast hlen j) = ∑ j, sizes j :=
      Fintype.sum_equiv (finCongr hlen) _ _ fun _ => rfl
    have hunion : ⋃ j, f '' nodes (Fin.cast hlen j) = f '' ⋃ j, nodes j := by
      rw [Set.image_iUnion]
      exact (finCongr hlen).surjective.iUnion_comp fun j => f '' nodes j
    rw [hsum, hunion, hlen] at htree
    rw [Set.image_insert_eq]
    exact htree

theorem Fits.of_map {bound : ℕ} (h : Fits roots' edges' bound) (hinj : names.InjOn f)
    (hroots : ∀ a ∈ roots, f a ∈ roots') (hedges : ∀ e ∈ edges, e.map f ∈ edges' ∧ e.result ∈ names) :
    Fits roots edges bound := by
  intro e he sizes nodes htrees
  have hlen : (e.map f).inputs.length = e.inputs.length := length_map f
  have hlt := h (e.map f) (hedges e he).1 (fun j => sizes (j.cast hlen))
    (fun j => f '' nodes (j.cast hlen)) fun j => by
      have hget : (e.map f).inputs.get j = f (e.inputs.get (j.cast hlen)) := getElem_map f
      exact hget ▸ ((htrees (j.cast hlen)).map hinj hroots hedges).2
  have hsum : ∑ j, sizes (Fin.cast hlen j) = ∑ j, sizes j :=
    Fintype.sum_equiv (finCongr hlen) _ _ fun _ => rfl
  rwa [hsum, hlen] at hlt

theorem Tree.inv (h : Tree roots edges a n) :
    (a ∈ roots ∧ n = 0) ∨ ∃ e ∈ edges, e.result = a ∧ ∃ sizes : Fin e.inputs.length → ℕ,
      (∀ j, Tree roots edges (e.inputs.get j) (sizes j)) ∧
        n = e.inputs.length + ∑ j, sizes j := by
  cases h with
  | root ha => exact .inl ⟨ha, rfl⟩
  | step sizes he htrees => exact .inr ⟨_, he, rfl, sizes, htrees, rfl⟩

/-- An input's share of an edge's tree. -/
theorem lt_of_input (sizes : Fin e.inputs.length → ℕ) (j : Fin e.inputs.length) :
    sizes j < e.inputs.length + ∑ j, sizes j := by
  have hle : sizes j ≤ ∑ j, sizes j :=
    Finset.single_le_sum (fun _ _ => Nat.zero_le _) (Finset.mem_univ j)
  have hpos : 0 < e.inputs.length := j.pos
  omega

end Trees

/-- What an edge's inputs weigh under a valuation, one for each input included. -/
def weight (value : α → ℕ) (e : Edge α) : ℕ := e.inputs.length + (e.inputs.map value).sum

theorem weight_eq_sum (value : α → ℕ) (e : Edge α) :
    weight value e = e.inputs.length + ∑ j, value (e.inputs.get j) := by
  have hsum : ∀ l : List α, (l.map value).sum = ∑ j, value (l.get j) := by
    intro l
    congr 1
    exact ext_get (by simp) fun i h h' => by simp
  rw [weight, hsum]

theorem weight_mono {value value' : α → ℕ} (h : ∀ b ∈ e.inputs, value b ≤ value' b) :
    weight value e ≤ weight value' e := by
  rw [weight, weight]
  have hsum := sum_le_sum h
  omega

theorem value_lt_weight (value : α → ℕ) {b : α} (hb : b ∈ e.inputs) : value b < weight value e := by
  obtain ⟨j, rfl⟩ := get_of_mem hb
  rw [weight_eq_sum]
  exact lt_of_input (fun j => value (e.inputs.get j)) j

end Hypergraph

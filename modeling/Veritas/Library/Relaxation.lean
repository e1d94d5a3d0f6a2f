import Veritas.Library.Hypergraph

/-! A worklist that lowers 64-bit proof costs over a hypergraph until no edge can lower more. -/
namespace Relaxation

open Hypergraph Function List

variable {α : Type*} {n : ℕ}

/-- The largest cost stands for no proof. -/
def unproven : UInt64 := 18446744073709551615

/-- One for each input and its cost; nothing once an input has no proof. -/
def total (cost : α → UInt64) (inputs : List α) : Option UInt64 :=
  inputs.foldlM (fun sum b => if cost b = unproven then none else some (sum + 1 + cost b)) 0

theorem foldlM_total (cost : α → UInt64) (inputs : List α) (sum t : UInt64) :
    inputs.foldlM (fun sum b => if cost b = unproven then none else some (sum + 1 + cost b)) sum =
        some t ↔
      (∀ b ∈ inputs, cost b ≠ unproven) ∧
        t = sum + UInt64.ofNat (inputs.length + (inputs.map fun b => (cost b).toNat).sum) := by
  induction inputs generalizing sum with
  | nil => simp [eq_comm]
  | cons b bs ih =>
    rw [foldlM_cons]
    by_cases hb : cost b = unproven
    · simp [hb]
    · rw [if_neg hb, Option.bind_eq_bind, Option.bind_some, ih]
      have hsum : sum + 1 + cost b +
          UInt64.ofNat (bs.length + (bs.map fun b => (cost b).toNat).sum) =
          sum + UInt64.ofNat ((b :: bs).length + ((b :: bs).map fun b => (cost b).toNat).sum) := by
        rw [← UInt64.toNat_inj]
        simp only [UInt64.toNat_add, UInt64.toNat_ofNat', length_cons, map_cons, sum_cons]
        simp only [Nat.add_mod_mod, Nat.mod_add_mod]
        congr 1
        simp only [UInt64.toNat_one]
        omega
      rw [hsum]
      simp [hb]

variable {cost : α → UInt64} {t : UInt64}

/-- The total is the edge's weight, wrapped to 64 bits. -/
theorem total_eq_some {e : Edge α} :
    total cost e.inputs = some t ↔ (∀ b ∈ e.inputs, cost b ≠ unproven) ∧
      t = UInt64.ofNat (weight (fun b => (cost b).toNat) e) := by
  rw [total, foldlM_total, UInt64.zero_add, weight]

/-- Costs of nodes and edges, and the edges still to be visited. -/
structure Work (α : Type*) (n : ℕ) where
  cost : α → UInt64
  edgeCost : Fin n → UInt64
  queued : Fin n → Bool
  pending : List (Fin n)
  nodup : pending.Nodup
  queued_iff : ∀ i, queued i = true ↔ i ∈ pending

variable {i : Fin n} {rest : List (Fin n)}

namespace Work

def enqueue (w : Work α n) (i : Fin n) : Work α n :=
  if h : w.queued i = true then w
  else
    { w with
      queued := update w.queued i true
      pending := w.pending ++ [i]
      nodup := by
        refine nodup_append.mpr ⟨w.nodup, nodup_singleton i, ?_⟩
        rintro j hj _ hk rfl
        obtain rfl := mem_singleton.mp hk
        exact h ((w.queued_iff _).mpr hj)
      queued_iff := by
        intro j
        rcases eq_or_ne j i with rfl | hne
        · simp
        · simp [w.queued_iff, hne] }

/-- Take the head off the worklist; its flag is cleared, so it can be queued again. -/
def dequeue (w : Work α n) {i : Fin n} {rest : List (Fin n)} (h : w.pending = i :: rest) :
    Work α n :=
  { w with
    queued := update w.queued i false
    pending := rest
    nodup := (List.nodup_cons.mp (h ▸ w.nodup)).2
    queued_iff := by
      have hnot := (nodup_cons.mp (h ▸ w.nodup)).1
      intro j
      rcases eq_or_ne j i with rfl | hne
      · simpa using hnot
      · simp [w.queued_iff, h, hne] }

@[simp] theorem enqueue_cost (w : Work α n) (i : Fin n) : (w.enqueue i).cost = w.cost := by
  unfold enqueue
  split <;> rfl

@[simp] theorem enqueue_edgeCost (w : Work α n) (i : Fin n) :
    (w.enqueue i).edgeCost = w.edgeCost := by
  unfold enqueue
  split <;> rfl

theorem mem_enqueue {w : Work α n} {j : Fin n} :
    j ∈ (w.enqueue i).pending ↔ j ∈ w.pending ∨ j = i := by
  unfold enqueue
  split
  · rename_i h
    have hi := (w.queued_iff i).mp h
    constructor
    · exact .inl
    · rintro (h | rfl)
      · exact h
      · exact hi
  · simp

theorem foldl_enqueue (w : Work α n) (l : List (Fin n)) :
    (l.foldl enqueue w).cost = w.cost ∧ (l.foldl enqueue w).edgeCost = w.edgeCost ∧
      ∀ j, j ∈ (l.foldl enqueue w).pending ↔ j ∈ w.pending ∨ j ∈ l := by
  induction l generalizing w with
  | nil => simp
  | cons i l ih =>
    obtain ⟨hc, he, hp⟩ := ih (w.enqueue i)
    refine ⟨by simpa using hc, by simpa using he, fun j => ?_⟩
    rw [foldl_cons, hp, mem_enqueue, mem_cons, or_assoc]

/-- Roots cost nothing, nothing else is proved, and every edge is to be visited. -/
def init (root : α → Bool) (n : ℕ) : Work α n :=
  (List.finRange n).foldl enqueue
    { cost := fun a => if root a then 0 else unproven
      edgeCost := fun _ => unproven
      queued := fun _ => false
      pending := []
      nodup := List.nodup_nil
      queued_iff := by simp }

theorem init_cost (root : α → Bool) (n : ℕ) :
    (init root n).cost = fun a => if root a then 0 else unproven :=
  (foldl_enqueue _ _).1

theorem init_edgeCost (root : α → Bool) (n : ℕ) : (init root n).edgeCost = fun _ => unproven :=
  (foldl_enqueue _ _).2.1

theorem mem_init_pending (root : α → Bool) (i : Fin n) : i ∈ (init root n).pending :=
  ((foldl_enqueue _ _).2.2 i).mpr (.inr (List.mem_finRange i))

/-- Falls with every visit: an edge cost is lowered, or the worklist is shortened. -/
def remaining (w : Work α n) : ℕ := (∑ i, (w.edgeCost i).toNat) * (n + 1) + w.pending.length

theorem length_pending_le (w : Work α n) : w.pending.length ≤ n := by
  simpa using w.nodup.length_le_card

theorem sum_update_lt {cost : Fin n → UInt64} (h : t < cost i) :
    ∑ j, (update cost i t j).toNat < ∑ j, (cost j).toNat := by
  refine Finset.sum_lt_sum (fun j _ => ?_) ⟨i, Finset.mem_univ i, ?_⟩
  · rcases eq_or_ne j i with rfl | hne
    · simpa using (UInt64.lt_iff_toNat_lt.mp h).le
    · simp [update_of_ne hne]
  · simpa using UInt64.lt_iff_toNat_lt.mp h

variable [DecidableEq α]

/-- The edges that read a node, once for each time they read it. -/
def consumers (edges : Fin n → Edge α) (a : α) : List (Fin n) :=
  (List.finRange n).flatMap fun i => ((edges i).inputs.filter (· = a)).map fun _ => i

def visit (edges : Fin n → Edge α) (w : Work α n) {i : Fin n} {rest : List (Fin n)}
    (h : w.pending = i :: rest) : Work α n :=
  let w := w.dequeue h
  match total w.cost (edges i).inputs with
  | none => w
  | some t =>
    if t ≥ w.edgeCost i then w
    else
      let w := { w with edgeCost := update w.edgeCost i t }
      if t ≥ w.cost (edges i).result then w
      else
        let w := { w with cost := update w.cost (edges i).result t }
        (consumers edges (edges i).result).foldl enqueue w

variable {edges : Fin n → Edge α}

theorem mem_consumers {a : α} :
    i ∈ consumers edges a ↔ a ∈ (edges i).inputs := by
  simp only [consumers, mem_flatMap, mem_finRange, mem_map, mem_filter, decide_eq_true_eq, true_and]
  constructor
  · rintro ⟨j, ⟨b, ⟨hb, rfl⟩, rfl⟩⟩
    exact hb
  · intro h
    exact ⟨i, a, ⟨h, rfl⟩, rfl⟩

/-- What one visit does to the costs and to the worklist. -/
inductive Visited (edges : Fin n → Edge α) (w : Work α n) (i : Fin n) (rest : List (Fin n))
    (w' : Work α n) : Prop
  | skip : (∀ t, total w.cost (edges i).inputs = some t → w.edgeCost i ≤ t) →
      w'.cost = w.cost → w'.edgeCost = w.edgeCost → w'.pending = rest → Visited edges w i rest w'
  | lower (t : UInt64) : total w.cost (edges i).inputs = some t → t < w.edgeCost i →
      w.cost (edges i).result ≤ t → w'.cost = w.cost →
        w'.edgeCost = update w.edgeCost i t → w'.pending = rest → Visited edges w i rest w'
  | improve (t : UInt64) : total w.cost (edges i).inputs = some t → t < w.edgeCost i →
      t < w.cost (edges i).result → w'.cost = update w.cost (edges i).result t →
        w'.edgeCost = update w.edgeCost i t →
          (∀ j, j ∈ w'.pending ↔ j ∈ rest ∨ (edges i).result ∈ (edges j).inputs) →
            Visited edges w i rest w'

theorem visited (edges : Fin n → Edge α) (w : Work α n) (h : w.pending = i :: rest) :
    Visited edges w i rest (w.visit edges h) := by
  unfold visit
  dsimp only [dequeue]
  split
  · rename_i hnone
    exact .skip (by simp [hnone]) rfl rfl rfl
  · rename_i t ht
    split_ifs with hge hge'
    · refine .skip (fun t' ht' => ?_) rfl rfl rfl
      rw [ht] at ht'
      obtain rfl := Option.some.inj ht'
      exact hge
    · exact .lower t ht (UInt64.not_le.mp hge) hge' rfl rfl rfl
    · obtain ⟨hc, he, hp⟩ := foldl_enqueue
        ({ w.dequeue h with
            edgeCost := update w.edgeCost i t
            cost := update w.cost (edges i).result t } : Work α n)
        (consumers edges (edges i).result)
      exact .improve t ht (UInt64.not_le.mp hge) (UInt64.not_le.mp hge') hc he fun j =>
        (hp j).trans (or_congr_right mem_consumers)

theorem remaining_visit (edges : Fin n → Edge α) (w : Work α n) (h : w.pending = i :: rest) :
    (w.visit edges h).remaining < w.remaining := by
  have hlen : w.pending.length = rest.length + 1 := by rw [h, length_cons]
  have hlower : ∀ t, t < w.edgeCost i →
      (w.visit edges h).edgeCost = update w.edgeCost i t →
        (w.visit edges h).remaining < w.remaining := by
    intro t ht he
    have hsum := sum_update_lt ht
    have hle := length_pending_le (w.visit edges h)
    have hmul := Nat.mul_le_mul_right (n + 1) (Nat.succ_le_of_lt hsum)
    rw [Nat.succ_mul] at hmul
    rw [remaining, remaining, he]
    omega
  cases visited edges w h with
  | skip _ _ he hp =>
    rw [remaining, remaining, he, hp]
    omega
  | lower t _ ht _ _ he _ => exact hlower t ht he
  | improve t _ ht _ _ he _ => exact hlower t ht he

def run (edges : Fin n → Edge α) (w : Work α n) : Work α n :=
  match h : w.pending with
  | [] => w
  | _ :: _ => run edges (w.visit edges h)
termination_by w.remaining
decreasing_by exact remaining_visit edges w h

theorem run_of_nil {w : Work α n} (h : w.pending = []) : w.run edges = w := by
  rw [run]
  split
  · rfl
  · simp_all

theorem run_of_cons {w : Work α n} (h : w.pending = i :: rest) :
    w.run edges = (w.visit edges h).run edges := by
  rw [run]
  split
  · simp_all
  · rename_i hcons
    obtain ⟨rfl, rfl⟩ := cons.inj (hcons.symm.trans h)
    rfl

/-- The states a run goes through. -/
inductive Reached (edges : Fin n → Edge α) (start : Work α n) : Work α n → Prop
  | start : Reached edges start start
  | visit {w : Work α n} {i : Fin n} {rest : List (Fin n)} (h : w.pending = i :: rest) :
      Reached edges start w → Reached edges start (w.visit edges h)

theorem run_reached (edges : Fin n → Edge α) {start w : Work α n} (hw : Reached edges start w) :
    Reached edges start (w.run edges) ∧ (w.run edges).pending = [] := by
  induction hm : w.remaining using Nat.strong_induction_on generalizing w with
  | _ m ih =>
    cases h : w.pending with
    | nil =>
      rw [run_of_nil h]
      exact ⟨hw, h⟩
    | cons i rest =>
      rw [run_of_cons h]
      exact ih _ (hm ▸ remaining_visit edges w h) (.visit h hw) rfl

variable {P : Work α n → Prop}

theorem Reached.invariant {start w : Work α n}
    (hstep : ∀ w w' i rest, w.pending = i :: rest → Visited edges w i rest w' → P w → P w')
    (h : Reached edges start w) (hstart : P start) : P w := by
  induction h with
  | start => exact hstart
  | visit hp _ ih => exact hstep _ _ _ _ hp (visited edges _ hp) ih

/-- What every visit keeps holds when the worklist is empty. -/
theorem run_invariant
    (hstep : ∀ w w' i rest, w.pending = i :: rest → Visited edges w i rest w' → P w → P w')
    (w : Work α n) (hw : P w) : P (w.run edges) ∧ (w.run edges).pending = [] := by
  obtain ⟨hreached, hdone⟩ := run_reached edges (.start : Reached edges w w)
  exact ⟨hreached.invariant hstep hw, hdone⟩

end Work

def relax [DecidableEq α] (root : α → Bool) (edges : Fin n → Edge α) : Work α n := (Work.init root n).run edges

/-- The costs of the edges of a list, in its order, and of the nodes. -/
def relaxList [DecidableEq α] (root : α → Bool) (edges : List (Edge α)) :
    List UInt64 × (α → UInt64) :=
  let w := relax root fun i : Fin edges.length => edges.get i
  (List.ofFn w.edgeCost, w.cost)

theorem length_relaxList [DecidableEq α] (root : α → Bool) (edges : List (Edge α)) :
    (relaxList root edges).1.length = edges.length := by
  simp [relaxList]

theorem relaxList_ofFn [DecidableEq α] (root : α → Bool) (edges : Fin n → Edge α) :
    relaxList root (List.ofFn edges) =
      (List.ofFn (relax root edges).edgeCost, (relax root edges).cost) := by
  have hcast : ∀ (m : ℕ) (hm : m = n) (edges' : Fin m → Edge α),
      edges' = (fun i => edges (i.cast hm)) →
        (List.ofFn (relax root edges').edgeCost, (relax root edges').cost) =
          (List.ofFn (relax root edges).edgeCost, (relax root edges).cost) := by
    rintro m rfl edges' rfl
    rfl
  exact hcast _ length_ofFn _ (funext fun i => get_ofFn edges i)

/-! Renaming nodes renames costs: the worklist goes through the same edges in the same order. -/

section Rename

variable {β : Type*} [DecidableEq α] [DecidableEq β] {f : α → β} {nodes : Set α}
  {edges : Fin n → Edge α}

/-- Two states of the search over names that correspond. -/
structure Renames (f : α → β) (nodes : Set α) (w : Work α n) (w' : Work β n) : Prop where
  cost : ∀ a ∈ nodes, w'.cost (f a) = w.cost a
  edgeCost : w'.edgeCost = w.edgeCost
  queued : w'.queued = w.queued
  pending : w'.pending = w.pending

omit [DecidableEq α] [DecidableEq β] in
theorem total_map {cost' : β → UInt64} {inputs : List α} (h : ∀ a ∈ inputs, cost' (f a) = cost a) :
    total cost' (inputs.map f) = total cost inputs := by
  unfold total
  generalize (0 : UInt64) = sum
  induction inputs generalizing sum with
  | nil => rfl
  | cons b bs ih =>
    rw [map_cons, foldlM_cons, foldlM_cons, h b mem_cons_self]
    refine congrArg _ (funext fun s => ?_)
    exact ih (fun a ha => h a (mem_cons_of_mem _ ha)) s

namespace Renames

variable {w : Work α n} {w' : Work β n}

omit [DecidableEq α] [DecidableEq β] in
theorem enqueue (h : Renames f nodes w w') (i : Fin n) :
    Renames f nodes (w.enqueue i) (w'.enqueue i) := by
  unfold Work.enqueue
  by_cases hi : w.queued i = true
  · have hi' : w'.queued i = true := by rw [h.queued, hi]
    rw [dif_pos hi, dif_pos hi']
    exact h
  · have hi' : ¬ w'.queued i = true := by rwa [h.queued]
    rw [dif_neg hi, dif_neg hi']
    refine ⟨h.cost, h.edgeCost, ?_, ?_⟩
    · change update w'.queued i true = update w.queued i true
      rw [h.queued]
    · change w'.pending ++ [i] = w.pending ++ [i]
      rw [h.pending]

omit [DecidableEq α] [DecidableEq β] in
theorem foldl_enqueue (h : Renames f nodes w w') (l : List (Fin n)) :
    Renames f nodes (l.foldl Work.enqueue w) (l.foldl Work.enqueue w') := by
  induction l generalizing w w' with
  | nil => exact h
  | cons i l ih => exact ih (h.enqueue i)

variable (hinj : Set.InjOn f nodes)
  (hnodes : ∀ i, (edges i).result ∈ nodes ∧ ∀ b ∈ (edges i).inputs, b ∈ nodes)

include hinj hnodes

theorem consumers_map {a : α} (ha : a ∈ nodes) :
    Work.consumers (fun i => (edges i).map f) (f a) = Work.consumers edges a := by
  unfold Work.consumers
  congr 1
  funext i
  have hfilter : ((edges i).inputs.map f).filter (· = f a) =
      ((edges i).inputs.filter (· = a)).map f := by
    rw [filter_map]
    congr 1
    refine filter_congr fun b hb => ?_
    have hiff : f b = f a ↔ b = a := hinj.eq_iff ((hnodes i).2 b hb) ha
    simp [hiff]
  change (((edges i).inputs.map f).filter (· = f a)).map (fun _ => i) = _
  rw [hfilter, map_map]
  rfl

theorem visit (h : Renames f nodes w w') (hp : w.pending = i :: rest) (hp' : w'.pending = i :: rest) :
    Renames f nodes (w.visit edges hp) (w'.visit (fun i => (edges i).map f) hp') := by
  have htotal : total w'.cost ((edges i).map f).inputs = total w.cost (edges i).inputs :=
    total_map fun a ha => h.cost a ((hnodes i).2 a ha)
  have hresult : w'.cost ((edges i).map f).result = w.cost (edges i).result :=
    h.cost _ (hnodes i).1
  unfold Work.visit
  dsimp only [Work.dequeue]
  rw [htotal]
  have hqueued : update w'.queued i false = update w.queued i false := by
    rw [h.queued]
  cases total w.cost (edges i).inputs with
  | none => exact ⟨h.cost, h.edgeCost, hqueued, rfl⟩
  | some t =>
    have hedge : update w'.edgeCost i t = update w.edgeCost i t := by
      rw [h.edgeCost]
    dsimp only
    rw [h.edgeCost, hresult]
    split_ifs with hge hge'
    · exact ⟨h.cost, rfl, hqueued, rfl⟩
    · exact ⟨h.cost, rfl, hqueued, rfl⟩
    · have hcons : Work.consumers (fun i => (edges i).map f) ((edges i).map f).result =
          Work.consumers edges (edges i).result := consumers_map hinj hnodes (hnodes i).1
      rw [hcons]
      apply foldl_enqueue
      refine ⟨?_, rfl, hqueued, rfl⟩
      intro a ha
      by_cases heq : a = (edges i).result
      · subst heq
        simp [Edge.map]
      · have hne : f a ≠ f (edges i).result := fun hf => heq (hinj ha (hnodes i).1 hf)
        simp only [Edge.map, update_of_ne heq, update_of_ne hne]
        exact h.cost a ha

theorem run (h : Renames f nodes w w') :
    Renames f nodes (w.run edges) (w'.run fun i => (edges i).map f) := by
  induction hm : w.remaining using Nat.strong_induction_on generalizing w w' with
  | _ m ih =>
    cases hp : w.pending with
    | nil =>
      rwa [Work.run_of_nil hp, Work.run_of_nil (h.pending.trans hp)]
    | cons i rest =>
      have hp' : w'.pending = i :: rest := h.pending.trans hp
      rw [Work.run_of_cons hp, Work.run_of_cons hp']
      exact ih _ (hm ▸ Work.remaining_visit edges w hp) (h.visit hinj hnodes hp hp') rfl

end Renames

variable {root : α → Bool} {root' : β → Bool}

/-- Costs do not depend on the names of the nodes. -/
theorem relax_map (hinj : Set.InjOn f nodes)
    (hnodes : ∀ i, (edges i).result ∈ nodes ∧ ∀ b ∈ (edges i).inputs, b ∈ nodes)
    (hroot : ∀ a ∈ nodes, root' (f a) = root a) :
    Renames f nodes (relax root edges) (relax root' fun i => (edges i).map f) := by
  have hinit : Renames f nodes (Work.init root n) (Work.init root' n) := by
    apply Renames.foldl_enqueue
    refine ⟨?_, rfl, rfl, rfl⟩
    intro a ha
    simp only [hroot a ha]
  exact hinit.run hinj hnodes

theorem relaxList_map {l : List (Edge α)} (hinj : Set.InjOn f nodes)
    (hnodes : ∀ e ∈ l, e.result ∈ nodes ∧ ∀ b ∈ e.inputs, b ∈ nodes)
    (hroot : ∀ a ∈ nodes, root' (f a) = root a) :
    (relaxList root' (l.map (Edge.map f))).1 = (relaxList root l).1 ∧
      ∀ a ∈ nodes, (relaxList root' (l.map (Edge.map f))).2 (f a) = (relaxList root l).2 a := by
  have hmap : l.map (Edge.map f) = List.ofFn fun i : Fin l.length => (l.get i).map f := by
    conv_lhs => rw [← ofFn_get l, map_ofFn]
    rfl
  have hrenames : Renames f nodes (relax root l.get) (relax root' fun i => (l.get i).map f) :=
    relax_map hinj (fun i => hnodes _ (get_mem l i)) hroot
  rw [hmap, relaxList_ofFn]
  exact ⟨congrArg List.ofFn hrenames.edgeCost, hrenames.cost⟩

end Rename

end Relaxation

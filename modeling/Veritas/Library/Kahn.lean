import Mathlib.Data.Fintype.Order

/-! Topological processing by counted inputs, over edge lists that may repeat an edge. -/
namespace Kahn

open List hiding beq_eq_decide

variable {α : Type*} [DecidableEq α]

/-- Open input counts, the vertices waiting to be processed, and the processed ones in order. -/
structure State (α : Type*) where
  count : α → ℕ
  ready : List α
  done : List α

/-- The edges into a vertex whose source is not processed, repetitions counted. -/
def pending (edges : List (α × α)) (done : List α) (v : α) : ℕ :=
  edges.countP fun e => e.2 = v ∧ e.1 ∉ done

/-- The targets of the edges out of a vertex. -/
def targets (edges : List (α × α)) (u : α) : List α :=
  (edges.filter (·.1 = u)).map Prod.snd

/-- Counts one input down for each target; the vertices that reach zero, in order. -/
def release (count : α → ℕ) (vs : List α) : (α → ℕ) × List α :=
  vs.foldl (fun acc v =>
    (Function.update acc.1 v (acc.1 v - 1),
      if acc.1 v - 1 = 0 then acc.2 ++ [v] else acc.2)) (count, [])

def start (nodes : List α) (edges : List (α × α)) : State α :=
  ⟨pending edges [], nodes.filter (pending edges [] · = 0), []⟩

/-- Any ready vertex may be processed next, and the ready ones may be kept in any order. -/
inductive Step (edges : List (α × α)) (s : State α) : State α → Prop
  | process {u : α} {rest ready : List α} (hpick : s.ready.Perm (u :: rest))
      (hready : ready.Perm (rest ++ (release s.count (targets edges u)).2)) :
      Step edges s ⟨(release s.count (targets edges u)).1, ready, s.done ++ [u]⟩

def Acyclic (edges : List (α × α)) : Prop :=
  ∀ v, ¬ Relation.TransGen (fun u v => (u, v) ∈ edges) v v

/-- A cycle is carried over by a matching of vertices that every edge respects. -/
theorem exists_cycle_of_step {β γ : Type*} {r : β → β → Prop} {s : γ → γ → Prop}
    {M : β → γ → Prop} {a : β} (h : Relation.TransGen r a a)
    (hstep : ∀ a b, r a b → ∃ i j, M b i ∧ M a j ∧ s i j)
    (hunique : ∀ {a i j}, M a i → M a j → i = j) : ∃ i, Relation.TransGen s i i := by
  have hpath : ∀ {b}, Relation.TransGen r a b → ∃ i j, M b i ∧ M a j ∧ Relation.TransGen s i j := by
    intro b h
    induction h with
    | single hd =>
      obtain ⟨i, j, hi, hj, he⟩ := hstep _ _ hd
      exact ⟨i, j, hi, hj, .single he⟩
    | tail _ hd ih =>
      obtain ⟨i, j, hi, hj, hpath⟩ := ih
      obtain ⟨k, l, hk, hl, he⟩ := hstep _ _ hd
      rw [hunique hl hi] at he
      exact ⟨k, j, hk, hj, .head he hpath⟩
  obtain ⟨i, j, hi, hj, hloop⟩ := hpath h
  exact ⟨i, hunique hj hi ▸ hloop⟩

structure Invariant (nodes : List α) (edges : List (α × α)) (s : State α) : Prop where
  nodup : (s.done ++ s.ready).Nodup
  inside : ∀ v ∈ s.done ++ s.ready, v ∈ nodes
  count : ∀ v, s.count v = pending edges s.done v
  seen : ∀ v ∈ nodes, v ∈ s.done ++ s.ready ↔ s.count v = 0
  ordered : ∀ pre v post, s.done = pre ++ v :: post → ∀ u, (u, v) ∈ edges → u ∈ pre

theorem release_spec {count : α → ℕ} {vs : List α} (h : ∀ v, vs.count v ≤ count v) :
    (∀ v, (release count vs).1 v = count v - vs.count v) ∧ (release count vs).2.Nodup ∧
      ∀ v, v ∈ (release count vs).2 ↔ v ∈ vs ∧ count v = vs.count v := by
  induction vs using List.reverseRecOn with
  | nil => simp [release]
  | append_singleton vs v ih =>
    have hsplit : ∀ w, (vs ++ [v]).count w = vs.count w + if v = w then 1 else 0 := by
      intro w
      rw [count_append, count_singleton]
      simp
    have hprev : ∀ w, vs.count w ≤ count w := by
      intro w
      have := h w
      rw [hsplit] at this
      omega
    obtain ⟨hcount, hnodup, hmem⟩ := ih hprev
    have hrelease : release count (vs ++ [v]) =
        (Function.update (release count vs).1 v ((release count vs).1 v - 1),
          if (release count vs).1 v - 1 = 0 then (release count vs).2 ++ [v]
          else (release count vs).2) := by
      rw [release, foldl_concat]
      rfl
    have hv := h v
    rw [hsplit, if_pos rfl] at hv
    -- the vertex still had an open input, so it was not released before
    have hfresh : v ∉ (release count vs).2 := by
      intro hbad
      have := ((hmem v).mp hbad).2
      omega
    rw [hrelease]
    refine ⟨?_, ?_, ?_⟩
    · intro w
      dsimp only
      by_cases hw : w = v
      · subst hw
        rw [Function.update_self, hcount, hsplit, if_pos rfl]
        omega
      · rw [Function.update_of_ne hw, hcount, hsplit, if_neg (Ne.symm hw), Nat.add_zero]
    · split_ifs with hzero
      · exact hnodup.append (nodup_singleton v) (disjoint_singleton.mpr hfresh)
      · exact hnodup
    · intro w
      have hlast : w ∈ (release count (vs ++ [v])).2 ↔
          w ∈ (release count vs).2 ∨ w = v ∧ count v = vs.count v + 1 := by
        rw [hrelease, hcount]
        split_ifs with hzero
        · simp [show count v = vs.count v + 1 by omega]
        · simp [show count v ≠ vs.count v + 1 by omega]
      rw [← hrelease, hlast, hmem, hsplit, mem_append, mem_singleton]
      by_cases hw : w = v
      · subst hw
        simp only [if_pos, or_true, true_and]
        omega
      · simp [hw, Ne.symm hw]

theorem count_targets (edges : List (α × α)) (u v : α) :
    (targets edges u).count v = edges.countP fun e => e.2 = v ∧ e.1 = u := by
  rw [targets, List.count, countP_map, countP_filter]
  congr 1
  funext e
  simp [Function.comp_apply, beq_eq_decide]

variable {done nodes : List α} {edges : List (α × α)} {s : State α}

theorem pending_append {u : α} (hu : u ∉ done) (v : α) :
    pending edges done v = (targets edges u).count v + pending edges (done ++ [u]) v := by
  rw [count_targets]
  induction edges with
  | nil => rfl
  | cons e edges ih =>
    simp only [pending, countP_cons] at ih ⊢
    rw [ih]
    by_cases hv : e.2 = v
    · by_cases he : e.1 = u
      · simp [hv, he, hu]
        omega
      · by_cases hd : e.1 ∈ done
        · simp [hv, he, hd]
        · simp [hv, he, hd]
          omega
    · simp [hv]

theorem pending_eq_zero {v : α} : pending edges done v = 0 ↔ ∀ u, (u, v) ∈ edges → u ∈ done := by
  rw [pending, countP_eq_zero]
  constructor
  · intro h u hu
    by_contra hd
    exact h (u, v) hu (by simp [hd])
  · rintro h ⟨u, w⟩ he hbad
    obtain ⟨rfl, hd⟩ : w = v ∧ u ∉ done := by simpa using hbad
    exact hd (h u he)

theorem invariant_start (hnodes : nodes.Nodup) : Invariant nodes edges (start nodes edges) where
  nodup := hnodes.filter _
  inside := by
    intro v hv
    exact (mem_filter.mp hv).1
  count := fun _ => rfl
  seen := by
    intro v hv
    simp [start, hv]
  ordered := by
    intro pre v post h
    simp [start] at h

theorem invariant_step {t : State α} (hclosed : ∀ e ∈ edges, e.2 ∈ nodes)
    (h : Invariant nodes edges s) (hs : Step edges s t) : Invariant nodes edges t := by
  cases hs with
  | @process u rest ready hpick hready =>
  have hall : (s.done ++ s.ready).Perm (s.done ++ (u :: rest)) := hpick.append_left _
  have hnodup : (s.done ++ (u :: rest)).Nodup := hall.nodup_iff.mp h.nodup
  have hu : u ∉ s.done := by
    intro hbad
    exact (nodup_append.mp hnodup).2.2 u hbad u mem_cons_self rfl
  have hle : ∀ v, (targets edges u).count v ≤ s.count v := by
    intro v
    rw [h.count, pending_append hu]
    omega
  obtain ⟨hcount, hfreed, hmem⟩ := release_spec hle
  have hpending : ∀ v, (release s.count (targets edges u)).1 v =
      pending edges (s.done ++ [u]) v := by
    intro v
    rw [hcount, h.count, pending_append hu]
    omega
  -- a freed vertex had its last open inputs at the processed vertex
  have hnew : ∀ v, v ∈ (release s.count (targets edges u)).2 ↔
      v ∈ targets edges u ∧ pending edges (s.done ++ [u]) v = 0 := by
    intro v
    rw [hmem, ← hpending, hcount]
    have := hle v
    exact and_congr_right fun _ => by omega
  have hfresh : ∀ v ∈ (release s.count (targets edges u)).2, v ∉ s.done ++ s.ready := by
    intro v hv hbad
    have hzero := (h.seen v (h.inside v hbad)).mp hbad
    have hpos := count_pos_iff.mpr ((hnew v).mp hv).1
    have := hle v
    omega
  have htarget : ∀ v ∈ targets edges u, v ∈ nodes := by
    intro v hv
    obtain ⟨e, he, rfl⟩ := mem_map.mp hv
    exact hclosed e (mem_filter.mp he).1
  have hperm : (s.done ++ [u] ++ ready).Perm
      ((s.done ++ s.ready) ++ (release s.count (targets edges u)).2) := by
    refine (hready.append_left _).trans ?_
    simpa using hall.symm.append_right (release s.count (targets edges u)).2
  refine ⟨?_, ?_, hpending, ?_, ?_⟩
  · exact hperm.nodup_iff.mpr (h.nodup.append hfreed fun v hold hv => hfresh v hv hold)
  · intro v hv
    rcases mem_append.mp (hperm.mem_iff.mp hv) with hv | hv
    · exact h.inside v hv
    · exact htarget v ((hnew v).mp hv).1
  · intro v hv
    dsimp only
    rw [hperm.mem_iff, mem_append, h.seen v hv, h.count, hnew, hpending, pending_append hu]
    by_cases hvt : v ∈ targets edges u
    · have hpos := count_pos_iff.mpr hvt
      simp only [hvt, true_and]
      omega
    · have hzero := count_eq_zero.mpr hvt
      simp only [hvt, false_and, or_false]
      omega
  · intro pre v post hsplit w hw
    rcases eq_nil_or_concat post with rfl | ⟨post, last, rfl⟩
    · -- the vertex just processed: nothing was open in front of it
      obtain ⟨hpre, hlast⟩ := append_inj' hsplit rfl
      obtain rfl := (cons.inj hlast).1
      have hzero := (h.seen u (h.inside u (hall.mem_iff.mpr (by simp)))).mp
        (hall.mem_iff.mpr (by simp))
      rw [h.count, pending_eq_zero] at hzero
      exact hpre ▸ hzero w hw
    · have hsplit : s.done ++ [u] = (pre ++ v :: post) ++ [last] := by simpa using hsplit
      exact h.ordered pre v post (append_inj' hsplit rfl).1 w hw

theorem Invariant.length_le (h : Invariant nodes edges s) :
    (s.done ++ s.ready).length ≤ nodes.length :=
  (h.nodup.subperm h.inside).length_le

theorem idxOf_lt {l pre post : List α} {u v : α} (hl : l.Nodup) (hsplit : l = pre ++ v :: post)
    (hu : u ∈ pre) : l.idxOf u < l.idxOf v := by
  subst hsplit
  have hv : v ∉ pre := by
    intro hbad
    exact (nodup_append.mp hl).2.2 v hbad v mem_cons_self rfl
  rw [idxOf_append_of_mem hu, idxOf_append_of_notMem hv, idxOf_cons_self]
  exact Nat.lt_add_right _ (idxOf_lt_length_of_mem hu)

/-- Once every vertex is processed the order of processing rules out a cycle. -/
theorem acyclic_of_all_done (h : Invariant nodes edges s) (hclosed : ∀ e ∈ edges, e.2 ∈ nodes)
    (hall : ∀ v ∈ nodes, v ∈ s.done) : Acyclic edges := by
  have hdone : s.done.Nodup := (nodup_append.mp h.nodup).1
  have hstep : ∀ u v, (u, v) ∈ edges → s.done.idxOf u < s.done.idxOf v := by
    intro u v he
    obtain ⟨pre, post, hsplit⟩ := append_of_mem (hall v (hclosed _ he))
    exact idxOf_lt hdone hsplit (h.ordered pre v post hsplit u he)
  intro v hcycle
  have hlt := hcycle.lift s.done.idxOf hstep
  rw [Relation.transGen_eq_self] at hlt
  exact Nat.lt_irrefl _ hlt

/-- With nothing left to process, an unprocessed vertex would lie behind a cycle. -/
theorem all_done_of_acyclic (h : Invariant nodes edges s) (hclosed : ∀ e ∈ edges, e.1 ∈ nodes)
    (hready : s.ready = []) (hacyclic : Acyclic edges) : ∀ v ∈ nodes, v ∈ s.done := by
  have hprev : ∀ v ∈ nodes, v ∉ s.done → ∃ u ∈ nodes, u ∉ s.done ∧ (u, v) ∈ edges := by
    intro v hv hopen
    have hcount : ¬ pending edges s.done v = 0 := by
      rw [← h.count, ← h.seen v hv, hready, append_nil]
      exact hopen
    rw [pending_eq_zero] at hcount
    simp only [not_forall] at hcount
    obtain ⟨u, he, hu⟩ := hcount
    exact ⟨u, hclosed _ he, hu, he⟩
  -- on the finitely many vertices the reachability of an acyclic graph is well founded
  let reach : {v // v ∈ nodes} → {v // v ∈ nodes} → Prop :=
    fun u v => Relation.TransGen (fun u v => (u, v) ∈ edges) u.1 v.1
  have htrans : IsTrans _ reach := ⟨fun _ _ _ hab hbc => hab.trans hbc⟩
  have hirrefl : Std.Irrefl reach := ⟨fun v => hacyclic v.1⟩
  have hwf : WellFounded reach := Finite.wellFounded_of_trans_of_irrefl reach
  intro v hv
  by_contra hopen
  obtain ⟨⟨m, hm⟩, hmopen, hmin⟩ := hwf.has_min {w | w.1 ∉ s.done} ⟨⟨v, hv⟩, hopen⟩
  obtain ⟨u, hu, huopen, he⟩ := hprev m hm hmopen
  exact hmin ⟨u, hu⟩ huopen (.single he)

theorem length_done_eq_iff (h : Invariant nodes edges s) (hnodes : nodes.Nodup)
    (hclosed : ∀ e ∈ edges, e.1 ∈ nodes ∧ e.2 ∈ nodes) (hready : s.ready = []) :
    s.done.length = nodes.length ↔ Acyclic edges := by
  have hdone : s.done.Nodup := (nodup_append.mp h.nodup).1
  have hsub : s.done.Subperm nodes :=
    hdone.subperm fun v hv => h.inside v (mem_append_left _ hv)
  constructor
  · intro hlen
    refine acyclic_of_all_done h (fun e he => (hclosed e he).2) ?_
    intro v hv
    exact (hsub.perm_of_length_le hlen.ge).mem_iff.mpr hv
  · intro hacyclic
    have hall := all_done_of_acyclic h (fun e he => (hclosed e he).1) hready hacyclic
    exact le_antisymm hsub.length_le (hnodes.subperm hall).length_le

/-! Processing the ready vertices in the order they became ready. -/

/-- One vertex for each unit of fuel. -/
def drain (edges : List (α × α)) : ℕ → State α → State α
  | 0, s => s
  | fuel + 1, s =>
    match s.ready with
    | [] => s
    | u :: rest =>
      let freed := release s.count (targets edges u)
      drain edges fuel ⟨freed.1, rest ++ freed.2, s.done ++ [u]⟩

/-- As much fuel as there are vertices works off the ready list. -/
theorem drain_spec (hclosed : ∀ e ∈ edges, e.2 ∈ nodes) {fuel : ℕ} (h : Invariant nodes edges s)
    (hfuel : nodes.length ≤ fuel + s.done.length) :
    (drain edges fuel s).ready = [] ∧ Invariant nodes edges (drain edges fuel s) := by
  induction fuel generalizing s with
  | zero =>
    have hlen := h.length_le
    rw [length_append] at hlen
    refine ⟨length_eq_zero_iff.mp ?_, h⟩
    simp only [drain]
    omega
  | succ fuel ih =>
    cases hready : s.ready with
    | nil =>
      simp only [drain, hready]
      exact ⟨trivial, h⟩
    | cons u rest =>
      have hstep : Step edges s ⟨(release s.count (targets edges u)).1,
          rest ++ (release s.count (targets edges u)).2, s.done ++ [u]⟩ :=
        .process (by rw [hready]) (List.Perm.refl _)
      simp only [drain, hready]
      refine ih (invariant_step hclosed h hstep) ?_
      simp only [length_append, length_singleton]
      omega

def processed (nodes : List α) (edges : List (α × α)) : List α :=
  (drain edges nodes.length (start nodes edges)).done

theorem length_processed_eq_iff (hnodes : nodes.Nodup)
    (hclosed : ∀ e ∈ edges, e.1 ∈ nodes ∧ e.2 ∈ nodes) :
    (processed nodes edges).length = nodes.length ↔ Acyclic edges := by
  obtain ⟨hready, hinv⟩ := drain_spec (fun e he => (hclosed e he).2) (invariant_start hnodes)
    (Nat.le_add_right nodes.length _)
  exact length_done_eq_iff hinv hnodes hclosed hready

/-- A relation that never leads up a layer has a cycle only inside one layer. -/
theorem irrefl_transGen_of_layers {β : Type*} {r : β → β → Prop} (layer : β → ℕ)
    (hdown : ∀ a b, r a b → layer b ≤ layer a)
    (hinside : ∀ n a, ¬ Relation.TransGen (fun a b => r a b ∧ layer a = n ∧ layer b = n) a a) :
    ∀ a, ¬ Relation.TransGen r a a := by
  have hle : ∀ {a b}, Relation.TransGen r a b → layer b ≤ layer a := by
    intro a b h
    have hlift := h.lift (p := (· ≥ ·)) layer hdown
    rwa [Relation.transGen_eq_self] at hlift
  have hstay : ∀ {a b}, Relation.TransGen r a b → layer b = layer a →
      Relation.TransGen (fun x y => r x y ∧ layer x = layer a ∧ layer y = layer a) a b := by
    intro a b h
    induction h with
    | single h =>
      intro heq
      exact .single ⟨h, rfl, heq⟩
    | @tail c d hpath h ih =>
      intro heq
      have hmid : layer c = layer a := le_antisymm (hle hpath) (heq ▸ hdown _ _ h)
      exact .tail (ih hmid) ⟨h, hmid, heq⟩
  intro a hcycle
  exact hinside (layer a) a (hstay hcycle rfl)

end Kahn

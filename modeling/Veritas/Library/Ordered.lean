import Mathlib.Data.Finset.Sort
import Mathlib.Data.List.Destutter

/-! Finite sets read in ascending order, by an insertion sort that evaluates in the kernel. -/
namespace Ordered

open List

variable {α : Type*} [LinearOrder α]

/-- The elements of a set in ascending order. -/
def ascending (s : Finset α) : List α :=
  Quot.liftOn s.val (fun l => l.insertionSort (· ≤ ·)) fun l l' h =>
    ((l.perm_insertionSort _).trans (h.trans (l'.perm_insertionSort _).symm)).eq_of_pairwise'
      (List.pairwise_insertionSort (· ≤ ·) l) (List.pairwise_insertionSort (· ≤ ·) l')

theorem ascending_eq_sort (s : Finset α) : ascending s = s.sort := by
  refine Perm.eq_of_pairwise' ?_ (Finset.pairwise_sort s (· ≤ ·)) ?_
  · obtain ⟨l⟩ := s
    induction l using Quot.ind
    exact pairwise_insertionSort _ _
  · obtain ⟨l, hl⟩ := s
    induction l using Quot.ind with
    | mk l =>
      refine (perm_insertionSort _ l).trans (Multiset.coe_eq_coe.mp ?_)
      exact (Multiset.sort_eq _ _).symm

@[simp] theorem mem_ascending {s : Finset α} {a : α} : a ∈ ascending s ↔ a ∈ s := by
  rw [ascending_eq_sort, Finset.mem_sort]

@[simp] theorem length_ascending (s : Finset α) : (ascending s).length = s.card := by
  rw [ascending_eq_sort, Finset.length_sort]

theorem sortedLT_ascending (s : Finset α) : (ascending s).SortedLT := by
  rw [ascending_eq_sort]
  exact Finset.sortedLT_sort s

theorem nodup_ascending (s : Finset α) : (ascending s).Nodup := (sortedLT_ascending s).nodup

/-- Sort and drop repetitions. -/
def sortUnique (l : List α) : List α := ascending l.toFinset

@[simp] theorem mem_sortUnique {l : List α} {a : α} : a ∈ sortUnique l ↔ a ∈ l := by
  simp [sortUnique]

/-- Two ascending lists with the same elements are equal. -/
theorem eq_of_sortedLT {l l' : List α} (hl : l.SortedLT) (hl' : l'.SortedLT)
    (h : ∀ a, a ∈ l ↔ a ∈ l') : l = l' := by
  have hperm : l.Perm l' := (perm_ext_iff_of_nodup hl.nodup hl'.nodup).mpr h
  exact hperm.eq_of_pairwise' hl.sortedLE.pairwise hl'.sortedLE.pairwise

theorem sortUnique_congr {l l' : List α} (h : ∀ a, a ∈ l ↔ a ∈ l') :
    sortUnique l = sortUnique l' := by
  have hset : l.toFinset = l'.toFinset := by
    ext a
    simp [h a]
  rw [sortUnique, sortUnique, hset]

variable {β γ κ : Type*}

/-- Where a test holds on an initial part of a list, cutting the list there is filtering it. -/
theorem takeWhile_eq_filter {p : β → Bool} {l : List β}
    (h : l.Pairwise fun a b => p b = true → p a = true) :
    l.takeWhile p = l.filter p ∧ l.dropWhile p = l.filter fun a => !p a := by
  induction l with
  | nil => exact ⟨rfl, rfl⟩
  | cons a l ih =>
    obtain ⟨ha, hl⟩ := pairwise_cons.mp h
    by_cases hpa : p a = true
    · simp [hpa, ih hl]
    · have hnone : ∀ b ∈ l, p b = false := by
        intro b hb
        cases hpb : p b with
        | false => rfl
        | true => exact absurd (ha b hb hpb) hpa
      have hfilter : l.filter p = [] := filter_eq_nil_iff.mpr fun b hb => by simp [hnone b hb]
      have hself : l.filter (fun a => !p a) = l :=
        filter_eq_self.mpr fun b hb => by simp [hnone b hb]
      simp [hpa, hfilter, hself]

/-- A sort that keeps repetitions forgets the order it was given. -/
theorem insertionSort_congr {κ : Type*} [LinearOrder κ] {l l' : List κ} (h : l.Perm l') :
    l.insertionSort (· ≤ ·) = l'.insertionSort (· ≤ ·) := by
  refine Perm.eq_of_pairwise' (pairwise_insertionSort _ _) (pairwise_insertionSort _ _) ?_
  exact (perm_insertionSort _ _).trans (h.trans (perm_insertionSort _ _).symm)

/-- A sort by a key that no two elements share forgets the order it was given. -/
theorem insertionSort_eq_of_perm {α κ : Type*} [LinearOrder κ] {key : α → κ} {l l' : List α}
    (hinj : ∀ a ∈ l, ∀ b ∈ l, key a = key b → a = b) (h : l.Perm l') :
    l.insertionSort (fun a b => key a ≤ key b) = l'.insertionSort (fun a b => key a ≤ key b) := by
  have hsorted := pairwise_insertionSort (fun a b => key a ≤ key b) l
  have hsorted' := pairwise_insertionSort (fun a b => key a ≤ key b) l'
  have hperm := (perm_insertionSort (fun a b => key a ≤ key b) l).trans
    (h.trans (perm_insertionSort (fun a b => key a ≤ key b) l').symm)
  refine hperm.eq_of_pairwise (fun a b ha hb hab hba => ?_) hsorted hsorted'
  exact hinj a ((mem_insertionSort _).mp ha) b
    (h.mem_iff.mpr ((mem_insertionSort _).mp hb)) (le_antisymm hab hba)

/-- Sorting codes and decoding them is sorting what they stand for. -/
theorem map_decode_sort {α β κ : Type*} [LinearOrder β] [LinearOrder κ] {l : List α} {code : α → β}
    {f : β → κ} {key : α → κ} (hcode : ∀ a ∈ l, f (code a) = key a)
    (hle : ∀ a ∈ l, ∀ b ∈ l, code a ≤ code b ↔ key a ≤ key b) :
    ((l.map code).insertionSort (· ≤ ·)).map f = (l.map key).insertionSort (· ≤ ·) := by
  have hkeys : l.map key = (l.map code).map f := by
    rw [map_map]
    exact (map_congr_left hcode).symm
  rw [hkeys]
  refine map_insertionSort _ _ _ _ ?_
  simp only [mem_map, forall_exists_index, and_imp, forall_apply_eq_imp_iff₂]
  intro a ha b hb
  rw [hcode a ha, hcode b hb]
  exact hle a ha b hb

/-- What a search finds is there. -/
theorem of_find? {p : β → Prop} [DecidablePred p] {l : List β} {b : β}
    (h : l.find? (p ·) = some b) : b ∈ l ∧ p b :=
  ⟨mem_of_find?_eq_some h, of_decide_eq_true (find?_some h :)⟩

/-- A search for what is there finds something. -/
theorem exists_find? {p : β → Prop} [DecidablePred p] {l : List β} {a : β} (ha : a ∈ l)
    (hp : p a) : ∃ b, l.find? (p ·) = some b ∧ b ∈ l ∧ p b := by
  obtain ⟨b, hb⟩ := Option.isSome_iff_exists.mp
    (find?_isSome (p := (p ·)).mpr ⟨a, ha, decide_eq_true hp⟩)
  exact ⟨b, hb, of_find? hb⟩

/-- A lookup by a key that no two entries share. -/
theorem find?_eq_some_of_inj [DecidableEq κ] {l : List β} {key : β → κ}
    (hinj : ∀ a ∈ l, ∀ b ∈ l, key a = key b → a = b) {k : κ} {a : β} :
    l.find? (key · = k) = some a ↔ a ∈ l ∧ key a = k := by
  constructor
  · exact of_find?
  · rintro ⟨ha, rfl⟩
    obtain ⟨b, hb, hmem, hkey⟩ := exists_find? (p := (key · = key a)) ha rfl
    rw [hb, hinj b hmem a ha hkey]

/-- Such a lookup does not see the order of the entries. -/
theorem find?_perm [DecidableEq κ] {l l' : List β} {key : β → κ} (hperm : l.Perm l')
    (hnodup : (l.map key).Nodup) (k : κ) : l.find? (key · = k) = l'.find? (key · = k) := by
  have hinj : ∀ a ∈ l, ∀ b ∈ l, key a = key b → a = b := fun a ha b hb hab =>
    inj_on_of_nodup_map hnodup ha hb hab
  have hinj' : ∀ a ∈ l', ∀ b ∈ l', key a = key b → a = b := fun a ha b hb =>
    hinj a (hperm.mem_iff.mpr ha) b (hperm.mem_iff.mpr hb)
  refine Option.ext fun a => ?_
  rw [find?_eq_some_of_inj hinj, find?_eq_some_of_inj hinj', hperm.mem_iff]

theorem mem_filterMap_find? [DecidableEq κ] {l : List β} {key : β → κ}
    (hnodup : (l.map key).Nodup) {ks : List κ} {a : β} :
    a ∈ ks.filterMap (fun k => l.find? (key · = k)) ↔ a ∈ l ∧ key a ∈ ks := by
  have hinj : ∀ a ∈ l, ∀ b ∈ l, key a = key b → a = b := fun a ha b hb hab =>
    inj_on_of_nodup_map hnodup ha hb hab
  rw [mem_filterMap]
  constructor
  · rintro ⟨k, hk, hfind⟩
    obtain ⟨ha, rfl⟩ := (find?_eq_some_of_inj hinj).mp hfind
    exact ⟨ha, hk⟩
  · rintro ⟨ha, hk⟩
    exact ⟨key a, hk, (find?_eq_some_of_inj hinj).mpr ⟨ha, rfl⟩⟩

/-- A search over entries in key order stops at the one with the least key. -/
theorem findSome?_eq_some_iff_least {β γ κ : Type*} [LinearOrder κ] {l : List β} {key : β → κ}
    (hl : l.Pairwise fun a b => key a < key b) {f : β → Option γ} {c : γ} :
    l.findSome? f = some c ↔ ∃ a ∈ l, f a = some c ∧ ∀ b ∈ l, (f b).isSome → key a ≤ key b := by
  rw [findSome?_eq_some_iff]
  constructor
  · rintro ⟨pre, a, post, rfl, ha, hpre⟩
    refine ⟨a, by simp, ha, fun b hb hsome => ?_⟩
    rcases mem_append.mp hb with hb | hb
    · simp [hpre b hb] at hsome
    rcases mem_cons.mp hb with rfl | hb
    · exact le_rfl
    · exact ((pairwise_cons.mp (pairwise_append.mp hl).2.1).1 b hb).le
  · rintro ⟨a, hmem, ha, hleast⟩
    obtain ⟨pre, post, rfl⟩ := append_of_mem hmem
    refine ⟨pre, a, post, rfl, ha, fun b hb => ?_⟩
    by_contra hsome
    have hle := hleast b (mem_append_left _ hb) (Option.isSome_iff_ne_none.mpr hsome)
    exact absurd ((pairwise_append.mp hl).2.2 b hb a mem_cons_self) (not_lt.mpr hle)

/-- A lookup that a later entry overrides, where entries with one key carry one value. -/
theorem last_eq_some {β κ ν : Type*} [DecidableEq κ] {l : List β} {key : β → κ} {val : β → ν}
    (hfun : ∀ p ∈ l, ∀ q ∈ l, key p = key q → val p = val q) {k : κ} {v : ν} :
    (l.reverse.find? (key · = k)).map val = some v ↔ ∃ p ∈ l, key p = k ∧ val p = v := by
  constructor
  · intro h
    obtain ⟨p, hp, rfl⟩ := Option.map_eq_some_iff.mp h
    exact ⟨p, mem_reverse.mp (of_find? hp).1, (of_find? hp).2, rfl⟩
  · rintro ⟨p, hp, rfl, rfl⟩
    obtain ⟨q, hq, hmem, hkey⟩ := exists_find? (p := (key · = key p)) (mem_reverse.mpr hp) rfl
    rw [hq, Option.map_some, hfun q (mem_reverse.mp hmem) p hp hkey]

/-- Dropping repetitions side by side drops no element. -/
theorem mem_destutter_ne [DecidableEq β] {l : List β} {x : β} :
    x ∈ l.destutter (· ≠ ·) ↔ x ∈ l := by
  have hrun : ∀ (l : List β) (a : β), x ∈ l.destutter' (· ≠ ·) a ↔ x ∈ a :: l := by
    intro l
    induction l with
    | nil => simp
    | cons b l ih =>
      intro a
      by_cases hab : a ≠ b
      · rw [destutter'_cons_pos _ hab, mem_cons, ih]
        simp only [mem_cons]
      · rw [destutter'_cons_neg _ hab, ih, not_ne_iff.mp hab]
        simp
  cases l with
  | nil => simp
  | cons a l => exact hrun l a

/-- A fold that may stop reaches its end when every step goes on from what the earlier ones left. -/
theorem foldlM_goesOn {m : Type → Type*} [Monad m] [LawfulMonad m] {β σ : Type} {f : σ → β → m σ}
    (P : List β → σ → Prop) {s : σ} {l : List β} (hstart : P [] s)
    (hstep : ∀ pre x post, l = pre ++ x :: post → ∀ s, P pre s →
      ∃ s', f s x = pure s' ∧ P (pre ++ [x]) s') :
    ∃ s', l.foldlM f s = pure s' ∧ P l s' := by
  have hrest : ∀ rest pre s, l = pre ++ rest → P pre s →
      ∃ s', rest.foldlM f s = pure s' ∧ P (pre ++ rest) s' := by
    intro rest
    induction rest with
    | nil =>
      intro pre s _ hs
      exact ⟨s, rfl, by rwa [append_nil]⟩
    | cons x rest ih =>
      intro pre s hl hs
      obtain ⟨mid, hmid, hP⟩ := hstep pre x rest hl s hs
      obtain ⟨s', hs', hP'⟩ := ih (pre ++ [x]) mid (by rw [hl, append_cons]) hP
      refine ⟨s', ?_, by rwa [append_cons]⟩
      rw [foldlM_cons, hmid, pure_bind]
      exact hs'
  exact hrest l [] s rfl hstart

theorem mapM_map_some {α β γ : Type*} {m : α → β} {f : β → Option γ} {g : α → γ}
    (h : ∀ a, f (m a) = some (g a)) (l : List α) : (l.map m).mapM f = some (l.map g) := by
  induction l with
  | nil => rfl
  | cons a l ih => simp [h, ih]

theorem mapM_isSome_iff {f : β → Option γ} {l : List β} :
    (l.mapM f).isSome ↔ ∀ x ∈ l, (f x).isSome := by
  induction l with
  | nil => simp
  | cons x l ih =>
    rw [mapM_cons, forall_mem_cons, ← ih]
    cases f x with
    | none => simp
    | some y =>
      cases l.mapM f with
      | none => simp
      | some ys => simp

theorem mapM_isSome {f : β → Option γ} {l : List β}
    (h : ∀ x ∈ l, ∃ y, f x = some y) : ∃ ys, l.mapM f = some ys :=
  Option.isSome_iff_exists.mp (mapM_isSome_iff.mpr fun x hx =>
    Option.isSome_iff_exists.mpr (h x hx))

/-- The first element with a property, and what stands before it. -/
theorem exists_first {p : β → Prop} {l : List β} (h : ∃ x ∈ l, p x) :
    ∃ pre x post, l = pre ++ x :: post ∧ p x ∧ ∀ y ∈ pre, ¬ p y := by
  classical
  obtain ⟨a, ha, hp⟩ := h
  obtain ⟨x, hx, -⟩ := exists_find? ha hp
  obtain ⟨hp, pre, post, hsplit, hpre⟩ := find?_eq_some_iff_append.mp hx
  exact ⟨pre, x, post, hsplit, by simpa using hp, by simpa using hpre⟩

/-- The splits of a list with one more element: those of the list, and the one at the end. -/
theorem exists_split_concat {l : List β} {x : β} {P : List β → β → Prop} :
    (∃ pre c post, l ++ [x] = pre ++ c :: post ∧ P pre c) ↔
      (∃ pre c post, l = pre ++ c :: post ∧ P pre c) ∨ P l x := by
  constructor
  · rintro ⟨pre, c, post, hsplit, hP⟩
    rcases eq_nil_or_concat post with rfl | ⟨post, last, rfl⟩
    · obtain ⟨rfl, hlast⟩ := append_inj' hsplit rfl
      obtain rfl := (cons.inj hlast).1
      exact .inr hP
    · have hsplit : l ++ [x] = (pre ++ c :: post) ++ [last] := by simpa using hsplit
      exact .inl ⟨pre, c, post, (append_inj' hsplit rfl).1, hP⟩
  · rintro (⟨pre, c, post, rfl, hP⟩ | hP)
    · exact ⟨pre, c, post ++ [x], by simp, hP⟩
    · exact ⟨l, x, [], rfl, hP⟩

/-- What lies behind the last element of a page of an ascending list is the rest of the list. -/
theorem filter_lt_getLast_take [LinearOrder β] {l : List β} {n : ℕ} {x : β}
    (hl : l.Pairwise (· < ·)) (hx : (l.take n).getLast? = some x) :
    l.filter (x < ·) = l.drop n := by
  obtain ⟨pre, hpre⟩ := getLast?_eq_some_iff.mp hx
  rw [← take_append_drop n l] at hl
  obtain ⟨htake, -, hcross⟩ := pairwise_append.mp hl
  have hnone : (l.take n).filter (x < ·) = [] := by
    refine filter_eq_nil_iff.mpr fun y hy => ?_
    rw [decide_eq_true_eq, not_lt]
    rw [hpre] at hy htake
    rcases mem_append.mp hy with hy | hy
    · exact ((pairwise_append.mp htake).2.2 y hy x (by simp)).le
    · exact (mem_singleton.mp hy).le
  have hall : (l.drop n).filter (x < ·) = l.drop n := by
    refine filter_eq_self.mpr fun y hy => ?_
    exact decide_eq_true (hcross x (by simp [hpre]) y hy)
  conv_lhs => rw [← take_append_drop n l]
  rw [filter_append, hnone, hall, nil_append]

theorem exists_mem_concat {p : β → Prop} {l : List β} {x : β} :
    (∃ y ∈ l ++ [x], p y) ↔ (∃ y ∈ l, p y) ∨ p x := by
  simp [or_and_right, exists_or]

theorem exists_of_mem_forall₂ {R : β → γ → Prop} {xs : List β} {ys : List γ}
    (h : List.Forall₂ R xs ys) {y : γ} (hy : y ∈ ys) : ∃ x ∈ xs, R x y := by
  induction h with
  | nil => simp at hy
  | cons hxy _ ih =>
    rcases mem_cons.mp hy with rfl | hy
    · exact ⟨_, mem_cons_self, hxy⟩
    · obtain ⟨x, hx, hxy⟩ := ih hy
      exact ⟨x, mem_cons_of_mem _ hx, hxy⟩

/-- The part of an ascending list up to a bound, extended to a larger bound. -/
theorem filter_le_append [LinearOrder κ] {k : β → κ} {l : List β} {a b : κ}
    (hl : l.Pairwise fun x y => k x < k y) (hab : a ≤ b) :
    l.filter (fun x => k x ≤ b) =
      l.filter (fun x => k x ≤ a) ++ l.filter (fun x => a < k x ∧ k x ≤ b) := by
  have hcut : (l.filter (k · ≤ b)).Pairwise fun x y => decide (k y ≤ a) = true →
      decide (k x ≤ a) = true :=
    (hl.filter _).imp fun hxy hy => decide_eq_true (hxy.le.trans (of_decide_eq_true hy))
  obtain ⟨htake, hdrop⟩ := takeWhile_eq_filter hcut
  rw [← takeWhile_append_dropWhile (p := fun x => decide (k x ≤ a)) (l := l.filter (k · ≤ b)), htake,
    hdrop, filter_filter, filter_filter]
  congr 1
  · refine filter_congr fun x _ => ?_
    by_cases hx : k x ≤ a
    · simp [hx, hx.trans hab]
    · simp [hx]
  · exact filter_congr fun x _ => by simp [← not_le]

theorem filter_eq_of_nodup [DecidableEq β] {l : List β} {p : β → Bool} {x : β}
    (hl : l.Nodup) (hp : ∀ y ∈ l, p y = true ↔ y = x) :
    l.filter p = if x ∈ l then [x] else [] := by
  have hsame : l.filter p = l.filter (· == x) :=
    filter_congr fun y hy => Bool.eq_iff_iff.mpr ((hp y hy).trans beq_iff_eq.symm)
  rw [hsame, filter_beq]
  by_cases hx : x ∈ l
  · rw [if_pos hx, count_eq_one_of_mem hl hx]
    rfl
  · rw [if_neg hx, count_eq_zero_of_not_mem hx]
    rfl

theorem flatMap_eq_of_unique {l : List β} {g : β → List γ} {a : β} (hl : l.Nodup)
    (ha : a ∈ l) (h : ∀ x ∈ l, x ≠ a → g x = []) : l.flatMap g = g a := by
  obtain ⟨pre, post, rfl⟩ := append_of_mem ha
  rw [nodup_middle, nodup_cons] at hl
  have hother : ∀ x ∈ pre ++ post, g x = [] := by
    refine fun x hx => h x ?_ (ne_of_mem_of_not_mem hx hl.1)
    simp only [mem_append, mem_cons] at hx ⊢
    tauto
  obtain ⟨hpre, hpost⟩ := forall_mem_append.mp hother
  rw [flatMap_append, flatMap_cons, flatMap_eq_nil_iff.mpr hpre, flatMap_eq_nil_iff.mpr hpost,
    nil_append, append_nil]

end Ordered

import Veritas.Library.Ordered

/-! Lists that agree up to order, and sorts whose result forgets the order. -/
namespace Matching

open List

variable {α β κ : Type*}

/-- Each entry of one list is related to its own entry of the other, in any order. -/
def UpToOrder (R : α → β → Prop) (l : List α) (l' : List β) : Prop :=
  ∃ mid, List.Forall₂ R l mid ∧ mid.Perm l'

variable {R : α → β → Prop} {f : α → κ} {g : β → κ} {l : List α} {l' : List β}

theorem forall₂_mono_mem {S : α → β → Prop} (h : List.Forall₂ R l l')
    (himp : ∀ a ∈ l, ∀ b, R a b → S a b) : List.Forall₂ S l l' := by
  induction h with
  | nil => exact .nil
  | cons hab _ ih =>
    refine .cons (himp _ mem_cons_self _ hab) (ih ?_)
    exact fun a ha => himp a (mem_cons_of_mem _ ha)

theorem UpToOrder.mono {S : α → β → Prop} (h : UpToOrder R l l')
    (himp : ∀ a ∈ l, ∀ b, R a b → S a b) : UpToOrder S l l' := by
  obtain ⟨mid, hrel, hperm⟩ := h
  exact ⟨mid, forall₂_mono_mem hrel himp, hperm⟩

theorem UpToOrder.exists_right (h : UpToOrder R l l') {b : β}
    (hb : b ∈ l') : ∃ a ∈ l, R a b := by
  obtain ⟨mid, hrel, hperm⟩ := h
  exact Ordered.exists_of_mem_forall₂ hrel (hperm.mem_iff.mpr hb)

theorem UpToOrder.exists_left (h : UpToOrder R l l') {a : α} (ha : a ∈ l) :
    ∃ b ∈ l', R a b := by
  obtain ⟨mid, hrel, hperm⟩ := h
  obtain ⟨b, hb, hab⟩ := Ordered.exists_of_mem_forall₂ hrel.flip ha
  exact ⟨b, hperm.mem_iff.mp hb, hab⟩

theorem UpToOrder.length_eq (h : UpToOrder R l l') :
    l.length = l'.length := by
  obtain ⟨mid, hrel, hperm⟩ := h
  rw [hrel.length_eq, hperm.length_eq]

theorem UpToOrder.trans_perm {l' l'' : List β} (h : UpToOrder R l l')
    (hperm : l'.Perm l'') : UpToOrder R l l'' := by
  obtain ⟨mid, hrel, hmid⟩ := h
  exact ⟨mid, hrel, hmid.trans hperm⟩

theorem map_eq_map_iff :
    l.map f = l'.map g ↔ List.Forall₂ (fun a b => f a = g b) l l' := by
  rw [← forall₂_eq_eq_eq, forall₂_map_left_iff, forall₂_map_right_iff]

/-- Lists whose images are permutations of each other agree up to order, image by image. -/
theorem upToOrder_iff_map_perm :
    UpToOrder (fun a b => f a = g b) l l' ↔ (l.map f).Perm (l'.map g) := by
  constructor
  · rintro ⟨mid, hrel, hperm⟩
    rw [map_eq_map_iff.mpr hrel]
    exact hperm.map g
  · intro h
    have hcomp := congrFun (congrFun (eq_map_comp_perm g) (l.map f)) l'
    obtain ⟨mid, hmid, hperm⟩ := hcomp.mpr h
    exact ⟨mid, map_eq_map_iff.mp hmid, hperm⟩

theorem UpToOrder.map_perm (h : UpToOrder R l l')
    (hfg : ∀ a b, R a b → f a = g b) : (l.map f).Perm (l'.map g) :=
  upToOrder_iff_map_perm.mp (h.mono fun a _ b => hfg a b)

variable {l l' : List α}

theorem upToOrder_eq_iff : UpToOrder (· = ·) l l' ↔ l.Perm l' := by
  have h := @upToOrder_iff_map_perm _ _ _ id id l l'
  rwa [map_id, map_id] at h

variable [LinearOrder κ]

/-- A list sorted by a key. -/
def sortOn (key : α → κ) (l : List α) : List α := l.insertionSort fun a b => key a ≤ key b

theorem sortOn_perm (key : α → κ) (l : List α) : (sortOn key l).Perm l := List.perm_insertionSort _ l

theorem map_sortOn (key : α → κ) (l : List α) :
    (sortOn key l).map key = (l.map key).insertionSort (· ≤ ·) :=
  List.map_insertionSort _ _ _ _ fun _ _ _ _ => Iff.rfl

variable {key : α → κ} {out : α → β}

/-- What the key determines of a sorted list depends on the keys alone, not on their order. -/
theorem map_sortOn_congr {out : κ → β} (h : (l.map key).Perm (l'.map key)) :
    (sortOn key l).map (out ∘ key) = (sortOn key l').map (out ∘ key) := by
  rw [← map_map, ← map_map, map_sortOn, map_sortOn, Ordered.insertionSort_congr h]

theorem pairwise_sortOn (key : α → κ) (l : List α) :
    (sortOn key l).Pairwise fun a b => key a ≤ key b :=
  List.pairwise_insertionSort (fun a b => key a ≤ key b) l

/-- The sort is stable: entries of one key keep their order. -/
theorem filter_sortOn (key : α → κ) (l : List α) (k : κ) :
    (sortOn key l).filter (key · = k) = l.filter (key · = k) := by
  have hsorted : (l.filter (key · = k)).Pairwise fun a b => key a ≤ key b :=
    pairwise_of_forall_mem_list fun a ha b hb => by
      rw [of_decide_eq_true (mem_filter.mp ha).2, of_decide_eq_true (mem_filter.mp hb).2]
  have hsub := (sublist_insertionSort hsorted filter_sublist).filter (key · = k)
  rw [filter_filter] at hsub
  simp only [Bool.and_self] at hsub
  exact (hsub.eq_of_length ((sortOn_perm key l).filter _).length_eq.symm).symm

/-- Sorted lists that agree key by key are equal. -/
theorem eq_of_filter_eq (hl : l.Pairwise fun a b => key a ≤ key b)
    (hl' : l'.Pairwise fun a b => key a ≤ key b)
    (h : ∀ k, l.filter (key · = k) = l'.filter (key · = k)) : l = l' := by
  induction l generalizing l' with
  | nil =>
    cases l' with
    | nil => rfl
    | cons b l' =>
      have := h (key b)
      simp at this
  | cons a l ih =>
    cases l' with
    | nil =>
      have := h (key a)
      simp at this
    | cons b l' =>
      -- the least key heads both lists
      have hmem : ∀ {m m' : List α} {c : α}, c ∈ m →
          m.filter (key · = key c) = m'.filter (key · = key c) → ∃ d ∈ m', key d = key c := by
        intro m m' c hc heq
        have hc' : c ∈ m'.filter (key · = key c) := heq ▸ mem_filter.mpr ⟨hc, by simp⟩
        exact ⟨c, (mem_filter.mp hc').1, rfl⟩
      have hkey : key a = key b := by
        obtain ⟨d, hd, hda⟩ := hmem mem_cons_self (h (key a))
        obtain ⟨c, hc, hcb⟩ := hmem mem_cons_self (h (key b)).symm
        have hba : key b ≤ key a := by
          rcases mem_cons.mp hd with rfl | hd
          · exact le_of_eq hda
          · exact hda ▸ (pairwise_cons.mp hl').1 d hd
        have hab : key a ≤ key b := by
          rcases mem_cons.mp hc with rfl | hc
          · exact le_of_eq hcb
          · exact hcb ▸ (pairwise_cons.mp hl).1 c hc
        exact le_antisymm hab hba
      have hhead := h (key a)
      rw [filter_cons_of_pos (by simp), filter_cons_of_pos (by simp [hkey])] at hhead
      obtain ⟨rfl, htail⟩ := cons.inj hhead
      refine congrArg _ (ih (pairwise_cons.mp hl).2 (pairwise_cons.mp hl').2 fun k => ?_)
      by_cases hk : key a = k
      · rw [← hk]
        exact htail
      · have hrest := h k
        rwa [filter_cons_of_neg (by simpa using hk),
          filter_cons_of_neg (by simpa using hk)] at hrest

theorem sortOn_eq_of_filter_eq
    (h : ∀ k, l.filter (key · = k) = l'.filter (key · = k)) : sortOn key l = sortOn key l' := by
  refine eq_of_filter_eq (pairwise_sortOn key l) (pairwise_sortOn key l') fun k => ?_
  rw [filter_sortOn, filter_sortOn]
  exact h k

/-- Where one key means one output, the outputs in key order forget the order given. -/
theorem map_sortOn_eq_of_ties
    (hperm : (l.map fun a => (key a, out a)).Perm (l'.map fun a => (key a, out a)))
    (hties : ∀ a ∈ l, ∀ b ∈ l, key a = key b → out a = out b) :
    (sortOn key l).map out = (sortOn key l').map out := by
  have hties' : ∀ a ∈ l, ∀ b ∈ l', key a = key b → out a = out b := by
    intro a ha b hb hab
    have hpair := hperm.mem_iff.mpr (mem_map_of_mem hb)
    obtain ⟨c, hc, hcb⟩ := mem_map.mp hpair
    obtain ⟨hkey, hout⟩ := Prod.mk.inj hcb
    rw [← hout]
    exact hties a ha c hc (hab.trans hkey.symm)
  have hkeys : (l.map key).Perm (l'.map key) := by
    have := hperm.map Prod.fst
    rwa [map_map, map_map] at this
  have hsorted : (sortOn key l).map key = (sortOn key l').map key := by
    rw [map_sortOn, map_sortOn, Ordered.insertionSort_congr hkeys]
  refine map_eq_map_iff.mpr ?_
  have hpairs := forall₂_iff_zip.mp (map_eq_map_iff.mp hsorted)
  refine forall₂_iff_zip.mpr ⟨hpairs.1, fun {a b} hab => ?_⟩
  obtain ⟨ha, hb⟩ := of_mem_zip hab
  exact hties' a ((sortOn_perm key l).mem_iff.mp ha) b ((sortOn_perm key l').mem_iff.mp hb)
    (hpairs.2 hab)

/-- If the outputs in key order forget the order given, one key means one output. -/
theorem ties_of_map_sortOn
    (h : ∀ l', l.Perm l' → (sortOn key l').map out = (sortOn key l).map out) :
    ∀ a ∈ l, ∀ b ∈ l, key a = key b → out a = out b := by
  intro a ha b hb hab
  by_contra hne
  have hdiff : b ≠ a := by
    rintro rfl
    exact hne rfl
  classical
  have hrest : b ∈ l.erase a := (mem_erase_of_ne hdiff).mpr hb
  have hperm : l.Perm (a :: b :: (l.erase a).erase b) :=
    (perm_cons_erase ha).trans ((perm_cons_erase hrest).cons a)
  have houts := (h _ hperm).trans (h _ (hperm.trans (.swap b a _))).symm
  have hkeys : (sortOn key (a :: b :: (l.erase a).erase b)).map key =
      (sortOn key (b :: a :: (l.erase a).erase b)).map key := by
    rw [map_sortOn, map_sortOn, Ordered.insertionSort_congr ((List.Perm.swap b a _).map key)]
  -- outputs with their keys, so that the entries of the shared key can be picked out
  have hboth : (sortOn key (a :: b :: (l.erase a).erase b)).map (fun x => (key x, out x)) =
      (sortOn key (b :: a :: (l.erase a).erase b)).map (fun x => (key x, out x)) := by
    refine map_eq_map_iff.mpr ?_
    have hk := forall₂_iff_zip.mp (map_eq_map_iff.mp hkeys)
    have ho := forall₂_iff_zip.mp (map_eq_map_iff.mp houts)
    exact forall₂_iff_zip.mpr ⟨hk.1, fun hab => Prod.ext (hk.2 hab) (ho.2 hab)⟩
  have hfilter := congrArg (List.filter fun p => decide (p.1 = key a)) hboth
  rw [filter_map, filter_map] at hfilter
  simp only [Function.comp_def, filter_sortOn] at hfilter
  simp [hab] at hfilter
  exact hne hfilter.1

end Matching

import Veritas.Library.Ordered

/-! Interned keys: dense ids in arrival order, and ranks that order ids as their keys. -/

/-- The distinct keys seen so far; a key's id is its position. -/
structure Interner (κ : Type*) where
  keys : List κ
  nodup : keys.Nodup

namespace Interner

open List

variable {κ : Type*}

def empty : Interner κ := ⟨[], List.nodup_nil⟩

/-- The ids handed out and the keys they stand for. -/
def Names (t : Interner κ) (id : ℕ) (k : κ) : Prop := t.keys[id]? = some k

section Names

variable {t : Interner κ} {i j : ℕ} {k k' : κ}

theorem Names.mem (h : t.Names i k) : k ∈ t.keys := List.mem_of_getElem? h

theorem Names.unique (h : t.Names i k) (h' : t.Names i k') : k = k' :=
  Option.some.inj (h.symm.trans h')

theorem Names.inj (h : t.Names i k) (h' : t.Names j k) : i = j := by
  obtain ⟨hi, hki⟩ := List.getElem?_eq_some_iff.mp h
  obtain ⟨hj, hkj⟩ := List.getElem?_eq_some_iff.mp h'
  exact (Nodup.getElem_inj_iff t.nodup).mp (hki.trans hkj.symm)

end Names

variable [LinearOrder κ]

/-- The id of a key, the next free one the first time it is seen. -/
def intern (t : Interner κ) (k : κ) : Interner κ × ℕ :=
  if h : k ∈ t.keys then (t, t.keys.idxOf k)
  else (⟨t.keys ++ [k], List.nodup_append.mpr ⟨t.nodup, List.nodup_singleton k, by
    rintro a ha _ hb rfl
    exact h (List.mem_singleton.mp hb ▸ ha)⟩⟩, t.keys.length)

def find (t : Interner κ) (k : κ) : Option ℕ :=
  if k ∈ t.keys then some (t.keys.idxOf k) else none

/-- The keys in ascending order; a rank is a position in it. -/
def sorted (t : Interner κ) : List κ := t.keys.insertionSort (· ≤ ·)

def rank (t : Interner κ) (id : ℕ) : ℕ := t.sorted.findIdx fun k => t.keys[id]? = some k

section Names

variable {t : Interner κ} {i : ℕ} {k : κ}

theorem names_of_mem (h : k ∈ t.keys) : t.Names (t.keys.idxOf k) k := by
  have hlt : t.keys.idxOf k < t.keys.length := idxOf_lt_length_iff.mpr h
  rw [Names, getElem?_eq_getElem hlt, getElem_idxOf hlt]

theorem find_eq_some : t.find k = some i ↔ t.Names i k := by
  unfold find
  split_ifs with h
  · have hnames := names_of_mem h
    constructor
    · intro heq
      rw [← Option.some.inj heq]
      exact hnames
    · intro hi
      rw [hnames.inj hi]
  · refine ⟨fun heq => by simp at heq, fun hi => ?_⟩
    exact absurd hi.mem h

theorem find_eq_none : t.find k = none ↔ k ∉ t.keys := by
  unfold find
  split_ifs with h <;> simp [h]

/-- Interning keeps every id and names the new key. -/
theorem intern_names (t : Interner κ) (k : κ) :
    (t.intern k).1.Names (t.intern k).2 k ∧
      (∀ i k', t.Names i k' → (t.intern k).1.Names i k') ∧
        ∀ k', k' ∈ (t.intern k).1.keys ↔ k' ∈ t.keys ∨ k' = k := by
  unfold intern
  split
  · rename_i h
    refine ⟨names_of_mem h, fun i k' h' => h', fun k' => ⟨.inl, ?_⟩⟩
    rintro (h' | rfl)
    · exact h'
    · exact h
  · refine ⟨by simp [Names], fun i k' h' => ?_, fun k' => by simp⟩
    obtain ⟨hlt, -⟩ := List.getElem?_eq_some_iff.mp h'
    rw [Names, getElem?_append_left hlt]
    exact h'

end Names

section Rank

variable {t : Interner κ} {i j : ℕ} {k k' : κ}

theorem sorted_perm (t : Interner κ) : t.sorted.Perm t.keys := List.perm_insertionSort _ _

theorem sorted_nodup (t : Interner κ) : t.sorted.Nodup := t.sorted_perm.nodup_iff.mpr t.nodup

theorem sorted_sortedLT (t : Interner κ) : t.sorted.SortedLT :=
  (List.pairwise_insertionSort _ _).sortedLE.sortedLT_of_nodup t.sorted_nodup

/-- A rank finds its key again. -/
theorem getElem?_rank (h : t.Names i k) : t.sorted[t.rank i]? = some k := by
  have hmem : k ∈ t.sorted := t.sorted_perm.mem_iff.mpr h.mem
  have hlt : t.rank i < t.sorted.length := by
    refine findIdx_lt_length_of_exists ⟨k, hmem, ?_⟩
    exact decide_eq_true h
  have hget := findIdx_getElem (w := hlt)
  rw [getElem?_eq_getElem hlt]
  exact (h.symm.trans (of_decide_eq_true hget)).symm

theorem rank_lt_iff (h : t.Names i k) (h' : t.Names j k') : t.rank i < t.rank j ↔ k < k' := by
  obtain ⟨hi, hki⟩ := List.getElem?_eq_some_iff.mp (getElem?_rank h)
  obtain ⟨hj, hkj⟩ := List.getElem?_eq_some_iff.mp (getElem?_rank h')
  rw [← hki, ← hkj]
  exact (t.sorted_sortedLT.strictMono_get.lt_iff_lt (a := ⟨_, hi⟩) (b := ⟨_, hj⟩)).symm

theorem rank_le_iff (h : t.Names i k) (h' : t.Names j k') : t.rank i ≤ t.rank j ↔ k ≤ k' := by
  rw [← not_lt, ← not_lt, rank_lt_iff h' h]

theorem rank_eq_iff (h : t.Names i k) (h' : t.Names j k') : t.rank i = t.rank j ↔ k = k' := by
  rw [le_antisymm_iff, le_antisymm_iff, rank_le_iff h h', rank_le_iff h' h]

end Rank

end Interner

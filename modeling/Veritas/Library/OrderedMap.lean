import Mathlib.Data.List.Perm.Basic
import Mathlib.Order.Lattice

/-! Finite maps listed by key, in the order an ordered container iterates them. -/

/-- The entries are in key order and no key occurs twice. -/
structure OrderedMap (κ ν : Type*) [LinearOrder κ] where
  entries : List (κ × ν)
  sorted : entries.Pairwise fun a b => a.1 < b.1

namespace OrderedMap

open List

variable {κ ν : Type*} [LinearOrder κ]

/-- The entries with one key set, which replaces what the key had. -/
def assignEntry (k : κ) (v : ν) : List (κ × ν) → List (κ × ν)
  | [] => [(k, v)]
  | entry :: rest =>
    if k < entry.1 then (k, v) :: entry :: rest
    else if k = entry.1 then (k, v) :: rest
    else entry :: assignEntry k v rest

variable {l : List (κ × ν)}

theorem mem_assignEntry {k : κ} {v : ν} {entry : κ × ν} (h : entry ∈ assignEntry k v l) :
    entry = (k, v) ∨ entry ∈ l := by
  induction l with
  | nil => exact .inl (mem_singleton.mp h)
  | cons first rest ih =>
    rw [assignEntry] at h
    split_ifs at h with hlt heq
    · rcases mem_cons.mp h with h | h
      · exact .inl h
      · exact .inr h
    · rcases mem_cons.mp h with h | h
      · exact .inl h
      · exact .inr (mem_cons_of_mem _ h)
    · rcases mem_cons.mp h with rfl | h
      · exact .inr mem_cons_self
      · rcases ih h with h | h
        · exact .inl h
        · exact .inr (mem_cons_of_mem _ h)

theorem pairwise_assignEntry (k : κ) (v : ν) (h : l.Pairwise fun a b => a.1 < b.1) :
    (assignEntry k v l).Pairwise fun a b => a.1 < b.1 := by
  induction l with
  | nil => exact pairwise_singleton _ _
  | cons first rest ih =>
    obtain ⟨hfirst, hrest⟩ := pairwise_cons.mp h
    rw [assignEntry]
    split_ifs with hlt heq
    · refine pairwise_cons.mpr ⟨fun entry hentry => ?_, h⟩
      rcases mem_cons.mp hentry with rfl | hentry
      · exact hlt
      · exact lt_trans hlt (hfirst entry hentry)
    · exact pairwise_cons.mpr ⟨fun entry hentry => heq ▸ hfirst entry hentry, hrest⟩
    · refine pairwise_cons.mpr ⟨fun entry hentry => ?_, ih hrest⟩
      rcases mem_assignEntry hentry with rfl | hentry
      · exact lt_of_le_of_ne (not_lt.mp hlt) (Ne.symm heq)
      · exact hfirst entry hentry

def empty : OrderedMap κ ν := ⟨[], .nil⟩

def find? (m : OrderedMap κ ν) (k : κ) : Option ν := (m.entries.find? (·.1 = k)).map Prod.snd

/-- `m[k] = v`. -/
def assign (m : OrderedMap κ ν) (k : κ) (v : ν) : OrderedMap κ ν :=
  ⟨assignEntry k v m.entries, pairwise_assignEntry k v m.sorted⟩

/-- `m.emplace(k, v)`: a key that is present keeps its value. -/
def emplace (m : OrderedMap κ ν) (k : κ) (v : ν) : OrderedMap κ ν :=
  if (m.find? k).isSome then m else m.assign k v

def keys (m : OrderedMap κ ν) : List κ := m.entries.map Prod.fst

@[simp] theorem find?_empty (k : κ) : (empty : OrderedMap κ ν).find? k = none := rfl

theorem find?_eq_some {m : OrderedMap κ ν} {k : κ} {v : ν} :
    m.find? k = some v ↔ (k, v) ∈ m.entries := by
  obtain ⟨entries, sorted⟩ := m
  rw [find?, Option.map_eq_some_iff]
  constructor
  · rintro ⟨⟨k', v'⟩, hfound, rfl⟩
    obtain rfl : k' = k := by simpa using find?_some hfound
    exact mem_of_find?_eq_some hfound
  · intro hmem
    refine ⟨(k, v), ?_, rfl⟩
    induction entries with
    | nil => exact absurd hmem not_mem_nil
    | cons first rest ih =>
      obtain ⟨hfirst, hrest⟩ := pairwise_cons.mp sorted
      rcases mem_cons.mp hmem with rfl | hmem
      · simp
      · have hne : first.1 ≠ k := ne_of_lt (hfirst (k, v) hmem)
        rw [find?_cons_of_neg (by simpa using hne)]
        exact ih hrest hmem

theorem find?_assign (m : OrderedMap κ ν) (k : κ) (v : ν) (k' : κ) :
    (m.assign k v).find? k' = if k' = k then some v else m.find? k' := by
  obtain ⟨entries, sorted⟩ := m
  simp only [find?, assign]
  clear sorted
  induction entries with
  | nil => by_cases h : k' = k <;> simp [assignEntry, h, eq_comm]
  | cons first rest ih =>
    rw [assignEntry]
    by_cases h : k' = k
    · subst h
      rw [if_pos rfl] at ih
      rw [if_pos rfl]
      split_ifs with hlt heq
      · simp
      · simp
      · rw [find?_cons_of_neg (by simpa using Ne.symm heq), ih]
    · rw [if_neg h] at ih
      have hk : k ≠ k' := Ne.symm h
      split_ifs with hlt heq
      · rw [find?_cons_of_neg (by simpa using hk)]
      · rw [find?_cons_of_neg (by simpa using hk), find?_cons_of_neg (by simpa using heq ▸ hk)]
      · by_cases hfirst : first.1 = k'
        · simp [hfirst]
        · rw [find?_cons_of_neg (by simpa using hfirst), ih,
            find?_cons_of_neg (by simpa using hfirst)]

theorem length_assign_le (m : OrderedMap κ ν) (k : κ) (v : ν) :
    (m.assign k v).entries.length ≤ m.entries.length + 1 := by
  have hassign : ∀ l : List (κ × ν), (assignEntry k v l).length ≤ l.length + 1 := by
    intro l
    induction l with
    | nil => exact le_refl _
    | cons first rest ih =>
      rw [assignEntry]
      split_ifs <;> simp only [List.length_cons] <;> omega
  exact hassign m.entries

theorem find?_emplace (m : OrderedMap κ ν) (k : κ) (v : ν) (k' : κ) :
    (m.emplace k v).find? k' = if k' = k then some ((m.find? k).getD v) else m.find? k' := by
  rw [emplace]
  cases hk : m.find? k with
  | some v' =>
    by_cases h : k' = k
    · subst h
      simp [hk]
    · simp [h]
  | none => simp [find?_assign]

/-- Of the entries emplaced for one key, the first stays. -/
theorem find?_foldl_emplace {α : Type*} (f : α → κ) (g : α → ν) (l : List α) (m : OrderedMap κ ν)
    (k : κ) : (l.foldl (fun m x => m.emplace (f x) (g x)) m).find? k =
      (m.find? k).or ((l.find? (f · = k)).map g) := by
  induction l generalizing m with
  | nil => simp
  | cons x l ih =>
    rw [foldl_cons, ih, find?_emplace]
    by_cases hk : f x = k
    · subst hk
      cases m.find? (f x) <;> simp
    · rw [if_neg (Ne.symm hk), find?_cons_of_neg (by simpa using hk)]

end OrderedMap

import Veritas.Library.Ordered

/-! Tables with a primary key, as a relational store keeps them. -/

/-- The rows in the order they were inserted; no two have one key. -/
structure KeyedTable (ρ : Type*) {κ : Type*} (key : ρ → κ) where
  rows : List ρ
  keyed : (rows.map key).Nodup

namespace KeyedTable

open List Option

variable {ρ κ : Type*} {key : ρ → κ}

def empty : KeyedTable ρ key := ⟨[], .nil⟩

/-- The rows a condition does not name stay. -/
def deleteWhere (t : KeyedTable ρ key) (p : ρ → Bool) : KeyedTable ρ key where
  rows := t.rows.filter fun row => !p row
  keyed := t.keyed.sublist (List.filter_sublist.map key)

variable {row : ρ} {t : KeyedTable ρ key}

theorem eq_of_key_eq {row' : ρ} (h : row ∈ t.rows) (h' : row' ∈ t.rows) (hkey : key row = key row') :
    row = row' :=
  List.inj_on_of_nodup_map t.keyed h h' hkey

variable [DecidableEq κ]

/-- `INSERT OR REPLACE`: a row with the key goes, and the new row comes last. -/
def insertOrReplace (t : KeyedTable ρ key) (row : ρ) : KeyedTable ρ key where
  rows := t.rows.filter (key · ≠ key row) ++ [row]
  keyed := by
    rw [map_append, nodup_append']
    refine ⟨t.keyed.sublist (filter_sublist.map key), nodup_singleton _, ?_⟩
    intro k hold hnew
    obtain ⟨old, hmem, rfl⟩ := mem_map.mp hold
    have hkey := of_decide_eq_true (mem_filter.mp hmem).2
    exact hkey (mem_singleton.mp hnew)

/-- `INSERT OR IGNORE`: a row with the key stays. -/
def insertOrIgnore (t : KeyedTable ρ key) (row : ρ) : KeyedTable ρ key :=
  if t.rows.any (key · = key row) then t else t.insertOrReplace row

def find? (t : KeyedTable ρ key) (k : κ) : Option ρ := t.rows.find? (key · = k)

theorem find?_eq_some {k : κ} : t.find? k = some row ↔ row ∈ t.rows ∧ key row = k :=
  Ordered.find?_eq_some_of_inj fun _ h _ h' => eq_of_key_eq h h'

theorem mem_insertOrReplace {r : ρ} :
    r ∈ (t.insertOrReplace row).rows ↔ r = row ∨ r ∈ t.rows ∧ key r ≠ key row := by
  simp only [insertOrReplace, mem_append, mem_filter, mem_singleton, decide_eq_true_eq]
  exact or_comm

theorem find?_insertOrReplace (t : KeyedTable ρ key) (row : ρ) (k : κ) :
    (t.insertOrReplace row).find? k = if key row = k then some row else t.find? k := by
  ext r
  rw [find?_eq_some, mem_insertOrReplace]
  by_cases hk : key row = k
  · rw [if_pos hk, some.injEq]
    constructor
    · rintro ⟨rfl | ⟨-, hne⟩, hkey⟩
      · rfl
      · exact absurd (hkey.trans hk.symm) hne
    · rintro rfl
      exact ⟨.inl rfl, hk⟩
  · rw [if_neg hk, find?_eq_some]
    constructor
    · rintro ⟨rfl | ⟨hmem, -⟩, hkey⟩
      · exact absurd hkey hk
      · exact ⟨hmem, hkey⟩
    · rintro ⟨hmem, hkey⟩
      exact ⟨.inr ⟨hmem, fun h => hk (h.symm.trans hkey)⟩, hkey⟩

theorem find?_deleteWhere {p : ρ → Bool} {k : κ} :
    (t.deleteWhere p).find? k = some row ↔ t.find? k = some row ∧ p row = false := by
  rw [find?_eq_some, find?_eq_some, deleteWhere, mem_filter, Bool.not_eq_true']
  exact and_right_comm

/-- A row inserted for each element of a list: the last one with a key stays. -/
theorem find?_foldl_insertOrReplace {α : Type*} (f : α → ρ) (l : List α) (t : KeyedTable ρ key)
    (k : κ) : (l.foldl (fun t x => t.insertOrReplace (f x)) t).find? k =
      ((l.reverse.find? fun x => key (f x) = k).map f).or (t.find? k) := by
  induction l generalizing t with
  | nil => rfl
  | cons x l ih =>
    rw [foldl_cons, ih, find?_insertOrReplace, reverse_cons, find?_append]
    cases hlast : l.reverse.find? fun x => key (f x) = k with
    | some y => rfl
    | none =>
      by_cases hk : key (f x) = k
      · simp [hk]
      · simp [hk]

/-- Where rows with one key are one row, the table holds the rows that were inserted. -/
theorem mem_foldl_insertOrReplace {l : List ρ} (h : ∀ a ∈ l, ∀ b ∈ l, key a = key b → a = b) :
    row ∈ (l.foldl insertOrReplace (empty : KeyedTable ρ key)).rows ↔ row ∈ l := by
  have hself : row ∈ (l.foldl insertOrReplace (empty : KeyedTable ρ key)).rows ↔
      (l.foldl insertOrReplace (empty : KeyedTable ρ key)).find? (key row) = some row := by
    rw [find?_eq_some]
    exact ⟨fun hrow => ⟨hrow, rfl⟩, fun hrow => hrow.1⟩
  have hlast : (l.foldl insertOrReplace (empty : KeyedTable ρ key)).find? (key row) =
      l.reverse.find? (key · = key row) :=
    (find?_foldl_insertOrReplace id l empty (key row)).trans (or_none.trans (congrFun map_id _))
  rw [hself, hlast, Ordered.find?_eq_some_of_inj]
  · rw [mem_reverse]
    exact ⟨fun hrow => hrow.1, fun hrow => ⟨hrow, rfl⟩⟩
  · exact fun a ha b hb => h a (mem_reverse.mp ha) b (mem_reverse.mp hb)

theorem find?_insertOrIgnore (t : KeyedTable ρ key) (row : ρ) (k : κ) :
    (t.insertOrIgnore row).find? k = (t.find? k).or (if key row = k then some row else none) := by
  rw [insertOrIgnore]
  by_cases hheld : t.rows.any (key · = key row)
  · rw [if_pos hheld]
    by_cases hk : key row = k
    · subst hk
      obtain ⟨old, hold⟩ := isSome_iff_exists.mp (find?_isSome.mpr (any_eq_true.mp hheld))
      rw [find?, hold, some_or]
    · rw [if_neg hk, or_none]
  · rw [if_neg hheld, find?_insertOrReplace]
    by_cases hk : key row = k
    · have hnone : t.find? k = none := by
        rw [find?, ← hk, find?_eq_none]
        exact fun old hold h => hheld (any_eq_true.mpr ⟨old, hold, h⟩)
      rw [if_pos hk, if_pos hk, hnone, none_or]
    · rw [if_neg hk, if_neg hk, or_none]

/-- A row offered for each element of a list: the first one with a key stays. -/
theorem find?_foldl_insertOrIgnore {α : Type*} (f : α → ρ) (l : List α) (t : KeyedTable ρ key)
    (k : κ) : (l.foldl (fun t x => t.insertOrIgnore (f x)) t).find? k =
      (t.find? k).or ((l.find? fun x => key (f x) = k).map f) := by
  induction l generalizing t with
  | nil => exact (or_none).symm
  | cons x l ih =>
    rw [foldl_cons, ih, find?_insertOrIgnore, Option.or_assoc]
    by_cases hk : key (f x) = k
    · simp [hk]
    · simp [hk]

end KeyedTable

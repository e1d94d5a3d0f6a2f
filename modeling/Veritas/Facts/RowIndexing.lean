import Veritas.Facts.ResultCanonicalizer

/-! Interned rows: what an index of roots and results says, and renaming ids to keys. -/
namespace Veritas

open Function Hypergraph Relaxation StatusOr List

/-- The rows of the roots. -/
def rootRowsOf (roots : List RootedInputFact) : List SemanticRow := roots.map (·.fact.row)

/-- An index of these roots and results: every id has its key, every table its rows. -/
structure Indexes (ix : RowIndex) (roots results : List SemanticRow) : Prop where
  root : ∀ id row, ix.rootRows id = some row ↔
    row ∈ roots ∧ ix.rows.Names id (encodeSemanticKey row)
  result : ∀ id row, ix.resultRows id = some row ↔
    row ∈ results ∧ ix.rows.Names id (encodeSemanticKey row)
  ids : ∀ id, id ∈ ix.resultRowIds ↔ (ix.resultRows id).isSome
  nodup : ix.resultRowIds.Nodup
  keys : ∀ k, k ∈ ix.rows.keys ↔ k ∈ (roots ++ results).map encodeSemanticKey

variable {t : Interner String}

/-- Interning one more row keeps what the others are named. -/
theorem names_intern_iff {key k : String} {id : ℕ} (hk : k ∈ t.keys) :
    (t.intern key).1.Names id k ↔ t.Names id k := by
  obtain ⟨-, hold, -⟩ := t.intern_names key
  constructor
  · intro h
    have hnames := Interner.names_of_mem hk
    rwa [← (hold _ _ hnames).inj h]
  · exact hold id k

section Index

variable {ix ix' : RowIndex} {roots results : List SemanticRow}

variable {r row : SemanticRow} {rows : List SemanticRow} {table : ℕ → Option SemanticRow}
  {root : RootedInputFact}

/-- A table that keeps the first row under an id, where rows with one key are equal. -/
theorem table_update
    (htable : ∀ id r, table id = some r ↔ r ∈ rows ∧ t.Names id (encodeSemanticKey r))
    (hkeys : ∀ r ∈ rows, encodeSemanticKey r ∈ t.keys)
    (hinj : ∀ r ∈ rows, encodeSemanticKey r = encodeSemanticKey row → r = row) :
    let interned := t.intern (encodeSemanticKey row)
    let table' := if (table interned.2).isSome then table
      else update table interned.2 (some row)
    ∀ id r, table' id = some r ↔ r ∈ rows ++ [row] ∧ interned.1.Names id (encodeSemanticKey r) := by
  intro interned table' id r
  obtain ⟨hnew, hold, -⟩ := t.intern_names (encodeSemanticKey row)
  have hmem : r ∈ rows ++ [row] ↔ r ∈ rows ∨ r = row := by simp
  rw [hmem]
  by_cases hsome : (table interned.2).isSome
  · have htab : table' = table := if_pos hsome
    obtain ⟨r₀, hr₀⟩ := Option.isSome_iff_exists.mp hsome
    obtain ⟨hr₀mem, hr₀names⟩ := (htable _ _).mp hr₀
    have hkey : encodeSemanticKey r₀ = encodeSemanticKey row := (hold _ _ hr₀names).unique hnew
    obtain rfl := hinj r₀ hr₀mem hkey
    rw [htab, htable]
    constructor
    · rintro ⟨hr, hnames⟩
      exact ⟨.inl hr, hold _ _ hnames⟩
    · rintro ⟨hr, hnames⟩
      have hr : r ∈ rows := by
        rcases hr with hr | rfl
        · exact hr
        · exact hr₀mem
      exact ⟨hr, (names_intern_iff (hkeys r hr)).mp hnames⟩
  · have htab : table' = update table interned.2 (some row) := if_neg hsome
    have hnone : table interned.2 = none := Option.not_isSome_iff_eq_none.mp hsome
    rw [htab]
    by_cases hid : id = interned.2
    · subst hid
      rw [update_self, Option.some.injEq]
      constructor
      · rintro rfl
        exact ⟨.inr rfl, hnew⟩
      · rintro ⟨hr | rfl, hnames⟩
        · exact (hinj r hr (hnames.unique hnew)).symm
        · rfl
    · rw [update_of_ne hid, htable]
      constructor
      · rintro ⟨hr, hnames⟩
        exact ⟨.inl hr, hold _ _ hnames⟩
      · rintro ⟨hr | rfl, hnames⟩
        · exact ⟨hr, (names_intern_iff (hkeys r hr)).mp hnames⟩
        · exact absurd (hnames.inj hnew) hid

theorem indexes_empty : Indexes .empty [] [] := by
  refine ⟨?_, ?_, ?_, nodup_nil, ?_⟩ <;>
    simp [RowIndex.empty, Interner.empty]

/-- Interning renames no row of a table that stays. -/
theorem table_same {key : String}
    (htable : ∀ id r, table id = some r ↔ r ∈ rows ∧ t.Names id (encodeSemanticKey r))
    (hkeys : ∀ r ∈ rows, encodeSemanticKey r ∈ t.keys) (id : ℕ) (r : SemanticRow) :
    table id = some r ↔ r ∈ rows ∧ (t.intern key).1.Names id (encodeSemanticKey r) := by
  rw [htable]
  exact and_congr_right fun hr => (names_intern_iff (hkeys r hr)).symm

theorem Indexes.root_key (h : Indexes ix roots results) (hr : r ∈ roots) :
    encodeSemanticKey r ∈ ix.rows.keys :=
  (h.keys _).mpr (List.mem_map_of_mem (List.mem_append_left _ hr))

theorem Indexes.result_key (h : Indexes ix roots results) (hr : r ∈ results) :
    encodeSemanticKey r ∈ ix.rows.keys :=
  (h.keys _).mpr (List.mem_map_of_mem (List.mem_append_right _ hr))

theorem addRoot_eq_ok : ix.addRoot root = .ok ix' ↔
    validateSemanticRow root.fact.row = .ok () ∧
      ix' = { ix with
        rows := (ix.rows.intern (encodeSemanticKey root.fact.row)).1
        rootRows :=
          if (ix.rootRows (ix.rows.intern (encodeSemanticKey root.fact.row)).2).isSome then
            ix.rootRows
          else update ix.rootRows
            (ix.rows.intern (encodeSemanticKey root.fact.row)).2 (some root.fact.row) } := by
  unfold RowIndex.addRoot
  rw [bind_unit_eq_ok]
  refine and_congr_right fun _ => ?_
  dsimp only
  split_ifs with h <;> rw [pure_eq_ok] <;> exact eq_comm

theorem addResult_eq_ok : ix.addResult row = .ok ix' ↔
    validateSemanticRow row = .ok () ∧
      ix' = { ix with
        rows := (ix.rows.intern (encodeSemanticKey row)).1
        resultRows :=
          if (ix.resultRows (ix.rows.intern (encodeSemanticKey row)).2).isSome then ix.resultRows
          else update ix.resultRows (ix.rows.intern (encodeSemanticKey row)).2 (some row)
        resultRowIds :=
          if (ix.resultRows (ix.rows.intern (encodeSemanticKey row)).2).isSome then
            ix.resultRowIds
          else ix.resultRowIds ++ [(ix.rows.intern (encodeSemanticKey row)).2] } := by
  unfold RowIndex.addResult
  rw [bind_unit_eq_ok]
  refine and_congr_right fun _ => ?_
  dsimp only
  split_ifs with h <;> rw [pure_eq_ok] <;> exact eq_comm

theorem mem_keys_intern (h : ∀ k, k ∈ t.keys ↔ k ∈ rows.map encodeSemanticKey) (row : SemanticRow)
    (k : String) :
    k ∈ (t.intern (encodeSemanticKey row)).1.keys ↔
      k ∈ rows.map encodeSemanticKey ∨ k = encodeSemanticKey row := by
  rw [(t.intern_names _).2.2 k, h]

theorem Indexes.addRoot (h : Indexes ix roots results)
    (hvalid : ∀ r ∈ roots, validateSemanticRow r = .ok ()) (hadd : ix.addRoot root = .ok ix') :
    Indexes ix' (roots ++ [root.fact.row]) results := by
  obtain ⟨hv, rfl⟩ := addRoot_eq_ok.mp hadd
  refine ⟨?_, ?_, h.ids, h.nodup, ?_⟩
  · refine table_update h.root (fun r hr => h.root_key hr) fun r hr heq => ?_
    exact encodeSemanticKey_inj (hvalid r hr) hv heq
  · exact table_same h.result fun r hr => h.result_key hr
  · intro k
    rw [mem_keys_intern h.keys]
    simp only [map_append, mem_append, map_cons, map_nil, mem_singleton]
    tauto

theorem Indexes.addResult (h : Indexes ix roots results)
    (hvalid : ∀ r ∈ results, validateSemanticRow r = .ok ()) (hadd : ix.addResult row = .ok ix') :
    Indexes ix' roots (results ++ [row]) := by
  obtain ⟨hv, rfl⟩ := addResult_eq_ok.mp hadd
  refine ⟨?_, ?_, ?_, ?_, ?_⟩
  · exact table_same h.root fun r hr => h.root_key hr
  · refine table_update h.result (fun r hr => h.result_key hr) fun r hr heq => ?_
    exact encodeSemanticKey_inj (hvalid r hr) hv heq
  · intro id
    dsimp only
    split_ifs with hsome
    · exact h.ids id
    · by_cases hid : id = (ix.rows.intern (encodeSemanticKey row)).2
      · subst hid
        simp
      · rw [mem_append, mem_singleton, update_of_ne hid, h.ids]
        simp [hid]
  · split_ifs with hsome
    · exact h.nodup
    · exact h.nodup.append (nodup_singleton _) (disjoint_singleton.mpr (mt (h.ids _).mp hsome))
  · intro k
    rw [mem_keys_intern h.keys]
    simp only [map_append, mem_append, map_cons, map_nil, mem_singleton]
    tauto

/-- An index is made exactly of valid roots and results. -/
theorem indexRows_eq_ok {roots : List RootedInputFact} (h : indexRows roots results = .ok ix) :
    (∀ r ∈ rootRowsOf roots, validateSemanticRow r = .ok ()) ∧
      (∀ r ∈ results, validateSemanticRow r = .ok ()) ∧
        Indexes ix (rootRowsOf roots) results := by
  obtain ⟨mid, hroots, hresults⟩ := bind_eq_ok.mp h
  obtain ⟨hvalid, hmid⟩ := foldlM_invariant
    (P := fun pre ix => (∀ r ∈ rootRowsOf pre, validateSemanticRow r = .ok ()) ∧
      Indexes ix (rootRowsOf pre) []) ⟨by simp [rootRowsOf], indexes_empty⟩ (by
    rintro pre root s s' ⟨hvalid, hix⟩ hadd
    have hmap : rootRowsOf (pre ++ [root]) = rootRowsOf pre ++ [root.fact.row] := by
      simp [rootRowsOf]
    rw [hmap]
    refine ⟨?_, hix.addRoot hvalid hadd⟩
    have hv := (addRoot_eq_ok.mp hadd).1
    simpa [or_imp, forall_and, hv] using hvalid) hroots
  obtain ⟨hvalid', hix⟩ := foldlM_invariant
    (P := fun pre ix => (∀ r ∈ pre, validateSemanticRow r = .ok ()) ∧
      Indexes ix (rootRowsOf roots) pre) ⟨by simp, hmid⟩ (by
    rintro pre row s s' ⟨hvalid, hix⟩ hadd
    refine ⟨?_, hix.addResult hvalid hadd⟩
    have hv := (addResult_eq_ok.mp hadd).1
    simpa [or_imp, forall_and, hv] using hvalid) hresults
  exact ⟨hvalid, hvalid', hix⟩

theorem indexRows_isOk {roots : List RootedInputFact}
    (hroots : ∀ r ∈ rootRowsOf roots, validateSemanticRow r = .ok ())
    (hresults : ∀ r ∈ results, validateSemanticRow r = .ok ()) :
    ∃ ix, indexRows roots results = .ok ix := by
  obtain ⟨mid, hmid, -⟩ := foldlM_isOk (f := RowIndex.addRoot) (s := .empty)
    (l := roots) (fun _ _ => True) trivial (by
    rintro pre root post rfl s -
    refine ⟨_, addRoot_eq_ok.mpr ⟨hroots _ ?_, rfl⟩, trivial⟩
    simp [rootRowsOf])
  obtain ⟨ix, hix, -⟩ := foldlM_isOk (f := RowIndex.addResult) (s := mid)
    (l := results) (fun _ _ => True) trivial (by
    rintro pre row post rfl s -
    exact ⟨_, addResult_eq_ok.mpr ⟨hresults _ (by simp), rfl⟩, trivial⟩)
  exact ⟨ix, bind_eq_ok.mpr ⟨mid, hmid, hix⟩⟩

end Index

end Veritas

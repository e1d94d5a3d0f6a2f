import Veritas.Facts.OrderIndependence
import Veritas.Wpa.ResultCodec

/-! What can be trusted of a result that was loaded from the cache. -/
namespace Veritas

open WpaRunRepository StatusOr Option

variable {sha256 : String → String} {cache : ResultCache} {d : ResultCacheDescriptor}
  {result : StoredResult}

/-! The hashes of rows in the table are those of the typed rows. -/

/-- The relation id of the row is inside the relation table. -/
def MachineRow.InTable (row : MachineRow) : Prop := row.relation.toNat < relationIds.length

variable {row : MachineRow} {witnesses : List MachineEdge}

theorem encodeMachineKey_isSome_iff : (encodeMachineKey row).isSome ↔ row.InTable := by
  rw [encodeMachineKey, isSome_map]
  simp [relationAt, MachineRow.InTable]

theorem inTable_of_valid (h : validateMachineRow row = .ok ()) : row.InTable :=
  encodeMachineKey_isSome_iff.mp (encodeMachineKey_isSome h)

theorem keyEdge_isSome_iff {edge : MachineEdge} :
    (keyEdge edge).isSome ↔ edge.result.InTable ∧ edge.input.InTable := by
  rw [← encodeMachineKey_isSome_iff, ← encodeMachineKey_isSome_iff, keyEdge]
  cases encodeMachineKey edge.result with
  | none => simp
  | some result =>
    cases encodeMachineKey edge.input with
    | none => simp
    | some input => simp

theorem computeMachineResultHashes_isSome_iff {facts : List MachineFact} :
    (computeMachineResultHashes sha256 facts witnesses).isSome ↔
      (∀ f ∈ facts, f.row.InTable) ∧
        ∀ e ∈ witnesses, e.result.InTable ∧ e.input.InTable := by
  have hfacts : (facts.mapM (encodeMachineKey ·.row)).isSome ↔ ∀ f ∈ facts, f.row.InTable := by
    rw [Ordered.mapM_isSome_iff]
    exact forall₂_congr fun f _ => encodeMachineKey_isSome_iff
  have hedges : (witnesses.mapM keyEdge).isSome ↔
      ∀ e ∈ witnesses, e.result.InTable ∧ e.input.InTable := by
    rw [Ordered.mapM_isSome_iff]
    exact forall₂_congr fun e _ => keyEdge_isSome_iff
  rw [← hfacts, ← hedges, computeMachineResultHashes]
  cases facts.mapM (encodeMachineKey ·.row) with
  | none => simp
  | some keys =>
    cases witnesses.mapM keyEdge with
    | none => simp
    | some edges => simp

theorem checkFact_eq_ok {fact : MachineFact} :
    checkFact sha256 fact = .ok () ↔ deriveMachineFactId sha256 fact.row = .ok fact.factId := by
  unfold checkFact
  cases hid : deriveMachineFactId sha256 fact.row with
  | error status => simp
  | ok id =>
    by_cases hsame : id = fact.factId
    · simp [hsame, pure, Except.pure]
    · simp [hsame]

/-- A metadata row of the descriptor, whose object decodes to a result for the descriptor with
every fact under the id of its row. -/
structure CacheEntry (sha256 : String → String) (cache : ResultCache) (d : ResultCacheDescriptor)
    (row : ResultCacheRow) (result : StoredResult) : Prop where
  selected : ∃ columns rest, cache.query (d.key sha256) = .ok (columns :: rest) ∧
    ResultCacheRow.ofColumns columns = some row
  describes : row.Describes d
  object : ∃ bytes, cache.get row.resultObjectKey = .ok bytes ∧ deserializeResult bytes = .ok result
  answers : result.Answers d
  facts : ∀ f ∈ result.facts, deriveMachineFactId sha256 f.row = .ok f.factId

theorem fetchResult_eq_some : fetchResult sha256 cache d = .ok (some result) ↔
    ∃ row, CacheEntry sha256 cache d row result := by
  constructor
  · intro h
    obtain ⟨rows, hrows, h⟩ := bind_eq_ok.mp h
    cases rows with
    | nil => cases pure_eq_ok.mp h
    | cons columns rest =>
      cases hrow : ResultCacheRow.ofColumns columns with
      | none => simp [hrow] at h
      | some row =>
        simp only [hrow] at h
        obtain ⟨hdescribes, h⟩ := guard_eq_ok.mp h
        obtain ⟨bytes, hbytes, h⟩ := bind_eq_ok.mp h
        obtain ⟨read, hread, h⟩ := bind_eq_ok.mp h
        obtain ⟨hanswers, h⟩ := guard_eq_ok.mp h
        obtain ⟨hfacts, h⟩ := bind_unit_eq_ok.mp h
        obtain rfl := some.inj (pure_eq_ok.mp h)
        exact ⟨row, ⟨columns, rest, hrows, hrow⟩, not_not.mp hdescribes, ⟨bytes, hbytes, hread⟩,
          not_not.mp hanswers, fun f hf => checkFact_eq_ok.mp (forM_eq_ok.mp hfacts f hf)⟩
  · rintro ⟨row, ⟨columns, rest, hrows, hrow⟩, hdescribes, ⟨bytes, hbytes, hread⟩, hanswers, hfacts⟩
    refine bind_eq_ok.mpr ⟨_, hrows, ?_⟩
    simp only [hrow]
    refine guard_eq_ok.mpr ⟨not_not.mpr hdescribes, bind_eq_ok.mpr
      ⟨bytes, hbytes, bind_eq_ok.mpr ⟨result, hread, guard_eq_ok.mpr
        ⟨not_not.mpr hanswers, bind_unit_eq_ok.mpr ⟨?_, rfl⟩⟩⟩⟩⟩
    exact forM_eq_ok.mpr fun f hf => checkFact_eq_ok.mpr (hfacts f hf)

/-- The answer to a load that finds an entry. -/
theorem load_entry {row : ResultCacheRow} (h : CacheEntry sha256 cache d row result) :
    loadReusableComponent sha256 cache d =
      (computeMachineResultHashes sha256 result.facts result.witnesses).map fun hashes =>
        if hashes.fixpointHash ≠ result.fixpointHash ∨ hashes.externalHash ≠ result.externalHash then
          throw (.failedPrecondition "cached result hashes do not match its content")
        else pure (some result) := by
  rw [loadReusableComponent, fetchResult_eq_some.mpr ⟨row, h⟩]

/-- A load that returns a result found it in an entry, with the hashes of its content. -/
theorem load_eq_some : loadReusableComponent sha256 cache d = some (.ok (some result)) ↔
    (∃ row, CacheEntry sha256 cache d row result) ∧
      computeMachineResultHashes sha256 result.facts result.witnesses =
        some ⟨result.fixpointHash, result.externalHash⟩ := by
  constructor
  · intro h
    cases hfetch : fetchResult sha256 cache d with
    | error status => simp [loadReusableComponent, hfetch] at h
    | ok found =>
      cases found with
      | none => simp [loadReusableComponent, hfetch, pure, Except.pure] at h
      | some found =>
        rw [loadReusableComponent, hfetch, map_eq_some_iff] at h
        obtain ⟨hashes, hhashes, h⟩ := h
        by_cases hdiffer : hashes.fixpointHash ≠ found.fixpointHash ∨
            hashes.externalHash ≠ found.externalHash
        · rw [if_pos hdiffer] at h
          cases h
        · rw [if_neg hdiffer] at h
          obtain rfl := some.inj (pure_eq_ok.mp h)
          push Not at hdiffer
          refine ⟨fetchResult_eq_some.mp hfetch, ?_⟩
          rw [hhashes, ← hdiffer.1, ← hdiffer.2]
  · rintro ⟨⟨row, hentry⟩, hhashes⟩
    rw [load_entry hentry, hhashes]
    simp [pure, Except.pure]

/-- A row that fits the schema of a relation in the table. -/
def MachineRow.SchemaValid (row : MachineRow) : Prop :=
  validateMachineRow row = .ok () ∧ row.InTable

/-- What a loaded result has to be for the row it was selected by. -/
structure Trusted (sha256 : String → String) (d : ResultCacheDescriptor) (row : ResultCacheRow)
    (result : StoredResult) : Prop where
  answers : result.Answers d
  facts : ∀ f ∈ result.facts, f.row.SchemaValid
  witnesses : ∀ e ∈ result.witnesses, e.result.SchemaValid ∧ e.input.SchemaValid
  hashes : computeMachineResultHashes sha256 result.facts result.witnesses =
    some ⟨row.fixpointHash, row.externalHash⟩

/-- A load ends, and what it returns can be trusted for the row it was selected by. -/
def SafeLoad (sha256 : String → String) (cache : ResultCache) (d : ResultCacheDescriptor) : Prop :=
  ∃ answer, loadReusableComponent sha256 cache d = some answer ∧
    ∀ result, answer = .ok (some result) → ∃ columns rest row,
      cache.query (d.key sha256) = .ok (columns :: rest) ∧
        ResultCacheRow.ofColumns columns = some row ∧ Trusted sha256 d row result

/-- The stored entry, if there is one, has witness rows of relations in the table, and if its
hashes are those of its content then these rows fit their schemas and the metadata row has the
same hashes. -/
def IntactEntry (sha256 : String → String) (cache : ResultCache) (d : ResultCacheDescriptor) :
    Prop :=
  ∀ row result, CacheEntry sha256 cache d row result →
    (∀ e ∈ result.witnesses, e.result.InTable ∧ e.input.InTable) ∧
    (computeMachineResultHashes sha256 result.facts result.witnesses =
        some ⟨result.fixpointHash, result.externalHash⟩ →
      (∀ e ∈ result.witnesses, e.result.SchemaValid ∧ e.input.SchemaValid) ∧
        result.fixpointHash = row.fixpointHash ∧ result.externalHash = row.externalHash)

theorem CacheEntry.facts_valid {row : ResultCacheRow} (h : CacheEntry sha256 cache d row result) :
    ∀ f ∈ result.facts, f.row.SchemaValid := by
  intro f hf
  have hvalid := (bind_unit_eq_ok.mp (h.facts f hf)).1
  exact ⟨hvalid, inTable_of_valid hvalid⟩

theorem safeLoad_of_intact (h : IntactEntry sha256 cache d) : SafeLoad sha256 cache d := by
  cases hload : loadReusableComponent sha256 cache d with
  | none =>
    -- only an entry reaches the hashes, and the rows of an intact one are in the table
    cases hfetch : fetchResult sha256 cache d with
    | error status => simp [loadReusableComponent, hfetch] at hload
    | ok found =>
      cases found with
      | none => simp [loadReusableComponent, hfetch] at hload
      | some result =>
        obtain ⟨row, hentry⟩ := fetchResult_eq_some.mp hfetch
        have hsome := (@computeMachineResultHashes_isSome_iff sha256 _ _).mpr
          ⟨fun f hf => (hentry.facts_valid f hf).2, (h row result hentry).1⟩
        rw [load_entry hentry, map_eq_none_iff] at hload
        rw [hload] at hsome
        cases hsome
  | some answer =>
    refine ⟨answer, hload, fun result hanswer => ?_⟩
    rw [hanswer] at hload
    obtain ⟨⟨row, hentry⟩, hhashes⟩ := load_eq_some.mp hload
    obtain ⟨hwitnesses, hfixpoint, hexternal⟩ := (h row result hentry).2 hhashes
    obtain ⟨columns, rest, hquery, hrow⟩ := hentry.selected
    refine ⟨columns, rest, row, hquery, hrow, hentry.answers, hentry.facts_valid, hwitnesses, ?_⟩
    rw [hhashes, hfixpoint, hexternal]

theorem intact_of_safeLoad (h : SafeLoad sha256 cache d) : IntactEntry sha256 cache d := by
  intro row result hentry
  obtain ⟨answer, hload, hsafe⟩ := h
  constructor
  · have hsome : (computeMachineResultHashes sha256 result.facts result.witnesses).isSome := by
      rw [load_entry hentry, map_eq_some_iff] at hload
      obtain ⟨hashes, hhashes, -⟩ := hload
      rw [hhashes]
      rfl
    exact (computeMachineResultHashes_isSome_iff.mp hsome).2
  · intro hhashes
    rw [load_eq_some.mpr ⟨⟨row, hentry⟩, hhashes⟩] at hload
    obtain ⟨columns, rest, row', hquery, hrow, htrusted⟩ := hsafe result (some.inj hload).symm
    obtain ⟨columns', rest', hquery', hrow'⟩ := hentry.selected
    rw [hquery] at hquery'
    obtain ⟨rfl, -⟩ := List.cons.inj (Except.ok.inj hquery')
    obtain rfl : row' = row := some.inj (hrow.symm.trans hrow')
    have hsame := some.inj (hhashes.symm.trans htrusted.hashes)
    exact ⟨htrusted.witnesses, CanonicalResultHashes.mk.inj hsame⟩

def sampleScc : StableId := ⟨.scc, String.ofList (List.replicate 64 '0')⟩

def sampleDescriptor : ResultCacheDescriptor :=
  ⟨.souffle, "", "", sampleScc, .reachability, "", "", "", "", "", ""⟩

/-- A witness without cells. -/
def emptyEdge (relation : UInt16) : MachineEdge := ⟨⟨relation, []⟩, "", "", ⟨relation, []⟩, 0⟩

def sampleResult (witnesses : List MachineEdge) : StoredResult :=
  ⟨sampleScc, 0, "", "h", "h", [], witnesses, []⟩

/-- A cache with one entry, whose metadata row records a hash of its own. -/
def sampleCache (result : StoredResult) (recorded : String) : ResultCache :=
  ⟨fun _ => .ok [["o", "", "", "", "", "", recorded, recorded]],
    fun _ => .ok (serializeResult result)⟩

theorem sampleResult_storable (h : ∀ e ∈ witnesses, ∃ relation, e = emptyEdge relation)
    (hshort : witnesses.length < 2 ^ 32) : (sampleResult witnesses).Storable := by
  have htext : ∀ text ∈ ["", "h", sampleScc.toString], Storable text := by
    have hall : ∀ text ∈ ["", "h", sampleScc.toString],
        text.toList.all (·.toNat < 256) = true ∧ text.length ≤ 100 := by
      refine List.forall_mem_cons.mpr ⟨by decide, List.forall_mem_cons.mpr ⟨by decide, ?_⟩⟩
      exact List.forall_mem_singleton.mpr (by decide +kernel)
    intro text ht
    obtain ⟨hbytes, hlength⟩ := hall text ht
    exact ⟨by simpa using hbytes, by omega⟩
  have hparse : parseStableId sampleScc.toString = .ok sampleScc := by decide +kernel
  refine ⟨⟨htext _ (by simp [sampleResult]), hparse⟩, htext _ (by simp [sampleResult]),
    htext _ (by simp [sampleResult]), htext _ (by simp [sampleResult]), by simp [sampleResult],
    fun e he => ?_, by simp [sampleResult], by simp [sampleResult], hshort, by simp [sampleResult]⟩
  obtain ⟨relation, rfl⟩ := h e he
  have hrow : (MachineRow.mk relation []).Storable := ⟨by simp, by simp⟩
  exact ⟨hrow, htext _ (by simp [emptyEdge]), rfl, hrow, by simp [emptyEdge]⟩

theorem sampleCache_entry (sha256 : String → String)
    (h : ∀ e ∈ witnesses, ∃ relation, e = emptyEdge relation) (hshort : witnesses.length < 2 ^ 32)
    (recorded : String) : CacheEntry sha256 (sampleCache (sampleResult witnesses) recorded)
      sampleDescriptor ⟨"o", "", "", "", "", "", recorded, recorded⟩ (sampleResult witnesses) :=
  ⟨⟨_, _, rfl, rfl⟩, ⟨rfl, rfl, rfl, rfl, rfl⟩,
    ⟨_, rfl, deserialize_serialize (sampleResult_storable h hshort)⟩, ⟨rfl, rfl, rfl⟩,
    by simp [sampleResult]⟩

end Veritas

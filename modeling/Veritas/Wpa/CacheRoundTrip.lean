import Veritas.Facts.AssembledBatch
import Veritas.Library.KeyedTable
import Veritas.Library.OrderedMap
import Veritas.Wpa.CachedResult

/-! A component result that was stored and flushed is loaded as it was. -/
namespace Veritas

open FieldCode StatusOr WpaRunRepository List

/-- The manifest fields that name a cached result. -/
structure CacheManifest where
  engine : EngineIdentity
  engineToolchainIdentity : String
  summarySchemaVersion : String
  relationSchemaVersion : String
  ruleBundleVersion : String
  modelBundleVersion : String
  svfConfigurationHash : String
  wpaConfigurationHash : String

def makeResultCacheDescriptor (run : CacheManifest) (key : WpaComponentKey)
    (logicalInputHash : String) : ResultCacheDescriptor where
  engine := run.engine
  engineToolchainIdentity := run.engineToolchainIdentity
  logicalInputHash := logicalInputHash
  sccId := key.sccId
  component := key.component
  summarySchemaVersion := run.summarySchemaVersion
  relationSchemaVersion := run.relationSchemaVersion
  ruleBundleVersion := run.ruleBundleVersion
  modelBundleVersion := run.modelBundleVersion
  svfConfigurationHash := run.svfConfigurationHash
  wpaConfigurationHash := run.wpaConfigurationHash

def makeResult (key : WpaComponentKey) (logicalInputHash : String) (canonical : CanonicalizedResult) :
    WpaComponentResult :=
  ⟨key.sccId, key.component, logicalInputHash, canonical.fixpointHash, canonical.externalHash,
    canonical.facts.map (·.machine), canonical.witnesses.map (·.machine), canonical.diagnostics⟩

def WpaComponentResult.stored (result : WpaComponentResult) : StoredResult :=
  ⟨result.sccId, result.component.byte, result.logicalInputHash, result.fixpointHash,
    result.externalHash, result.facts, result.witnesses, result.diagnostics⟩

/-- Empty derivation keys are all that it takes to store the result. -/
def StoredResult.Fits (result : StoredResult) : Prop :=
  (∀ e ∈ result.witnesses, e.derivationKey = "") → result.Storable

/-- A row of the result cache. Its other columns, the object key among them, follow from the
descriptor it was written for. -/
structure CacheTableRow where
  descriptor : ResultCacheDescriptor
  fixpointHash : String
  externalHash : String

def CacheTableRow.columns (sha256 : String → String) (row : CacheTableRow) : List String :=
  [row.descriptor.key sha256, row.descriptor.logicalInputHash,
    row.descriptor.engineToolchainIdentity, row.descriptor.relationSchemaVersion,
    row.descriptor.ruleBundleVersion, row.descriptor.modelBundleVersion, row.fixpointHash,
    row.externalHash]

structure WpaRunRepository (sha256 : String → String) where
  componentResults : OrderedMap String (List UInt8)
  resultCache : KeyedTable CacheTableRow (·.descriptor.key sha256)
  pendingCacheRows : List CacheTableRow

namespace WpaRunRepository

variable {sha256 : String → String} (r : WpaRunRepository sha256)

/-- What a load reads of the repository. -/
def cache : ResultCache where
  query key := .ok ((r.resultCache.rows.filter (·.descriptor.key sha256 = key)).map
    (·.columns sha256))
  get key :=
    match r.componentResults.find? key with
    | some bytes => .ok bytes
    | none => .error (.notFound "ObjectStore: key not found")

def putIfAbsent (key : String) (bytes : List UInt8) : StatusOr (WpaRunRepository sha256) :=
  match r.componentResults.find? key with
  | some held =>
    if held ≠ bytes then throw (.internal "ObjectStore: key exists with different content")
    else pure r
  | none => pure { r with componentResults := r.componentResults.assign key bytes }

def flushComponentCache : WpaRunRepository sha256 :=
  { r with
    resultCache := r.pendingCacheRows.foldl (fun t row => t.insertOrIgnore row) r.resultCache
    pendingCacheRows := [] }

def kComponentCacheBatchSize : ℕ := 256

/-- A row of the result cache is queued; that of the component states is not read by a load. -/
def storeSuccessfulComponent (run : CacheManifest) (key : WpaComponentKey)
    (result : WpaComponentResult) :
    StatusOr (WpaRunRepository sha256 × WpaComponentCompletion) := do
  let descriptor := makeResultCacheDescriptor run key result.logicalInputHash
  let r ← r.putIfAbsent (descriptor.key sha256) (serializeResult result.stored)
  let r := { r with pendingCacheRows :=
    r.pendingCacheRows ++ [⟨descriptor, result.fixpointHash, result.externalHash⟩] }
  let r := if kComponentCacheBatchSize ≤ r.pendingCacheRows.length then r.flushComponentCache else r
  return (r, ⟨key, descriptor.key sha256, result⟩)

/-- A row written for a descriptor with the digest of this one was written for this one. -/
def NoCollision (d : ResultCacheDescriptor) : Prop :=
  ∀ row, row ∈ r.resultCache.rows ∨ row ∈ r.pendingCacheRows →
    row.descriptor.key sha256 = d.key sha256 → row.descriptor.encode = d.encode

variable {r} {r' : WpaRunRepository sha256} {run : CacheManifest} {key : WpaComponentKey}
  {result : WpaComponentResult} {bytes : List UInt8} {cacheKey : String}
  {d : ResultCacheDescriptor} {stored : WpaRunRepository sha256 × WpaComponentCompletion}

theorem find?_flush (k : String) : r.flushComponentCache.resultCache.find? k =
    (r.resultCache.find? k).or (r.pendingCacheRows.find? (·.descriptor.key sha256 = k)) := by
  rw [flushComponentCache, KeyedTable.find?_foldl_insertOrIgnore, Option.map_id']

theorem NoCollision.flush (h : r.NoCollision d) : r.flushComponentCache.NoCollision d := by
  intro row hrow
  have hrow := KeyedTable.find?_eq_some.mpr ⟨hrow.resolve_right not_mem_nil, rfl⟩
  rw [find?_flush, Option.or_eq_some_iff] at hrow
  rcases hrow with hrow | ⟨-, hrow⟩
  · exact h row (.inl (KeyedTable.find?_eq_some.mp hrow).1)
  · exact h row (.inr (mem_of_find?_eq_some hrow))

/-- The object is there, and the tables are as they were. -/
theorem putIfAbsent_eq_ok (h : r.putIfAbsent cacheKey bytes = .ok r') :
    ∃ objects, r' = { r with componentResults := objects } ∧ objects.find? cacheKey = some bytes := by
  rw [putIfAbsent] at h
  cases hheld : r.componentResults.find? cacheKey with
  | some held =>
    simp only [hheld] at h
    by_cases hsame : held = bytes
    · rw [if_neg (not_not.mpr hsame)] at h
      obtain rfl := pure_eq_ok.mp h
      exact ⟨_, rfl, hsame ▸ hheld⟩
    · rw [if_pos hsame] at h
      cases h
  | none =>
    simp only [hheld] at h
    obtain rfl := pure_eq_ok.mp h
    exact ⟨_, rfl, by rw [OrderedMap.find?_assign, if_pos rfl]⟩

/-- After a store and a flush, the object and a row are under the key of the descriptor. -/
theorem flushed_of_store (hd : makeResultCacheDescriptor run key result.logicalInputHash = d)
    (hfree : r.NoCollision d) (h : r.storeSuccessfulComponent run key result = .ok stored) :
    stored.1.flushComponentCache.NoCollision d ∧
      stored.1.componentResults.find? (d.key sha256) = some (serializeResult result.stored) ∧
      (stored.1.flushComponentCache.resultCache.find? (d.key sha256)).isSome := by
  rw [storeSuccessfulComponent, hd] at h
  obtain ⟨put, hput, h⟩ := bind_eq_ok.mp h
  obtain rfl := pure_eq_ok.mp h
  obtain ⟨objects, rfl, hobject⟩ := putIfAbsent_eq_ok hput
  generalize hrow : CacheTableRow.mk d result.fixpointHash result.externalHash = row
  let queued : WpaRunRepository sha256 :=
    ⟨objects, r.resultCache, r.pendingCacheRows ++ [row]⟩
  have hqueued : queued.NoCollision d := by
    intro other hother hkey
    rw [mem_append, mem_singleton, ← or_assoc] at hother
    rcases hother with hother | rfl
    · exact hfree other hother hkey
    · rw [← hrow]
  have hsome : (queued.flushComponentCache.resultCache.find? (d.key sha256)).isSome := by
    rw [find?_flush, Option.isSome_or, Bool.or_eq_true, find?_isSome]
    exact .inr ⟨row, mem_append_right _ mem_cons_self, decide_eq_true (by rw [← hrow])⟩
  by_cases hfull : kComponentCacheBatchSize ≤ (r.pendingCacheRows ++ [row]).length
  · rw [if_pos hfull]
    refine ⟨hqueued.flush.flush, hobject, ?_⟩
    rw [find?_flush, Option.isSome_or]
    exact Bool.or_eq_true_iff.mpr (.inl hsome)
  · rw [if_neg hfull]
    exact ⟨hqueued.flush, hobject, hsome⟩

/-- A row of a descriptor that is encoded alike describes this one too. -/
theorem describes_of_encode {row : ResultCacheRow} {d' : ResultCacheDescriptor}
    (h : row.Describes d') (hencode : d'.encode = d.encode) : row.Describes d := by
  have hconcat := (String.append_right_inj _).mp hencode
  have hfields := (concat_append_inj field_prefixFree (by rfl) (congrArg (· ++ "") hconcat)).1
  simp only [cons.injEq] at hfields
  obtain ⟨-, htoolchain, hlogical, -, -, -, hschema, hrules, hmodels, -⟩ := hfields
  obtain ⟨hl, ht, hs, hr, hm⟩ := h
  exact ⟨hl.trans hlogical, ht.trans htoolchain, hs.trans hschema, hr.trans hrules,
    hm.trans hmodels⟩

/-- The hashes of rows that come from typed ones. -/
theorem computeMachineResultHashes_machine (facts : List AnalysisFact) (witnesses : List WitnessEdge) :
    computeMachineResultHashes sha256 (facts.map (·.machine)) (witnesses.map (·.machine)) =
      some (computeCanonicalResultHashes sha256 facts witnesses) := by
  have hkeys : (facts.map (·.machine)).mapM (encodeMachineKey ·.row) =
      some (facts.map (encodeSemanticKey ·.row)) :=
    @Ordered.mapM_map_some _ _ _ AnalysisFact.machine (encodeMachineKey ·.row) (encodeSemanticKey ·.row)
      (fun f => encodeMachineKey_machine f.row) facts
  have hkey : ∀ e : WitnessEdge, keyEdge e.machine =
      some ⟨encodeSemanticKey e.result, e.ruleId, e.inputOrdinal, encodeSemanticKey e.input⟩ := by
    intro e
    rw [keyEdge, WitnessEdge.machine, encodeMachineKey_machine, encodeMachineKey_machine]
    rfl
  rw [computeMachineResultHashes, hkeys, Ordered.mapM_map_some hkey]
  simp only [hashKeys, computeCanonicalResultHashes, Option.bind_eq_bind, Option.bind_some,
    flatMap_map, map_map, Function.comp_def]
  rfl

theorem exists_entry (hfree : r.NoCollision d)
    (hobject : r.componentResults.find? (d.key sha256) = some (serializeResult result.stored))
    (hrow : (r.resultCache.find? (d.key sha256)).isSome) (hstorable : result.stored.Storable)
    (hanswers : result.stored.Answers d)
    (hfacts : ∀ f ∈ result.facts, deriveMachineFactId sha256 f.row = .ok f.factId) :
    ∃ row, CacheEntry sha256 r.cache d row result.stored := by
  obtain ⟨row, hrow⟩ := Option.isSome_iff_exists.mp hrow
  obtain ⟨hmem, hkey⟩ := KeyedTable.find?_eq_some.mp hrow
  rw [KeyedTable.find?, ← head?_filter, head?_eq_some_iff] at hrow
  obtain ⟨rest, hrest⟩ := hrow
  refine ⟨_, ⟨row.columns sha256, rest.map (·.columns sha256), ?_, rfl⟩,
    describes_of_encode ⟨rfl, rfl, rfl, rfl, rfl⟩ (hfree row (.inl hmem) hkey),
    ⟨_, ?_, deserialize_serialize hstorable⟩, hanswers, hfacts⟩
  · simp only [cache, hrest, map_cons]
  · simp only [cache, hkey, hobject]

/-- A canonical result has the ids of its rows, its own hashes and empty derivation keys. -/
theorem makeResult_canonical {logicalInputHash : String} {request : CanonicalizationRequest}
    {out : CanonicalizedResult} (h : canonicalize sha256 request = .ok out) :
    let result := makeResult key logicalInputHash out
    (∀ f ∈ result.facts, deriveMachineFactId sha256 f.row = .ok f.factId) ∧
      (∀ e ∈ result.witnesses, e.derivationKey = "") ∧
      computeMachineResultHashes sha256 result.facts result.witnesses =
        some ⟨result.fixpointHash, result.externalHash⟩ := by
  obtain ⟨raw, -, hadm, -, rfl⟩ := canonicalize_eq_ok.mp h
  refine ⟨fun f hf => ?_, fun e he => ?_, computeMachineResultHashes_machine _ _⟩
  · obtain ⟨g, hg, rfl⟩ := mem_map.mp hf
    exact hadm.derived hg
  · obtain ⟨g, hg, rfl⟩ := mem_map.mp he
    obtain ⟨-, step, -, hstep⟩ := hadm.mem_publishedEdges.mp hg
    obtain ⟨q, -, input, -, heq⟩ := mem_stepEdges.mp hstep
    exact congrArg (·.derivationKey) heq

theorem store_empty_isOk (sha256 : String → String) (run : CacheManifest) (key : WpaComponentKey)
    (result : WpaComponentResult) : ∃ stored, (⟨.empty, .empty, []⟩ :
      WpaRunRepository sha256).storeSuccessfulComponent run key result = .ok stored :=
  ⟨_, rfl⟩

end WpaRunRepository

end Veritas

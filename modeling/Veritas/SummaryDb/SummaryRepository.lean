import Mathlib.Data.List.TakeWhile
import Veritas.Library.KeyedTable
import Veritas.Summary.FunctionSummary

/-! The summary repository: immutable bytes by content hash, and the rows that say which summary a
function variant has in a revision and build variant. -/
namespace Veritas.SummaryDb

open Summary

/-- A text parameter is bound up to its first NUL. -/
def bindText (text : String) : String := String.ofList (text.toList.takeWhile (· ≠ '\x00'))

def NulFree (text : String) : Prop := '\x00' ∉ text.toList

theorem bindText_of_nulFree {text : String} (h : NulFree text) : bindText text = text := by
  have hall : ∀ c ∈ text.toList, decide (c ≠ '\x00') = true := fun c hc =>
    decide_eq_true fun heq => h (heq ▸ hc)
  rw [bindText, List.takeWhile_eq_self_iff.mpr hall, String.ofList_toList]

/-- A character that no part of an id's text has. -/
theorem notMem_toString {id : StableId} (h : IsDigestHex id.digestHex) {c : Char}
    (hkind : ∀ kind, c ∉ (idKindToString kind).toList) (hseparator : c ∉ ":sha256:".toList)
    (hnibble : ∀ n < 16, hexChar n ≠ c) : c ∉ id.toString.toList := by
  obtain ⟨digest, -, hbytes, hdigits⟩ := h
  rw [StableId.toString, String.toList_append, String.toList_append, hdigits]
  simp only [List.mem_append, not_or, digestToHex, List.mem_flatMap, not_exists, not_and,
    List.mem_cons, List.not_mem_nil, or_false]
  refine ⟨⟨hkind _, hseparator⟩, fun byte hbyte => ?_⟩
  have hlt := hbytes byte hbyte
  exact ⟨(hnibble _ (by omega)).symm, (hnibble _ (by omega)).symm⟩

theorem nulFree_toString {id : StableId} (h : IsDigestHex id.digestHex) : NulFree id.toString :=
  notMem_toString h (by intro kind; cases kind <;> decide) (by decide) (by decide)

abbrev ObjectStore := String → Option String

def ObjectStore.empty : ObjectStore := fun _ => none

def ObjectStore.putIfAbsent (objects : ObjectStore) (key bytes : String) : StatusOr ObjectStore :=
  match objects key with
  | some stored =>
    if stored ≠ bytes then throw (.internal "ObjectStore: key exists with different content")
    else pure objects
  | none => pure (Function.update objects key (some bytes))

def ObjectStore.get (objects : ObjectStore) (key : String) : StatusOr String :=
  match objects key with
  | none => throw (.notFound "ObjectStore: key not found")
  | some bytes => pure bytes

structure SummaryObjectRow where
  summaryId : String
  objectKey : String
  schemaVersion : String

structure SummaryBindingRow where
  functionVariantId : String
  revisionId : String
  buildVariantId : String
  summaryId : String
  isCurrent : ℤ
  deriving DecidableEq

def SummaryBindingRow.primaryKey (row : SummaryBindingRow) : String × String × String :=
  (row.functionVariantId, row.revisionId, row.buildVariantId)

/-- The tables of the metadata store that the summaries are found by. -/
structure SummaryTables where
  summaryObjects : KeyedTable SummaryObjectRow SummaryObjectRow.summaryId
  summaryBindings : KeyedTable SummaryBindingRow SummaryBindingRow.primaryKey

def SummaryTables.empty : SummaryTables := ⟨.empty, .empty⟩

/-- The order in which a query without `ORDER BY` visits the rows it selects. -/
structure RowOrder where
  visit : List SummaryBindingRow → List SummaryBindingRow
  perm : ∀ rows, (visit rows).Perm rows

structure PublicationContext where
  revisionId : String
  buildVariantId : String
  functionVariantId : String
  deriving DecidableEq

structure PreparedArtifact where
  id : StableId
  objectKey : String
  schemaVersion : String
  functionVariantId : String

def prepareArtifactMetadata (codec : SummaryCodec) (artifact : SummaryArtifact) :
    StatusOr PreparedArtifact := do
  let id ← codec.computeFunctionSummaryId artifact
  pure ⟨id, id.toString, artifact.schemaVersion, artifact.identity.functionVariantId⟩

def prepareArtifact (codec : SummaryCodec) (objects : ObjectStore) (artifact : SummaryArtifact) :
    StatusOr (ObjectStore × PreparedArtifact) := do
  let prepared ← prepareArtifactMetadata codec artifact
  let bytes ← codec.serializeSummaryArtifact artifact
  let objects ← objects.putIfAbsent prepared.objectKey bytes
  pure (objects, prepared)

def PreparedArtifact.objectRow (entry : PreparedArtifact) : SummaryObjectRow :=
  ⟨bindText entry.id.toString, bindText entry.objectKey, bindText entry.schemaVersion⟩

def PreparedArtifact.bindingRow (entry : PreparedArtifact)
    (functionVariantId revisionId buildVariantId : String) : SummaryBindingRow :=
  ⟨bindText functionVariantId, bindText revisionId, bindText buildVariantId,
    bindText entry.id.toString, 1⟩

/-- The rows of the component digests are not read back here. -/
def stageObjectMetadata (tables : SummaryTables) (entry : PreparedArtifact) : SummaryTables :=
  { tables with summaryObjects := tables.summaryObjects.insertOrIgnore entry.objectRow }

def stageBinding (tables : SummaryTables) (entry : PreparedArtifact)
    (functionVariantId revisionId buildVariantId : String) : SummaryTables :=
  { tables with
    summaryBindings := tables.summaryBindings.insertOrReplace
      (entry.bindingRow functionVariantId revisionId buildVariantId) }

structure SummaryRepository where
  objectStore : ObjectStore
  metadataStore : SummaryTables

namespace SummaryRepository

/-- A fresh store. -/
def empty : SummaryRepository := ⟨.empty, .empty⟩

def publishSummary (codec : SummaryCodec) (repository : SummaryRepository)
    (artifact : SummaryArtifact) (context : PublicationContext) :
    StatusOr (SummaryRepository × StableId) := do
  let (objects, prepared) ← prepareArtifact codec repository.objectStore artifact
  let tables := stageObjectMetadata repository.metadataStore prepared
  let tables := stageBinding tables prepared context.functionVariantId context.revisionId
    context.buildVariantId
  pure (⟨objects, tables⟩, prepared.id)

/-- The writes of the object store come first, one artifact after the other. -/
def prepareArtifacts (codec : SummaryCodec) (objects : ObjectStore)
    (artifacts : List SummaryArtifact) : StatusOr (ObjectStore × List PreparedArtifact) :=
  artifacts.foldlM (fun (objects, prepared) artifact => do
    let (objects, entry) ← prepareArtifact codec objects artifact
    pure (objects, prepared ++ [entry])) (objects, [])

def publishProjectSummaries (codec : SummaryCodec) (repository : SummaryRepository)
    (revisionId buildVariantId : String) (artifacts : List SummaryArtifact) :
    StatusOr (SummaryRepository × List StableId) := do
  let (objects, prepared) ← prepareArtifacts codec repository.objectStore artifacts
  let tables := prepared.foldl (fun tables entry =>
    stageBinding (stageObjectMetadata tables entry) entry entry.functionVariantId revisionId
      buildVariantId) repository.metadataStore
  pure (⟨objects, tables⟩, prepared.map PreparedArtifact.id)

/-- Without a metadata row the version is read from the header of the bytes. -/
def probeSchemaVersion (codec : SummaryCodec) (idText bytes : String) : StatusOr String :=
  match codec.parseV1 bytes with
  | none => throw (.failedPrecondition ("cannot determine schema version for " ++ idText ++
      ": bytes do not parse as a summary header"))
  | some probe => pure probe.header.schemaVersion

def getSummaryArtifact (codec : SummaryCodec) (repository : SummaryRepository)
    (summaryId : StableId) : StatusOr SummaryArtifact := do
  let bytes ← repository.objectStore.get summaryId.toString
  match repository.metadataStore.summaryObjects.find? (bindText summaryId.toString) with
  | none =>
    let schemaVersion ← probeSchemaVersion codec summaryId.toString bytes
    codec.parseSummaryArtifact schemaVersion bytes
  | some row => codec.parseSummaryArtifact row.schemaVersion bytes

/-- `LIMIT 1`: the row visited first. -/
def getCurrentSummaryArtifact (codec : SummaryCodec) (order : RowOrder)
    (repository : SummaryRepository) (functionVariantId : String) : StatusOr SummaryArtifact :=
  let rows := repository.metadataStore.summaryBindings.rows.filter fun row =>
    row.functionVariantId = bindText functionVariantId ∧ row.isCurrent = 1
  match (order.visit rows).head? with
  | none => throw (.notFound "No current summary for function variant")
  | some row => do
    let summaryId ← parseStableId row.summaryId
    repository.getSummaryArtifact codec summaryId

/-- What a row of the listing stands for. -/
def readCurrentBinding (codec : SummaryCodec) (repository : SummaryRepository)
    (revisionId buildVariantId : String) (row : SummaryBindingRow) : StatusOr SummaryArtifact := do
  let summaryId ← parseStableId row.summaryId
  if summaryId.kind ≠ .functionSummary then
    throw (.failedPrecondition "current summary binding has a non-summary object ID")
  let artifact ← repository.getSummaryArtifact codec summaryId
  if artifact.identity.revisionId ≠ revisionId ∨ artifact.identity.buildVariantId ≠ buildVariantId then
    throw (.failedPrecondition "current summary binding does not match requested context")
  if artifact.identity.functionVariantId ≠ row.functionVariantId then
    throw (.failedPrecondition "current summary binding does not match stored function identity")
  pure artifact

def currentBindings (repository : SummaryRepository) (revisionId buildVariantId : String) :
    List SummaryBindingRow :=
  (repository.metadataStore.summaryBindings.rows.filter fun row =>
    row.revisionId = bindText revisionId ∧ row.buildVariantId = bindText buildVariantId ∧
      row.isCurrent = 1).insertionSort (·.functionVariantId ≤ ·.functionVariantId)

def listCurrentSummaryArtifacts (codec : SummaryCodec) (repository : SummaryRepository)
    (revisionId buildVariantId : String) : StatusOr (List SummaryArtifact) :=
  (repository.currentBindings revisionId buildVariantId).mapM
    (repository.readCurrentBinding codec revisionId buildVariantId)

end SummaryRepository

end Veritas.SummaryDb

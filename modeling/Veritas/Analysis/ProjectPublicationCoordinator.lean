import Veritas.Cpg.ProjectionStore
import Veritas.SummaryDb.CurrentSummary

/-! The publication of a completed analysis: the summaries and the graph in one transaction. -/
namespace Veritas.Analysis

open Cpg Summary SummaryDb

structure CompletedProjectAnalysis where
  summaries : List V2.FunctionSummary
  graph : Cpg.ThinCpg

def CompletedProjectAnalysis.artifacts (completed : CompletedProjectAnalysis) :
    List SummaryArtifact :=
  completed.summaries.map .v2

/-- The metadata tables of both repositories. -/
structure MetadataTables where
  summaries : SummaryTables
  cpg : CpgTables

/-- What the coordinator publishes to. -/
structure ProjectStore where
  objectStore : ObjectStore
  metadataStore : MetadataTables

def ProjectStore.empty : ProjectStore := ⟨.empty, ⟨.empty, .empty⟩⟩

inductive MetadataStatement
  | beginTransaction
  | insertSummaryObject (entry : PreparedArtifact)
  | insertSummaryBinding (entry : PreparedArtifact) (revisionId buildVariantId : String)
  | cpg (statement : CpgStatement)
  | commitTransaction

def MetadataTables.execute (tables : MetadataTables) : MetadataStatement → MetadataTables
  | .beginTransaction => tables
  | .insertSummaryObject entry =>
    { tables with summaries := stageObjectMetadata tables.summaries entry }
  | .insertSummaryBinding entry revisionId buildVariantId =>
    { tables with
      summaries :=
        stageBinding tables.summaries entry entry.functionVariantId revisionId buildVariantId }
  | .cpg statement => { tables with cpg := tables.cpg.execute statement }
  | .commitTransaction => tables

/-- The statements run one after the other until one fails, after as many others as the number
says. What they left is kept only if none did. -/
def executeAll (tables : MetadataTables) :
    Option ℕ → List MetadataStatement → StatusOr MetadataTables
  | _, [] => pure tables
  | none, statement :: statements => executeAll (tables.execute statement) none statements
  | some 0, _ :: _ => throw (.internal "SQLite statement failed")
  | some (n + 1), statement :: statements =>
    executeAll (tables.execute statement) (some n) statements

def validateSnapshotCorrespondence (codec : SummaryCodec) (completed : CompletedProjectAnalysis) :
    StatusOr Unit := do
  let actual ← completed.artifacts.mapM codec.computeFunctionSummaryId
  if actual.insertionSort (· ≤ ·) ≠ completed.graph.metadata.summaryIds.insertionSort (· ≤ ·) then
    throw (.failedPrecondition "graph summary IDs do not match completed summaries")

/-- The writes before a failed one stay. -/
def putImmutableSummaryArtifacts (codec : SummaryCodec) (objects : ObjectStore) :
    Option ℕ → List SummaryArtifact → ObjectStore × StatusOr (List StableId)
  | _, [] => (objects, pure [])
  | some 0, _ :: _ => (objects, throw (.internal "RocksDB Merge failed: "))
  | failsAt, artifact :: artifacts =>
    match prepareArtifact codec objects artifact with
    | .error status => (objects, throw status)
    | .ok (written, entry) =>
      let (last, ids) :=
        putImmutableSummaryArtifacts codec written (failsAt.map (· - 1)) artifacts
      (last, (entry.id :: ·) <$> ids)

def stageCurrentArtifactBindings (codec : SummaryCodec) (revisionId buildVariantId : String)
    (artifacts : List SummaryArtifact) : StatusOr (List MetadataStatement) := do
  let prepared ← artifacts.mapM (prepareArtifactMetadata codec)
  pure (prepared.flatMap fun entry =>
    [.insertSummaryObject entry, .insertSummaryBinding entry revisionId buildVariantId])

/-- The transaction, from its first statement to its last. -/
def publicationStatements (codec : SummaryCodec) (completed : CompletedProjectAnalysis) :
    StatusOr (List MetadataStatement) := do
  let metadata := completed.graph.metadata
  let summaries ← stageCurrentArtifactBindings codec metadata.revisionId.toString
    metadata.buildVariantId.toString completed.artifacts
  completed.graph.validate
  pure (.beginTransaction :: summaries ++
    (projectionStatements codec.sha256 completed.graph).map .cpg ++ [.commitTransaction])

/-- Which write of the object store and which statement fail, if any does. -/
structure Failures where
  put : Option ℕ
  statement : Option ℕ

def checkCompleted (codec : SummaryCodec) (completed : CompletedProjectAnalysis) :
    StatusOr Unit := do
  completed.graph.validate
  validateSnapshotCorrespondence codec completed

def publish (codec : SummaryCodec) (failures : Failures) (store : ProjectStore)
    (completed : CompletedProjectAnalysis) : ProjectStore × StatusOr (List StableId) :=
  match checkCompleted codec completed with
  | .error status => (store, throw status)
  | .ok () =>
    match putImmutableSummaryArtifacts codec store.objectStore failures.put completed.artifacts with
    | (objects, .error status) => ({ store with objectStore := objects }, throw status)
    | (objects, .ok ids) =>
      match publicationStatements codec completed >>=
          executeAll store.metadataStore failures.statement with
      | .error status => ({ store with objectStore := objects }, throw status)
      | .ok tables => (⟨objects, tables⟩, pure ids)

end Veritas.Analysis

import Veritas.Facts.Preimage
import Veritas.Library.Kahn
import Veritas.Wpa.Component

/-! The analysis fact batch, its content-addressed id, and the checks before publication. -/
namespace Veritas

open Function FieldCode WpaComponentKind

structure MachineFact where
  factId : StableId
  row : MachineRow
  deriving DecidableEq

def AnalysisFact.machine (fact : AnalysisFact) : MachineFact := ⟨fact.factId, fact.row.machine⟩

structure MachineEdge where
  result : MachineRow
  ruleId : String
  derivationKey : String
  input : MachineRow
  inputOrdinal : ℕ
  deriving DecidableEq

def WitnessEdge.machine (edge : WitnessEdge) : MachineEdge :=
  ⟨edge.result.machine, edge.ruleId, edge.derivationKey, edge.input.machine, edge.inputOrdinal⟩

def WpaComponentKind.ordinal (kind : WpaComponentKind) : ℕ := kind.ctorIdx

theorem WpaComponentKind.ordinal_injective : Injective ordinal :=
  Function.LeftInverse.injective (g := ofNat) ofNat_ctorIdx

structure WpaComponentKey where
  sccId : StableId
  component : WpaComponentKind

def WpaComponentKey.sortKey (key : WpaComponentKey) : StableId ×ₗ ℕ :=
  toLex (key.sccId, key.component.ordinal)

theorem WpaComponentKey.sortKey_injective : Injective WpaComponentKey.sortKey := by
  rintro ⟨s, c⟩ ⟨s', c'⟩ h
  have h := Prod.ext_iff.mp (toLex.injective h)
  rw [WpaComponentKey.mk.injEq]
  exact ⟨h.1, ordinal_injective h.2⟩

instance : LinearOrder WpaComponentKey :=
  LinearOrder.lift' WpaComponentKey.sortKey WpaComponentKey.sortKey_injective

structure WpaComponentResult where
  sccId : StableId
  component : WpaComponentKind
  logicalInputHash : String
  fixpointHash : String
  externalHash : String
  facts : List MachineFact
  witnesses : List MachineEdge
  diagnostics : List String

structure WpaComponentCompletion where
  key : WpaComponentKey
  resultObjectKey : String
  result : WpaComponentResult

inductive EngineIdentity
  | souffle | cppConformance | cppEmergency

/-- The manifest fields that the batch and the stores behind the bus read. -/
structure AnalysisRunManifest where
  runId : StableId
  engine : EngineIdentity

/-- A rooted input with the evidence that reaches the explanation graph. -/
structure RootEvidence where
  factId : StableId
  producerId : String
  sourceAnchorId : String
  summaryId : String
  description : String

structure AnalysisFactBatch where
  batchId : StableId
  run : AnalysisRunManifest
  expectedComponents : List WpaComponentKey
  completedComponents : List WpaComponentCompletion
  rootedInputFactIds : List StableId
  rootedInputFacts : List RootEvidence
  facts : List MachineFact
  witnesses : List MachineEdge
  diagnostics : List String

def componentFields (key : WpaComponentKey) : String :=
  field key.sccId.toString ++ field key.component.ordinal.repr

def completionFields (completion : WpaComponentCompletion) : String :=
  componentFields completion.key ++ field completion.resultObjectKey ++
    field completion.result.logicalInputHash ++ field completion.result.fixpointHash ++
      field completion.result.externalHash

def factField (fact : MachineFact) : Option String := field <$> encodeMachineKey fact.row

def edgeFields (edge : MachineEdge) : Option String := do
  let result ← encodeMachineKey edge.result
  let input ← encodeMachineKey edge.input
  return field result ++ field edge.ruleId ++ field input ++ field edge.inputOrdinal.repr

/-- The canonical batch id; `none` when a row's relation id is read past the table. -/
def deriveBatchId (sha256 : String → String) (batch : AnalysisFactBatch) : Option StableId := do
  let facts ← batch.facts.mapM factField
  let witnesses ← batch.witnesses.mapM edgeFields
  return ⟨.fact, sha256 ("veritas.analysis-fact-batch.v2" ++ field batch.run.runId.toString ++
    concat componentFields batch.expectedComponents ++
    concat completionFields batch.completedComponents ++
    concat (fun id => field id.toString) batch.rootedInputFactIds ++
    String.join facts ++ String.join witnesses ++ concat field batch.diagnostics)⟩

def renderCell : MachineCell → String
  | .stableId id => id.toString
  | .string v => v
  | .int64 v => v.toInt.repr
  | .uint64 v => v.toNat.repr
  | .dispatchKind v => v.toNat.repr
  | .aliasKind v => v.toNat.repr
  | .byteRangeKind v => v.toNat.repr
  | .epistemic v => v.toNat.repr

/-- Names the row of a rejected fact; it was identified, so its relation id is in range. -/
def renderRow (row : MachineRow) : String :=
  preimageRelationName row.relation ++ String.join (row.cells.map fun cell => " " ++ renderCell cell)

/-- The facts seen so far by id, as positions in the batch. -/
structure FactScan where
  memo : FactIdentityMemo
  factIndex : StableId → Option ℕ

def scanFact (sha256 : String → String) (scan : FactScan) (entry : MachineFact × ℕ) :
    StatusOr FactScan :=
  match scan.memo.identify sha256 entry.1.row with
  | (.error status, _) => throw status
  | (.ok derived, memo) =>
    if derived ≠ entry.1.factId then
      throw (.failedPrecondition "fact_id does not match its row")
    else if (scan.factIndex entry.1.factId).isSome then
      throw (.failedPrecondition ("duplicate fact_id " ++ entry.1.factId.toString ++ " for row " ++
        renderRow entry.1.row))
    else pure ⟨memo, update scan.factIndex entry.1.factId (some entry.2)⟩

/-- The endpoints of an edge among the published facts. -/
structure WitnessEndpoints where
  result : Option ℕ
  input : Option ℕ

structure WitnessScan where
  memo : FactIdentityMemo
  endpoints : List WitnessEndpoints
  witnessed : ℕ → Bool
  inputOutsideRootSet : Bool
  resultOutsidePublishedSet : Bool

/-- The published fact an id points at, when it carries the row. -/
def publishedAt (facts : List MachineFact) (factIndex : StableId → Option ℕ) (id : StableId)
    (row : MachineRow) : Option ℕ :=
  (factIndex id).filter fun i => (facts[i]?.map (·.row)) = some row

/-- Resolves the endpoints of an edge and keeps what the checks after the pass ask for. -/
def WitnessScan.record (batch : AnalysisFactBatch) (factIndex : StableId → Option ℕ)
    (scan : WitnessScan) (edge : MachineEdge) (result input : StableId)
    (memo : FactIdentityMemo) : WitnessScan :=
  let resultAt := publishedAt batch.facts factIndex result edge.result
  let inputAt := publishedAt batch.facts factIndex input edge.input
  { memo := memo
    endpoints := scan.endpoints ++ [⟨resultAt, inputAt⟩]
    witnessed := fun i => scan.witnessed i || resultAt = some i
    inputOutsideRootSet := scan.inputOutsideRootSet ||
      (inputAt.isNone && input ∉ batch.rootedInputFactIds)
    resultOutsidePublishedSet := scan.resultOutsidePublishedSet || resultAt.isNone }

def scanWitness (sha256 : String → String) (batch : AnalysisFactBatch)
    (factIndex : StableId → Option ℕ) (scan : WitnessScan) (edge : MachineEdge) :
    StatusOr WitnessScan :=
  match scan.memo.identify sha256 edge.result with
  | (.error status, _) => throw status
  | (.ok result, memo) =>
    match memo.identify sha256 edge.input with
    | (.error status, _) => throw status
    | (.ok input, memo) => pure (scan.record batch factIndex edge result input memo)

/-- One dependency for each edge between two published facts, input first. -/
def dependencies (endpoints : List WitnessEndpoints) : List (ℕ × ℕ) :=
  endpoints.filterMap fun edge => match edge.input, edge.result with
    | some input, some result => some (input, result)
    | _, _ => none

/-- The loop over the growing ready list; it is entered at most once for each fact. -/
def processReady (edges : List (ℕ × ℕ)) : ℕ → Kahn.State ℕ → Kahn.State ℕ
  | 0, s => s
  | fuel + 1, s =>
    match s.ready with
    | [] => s
    | u :: rest =>
      let freed := Kahn.release s.count (Kahn.targets edges u)
      processReady edges fuel ⟨freed.1, rest ++ freed.2, s.done ++ [u]⟩

def processedCount (count : ℕ) (edges : List (ℕ × ℕ)) : ℕ :=
  (processReady edges count (Kahn.start (List.range count) edges)).done.length

def validateWitnesses (sha256 : String → String) (batch : AnalysisFactBatch) (scan : FactScan) :
    StatusOr Unit := do
  let scan ← batch.witnesses.foldlM (scanWitness sha256 batch scan.factIndex)
    ⟨scan.memo, [], fun _ => false, false, false⟩
  if ∃ i ∈ List.range batch.facts.length, ¬ scan.witnessed i then
    throw (.failedPrecondition "fact without a closed witness")
  if scan.inputOutsideRootSet then
    throw (.failedPrecondition "witness leaf outside the root set")
  if scan.resultOutsidePublishedSet then
    throw (.failedPrecondition "witness result is not a published fact")
  if processedCount batch.facts.length (dependencies scan.endpoints) ≠ batch.facts.length then
    throw (.failedPrecondition "witness DAG contains a cycle")

/-- `AnalysisFactBus::Validate`; `none` is the read past the table while deriving the id. -/
def validateBatch (sha256 : String → String) (batch : AnalysisFactBatch) : Option (StatusOr Unit) :=
  (deriveBatchId sha256 batch).map fun batchId => do
    if batch.batchId ≠ batchId then
      throw (.failedPrecondition "supplied batch_id does not match the canonical id")
    if batch.expectedComponents.toFinset.card ≠ batch.expectedComponents.length then
      throw (.failedPrecondition "duplicate expected component")
    if ¬ (batch.completedComponents.map (·.key)).Nodup then
      throw (.failedPrecondition "duplicate completed component")
    if batch.expectedComponents.toFinset ≠ (batch.completedComponents.map (·.key)).toFinset then
      throw (.failedPrecondition "expected and completed component sets differ")
    let scan ← batch.facts.zipIdx.foldlM (scanFact sha256) ⟨FactIdentityMemo.empty, fun _ => none⟩
    validateWitnesses sha256 batch scan

end Veritas

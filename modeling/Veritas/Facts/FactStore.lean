import Veritas.Facts.FactLookup

/-! Publication of a batch into the fact store: one transaction over every table. -/
namespace Veritas

open FieldCode Ordered

def producerKindForEngine : EngineIdentity → ProducerKind
  | .souffle => .wpaSouffle
  | .cppConformance => .wpaCppConformance
  | .cppEmergency => .wpaCppEmergency

/-- A witness edge, the fact it cites, and that fact's semantic key. -/
structure WitnessEdgeRef where
  edge : MachineEdge
  inputFactId : StableId
  inputKey : String

/-- The pass over the witnesses: ids seen, inputs to store beside the published facts, and the
edges filed under the key of their result. -/
structure WitnessIntake where
  memo : FactIdentityMemo
  factIds : List StableId
  missingInputFacts : List MachineFact
  filed : List (String × WitnessEdgeRef)

/-- `none` is the read past the relation table while a result is encoded. -/
def takeWitness (sha256 : String → String) (intake : WitnessIntake) (edge : MachineEdge) :
    Option (StatusOr WitnessIntake) :=
  match intake.memo.identify sha256 edge.input with
  | (.error status, _) => some (throw status)
  | (.ok inputId, memo) => do
    let inputKey ← encodeMachineKey edge.input
    let resultKey ← encodeMachineKey edge.result
    return pure {
      memo := memo
      factIds := if inputId ∈ intake.factIds then intake.factIds else intake.factIds ++ [inputId]
      missingInputFacts := if inputId ∈ intake.factIds then intake.missingInputFacts
        else intake.missingInputFacts ++ [⟨inputId, edge.input⟩]
      filed := intake.filed ++ [(resultKey, ⟨edge, inputId, inputKey⟩)] }

def takeWitnesses (sha256 : String → String) :
    WitnessIntake → List MachineEdge → Option (StatusOr WitnessIntake)
  | intake, [] => some (pure intake)
  | intake, edge :: rest =>
    match takeWitness sha256 intake edge with
    | none => none
    | some (.error status) => some (.error status)
    | some (.ok intake) => takeWitnesses sha256 intake rest

/-- The proof of one result, its edges in argument order. -/
structure ResultWitness where
  witnessId : String
  factId : StableId
  orderedEdges : List WitnessEdgeRef

def orderEdges (edges : List WitnessEdgeRef) : List WitnessEdgeRef :=
  edges.insertionSort fun a b => a.edge.inputOrdinal ≤ b.edge.inputOrdinal

def deriveWitnessId (sha256 : String → String) (resultKey ruleId : String)
    (inputKeys : List String) : String :=
  sha256 ("veritas.witness.derivation.v1" ++ field resultKey ++ field ruleId ++
    concat field inputKeys)

/-- The group of a key is never empty: it was opened by an edge. -/
def resultWitness (sha256 : String → String) (filed : List (String × WitnessEdgeRef))
    (resultKey : String) : StatusOr ResultWitness :=
  let edges := orderEdges ((filed.filter (·.1 = resultKey)).map (·.2))
  match edges.head? with
  | none => throw (.internal "empty witness group")
  | some front => do
    let factId ← deriveMachineFactId sha256 front.edge.result
    return ⟨deriveWitnessId sha256 resultKey front.edge.ruleId (edges.map (·.inputKey)), factId,
      edges⟩

/-- Results in the order of their keys. -/
def resultWitnesses (sha256 : String → String) (filed : List (String × WitnessEdgeRef)) :
    StatusOr (List ResultWitness) :=
  (sortUnique (filed.map (·.1))).mapM (resultWitness sha256 filed)

/-- The witness filed last under a fact id. -/
def witnessOf (proofs : List ResultWitness) (factId : StableId) : Option String :=
  (proofs.reverse.find? (·.factId = factId)).map (·.witnessId)

/-- `INSERT OR IGNORE` into `analysis_facts`. -/
def FactTables.insertFact (s : FactTables) (key : String) (fact : StoredFact) : FactTables :=
  if (s.facts key).isSome then s else { s with facts := Function.update s.facts key (some fact) }

def appendFact (ctx : StoreContext) (s : FactTables) (fact : MachineFact) :
    StatusOr FactTables := do
  let proto ← toProtoFact ctx.sha256 fact
  match ctx.wire.serialize proto with
  | none => throw (.internal "failed to serialize fact")
  | some bytes =>
    return s.insertFact fact.factId.column ⟨preimageRelationName fact.row.relation, hexEncode bytes⟩

/-- A current binding of the same run and fact violates the unique index. -/
def insertBinding (s : FactTables) (binding : FactBinding) : StatusOr FactTables :=
  if (s.currentBinding binding.runId binding.factId).isSome ∧ binding.isCurrent then
    throw (uniqueViolation "run_fact_bindings.run_id, run_fact_bindings.fact_id")
  else pure { s with bindings := s.bindings ++ [binding] }

def flushBindings (s : FactTables) (pending : List FactBinding) : StatusOr FactTables :=
  pending.foldlM insertBinding s

/-- The bulk writer of bindings: rows wait until a statement is full. -/
structure BindingWriter where
  tables : FactTables
  pending : List FactBinding

def retireBinding (s : FactTables) (run fact : String) : FactTables :=
  { s with bindings := s.bindings.map fun b =>
      if b.runId = run ∧ b.factId = fact ∧ b.isCurrent then { b with isCurrent := false } else b }

/-- The flip of the old binding runs at once, the new one is queued. -/
def appendBinding (ctx : StoreContext) (writer : BindingWriter) (binding : FactBinding) :
    StatusOr BindingWriter := do
  let s := retireBinding writer.tables binding.runId binding.factId
  if writer.pending.length ≥ max ctx.bindingRows 1 then
    let s ← flushBindings s writer.pending
    return ⟨s, [binding]⟩
  else return ⟨s, writer.pending ++ [binding]⟩

def bindingOf (batch : AnalysisFactBatch) (proofs : List ResultWitness) (fact : MachineFact) :
    FactBinding :=
  ⟨batch.run.runId.column, fact.factId.column, producerKindForEngine batch.run.engine,
    columnText ((witnessOf proofs fact.factId).getD fact.factId.toString), true⟩

def bindFact (ctx : StoreContext) (batch : AnalysisFactBatch) (proofs : List ResultWitness)
    (indexBatch : Bool) (writer : BindingWriter) (fact : MachineFact) : StatusOr BindingWriter :=
  let tables := if indexBatch then appendLookupFact ctx batch.run.runId.column writer.tables fact
    else writer.tables
  appendBinding ctx ⟨tables, writer.pending⟩ (bindingOf batch proofs fact)

/-- `INSERT OR IGNORE` into `provenance_nodes`. -/
def FactTables.addNode (s : FactTables) (node : ProvenanceNode) : FactTables :=
  if ∃ n ∈ s.nodes, n.runId = node.runId ∧ n.outputFactId = node.outputFactId ∧
      n.witnessId = node.witnessId then s
  else { s with nodes := s.nodes ++ [node] }

/-- `INSERT OR IGNORE` into `provenance_edges`. -/
def FactTables.addEdge (s : FactTables) (edge : ProvenanceEdge) : FactTables :=
  if ∃ e ∈ s.edges, e.runId = edge.runId ∧ e.outputFactId = edge.outputFactId ∧
      e.witnessId = edge.witnessId ∧ e.inputOrdinal = edge.inputOrdinal then s
  else { s with edges := s.edges ++ [edge] }

/-- The evidence listed last for an id. -/
def rootEvidence (batch : AnalysisFactBatch) (factId : StableId) : Option RootEvidence :=
  batch.rootedInputFacts.reverse.find? (·.factId = factId)

/-- The first input with rooted evidence supplies the metadata of the node. -/
def nodeOf (batch : AnalysisFactBatch) (proof : ResultWitness) : ProvenanceNode :=
  let evidence := (proof.orderedEdges.findSome? fun ref => rootEvidence batch ref.inputFactId).getD
    ⟨proof.factId, "", "", "", ""⟩
  { runId := batch.run.runId.column
    outputFactId := proof.factId.column
    witnessId := proof.witnessId
    selected := true
    producerKind := producerKindForEngine batch.run.engine
    producerId := columnText evidence.producerId
    ruleId := columnText ((proof.orderedEdges.head?.map (·.edge.ruleId)).getD "")
    sourceAnchorId := columnText evidence.sourceAnchorId
    summaryId := columnText evidence.summaryId
    description := columnText evidence.description }

def edgeOf (batch : AnalysisFactBatch) (proof : ResultWitness) (ref : WitnessEdgeRef) :
    ProvenanceEdge :=
  ⟨batch.run.runId.column, proof.factId.column, proof.witnessId,
    if ref.inputFactId ∈ batch.rootedInputFactIds then .rooted else .derived,
    ref.inputFactId.column, ref.edge.inputOrdinal⟩

def addProof (batch : AnalysisFactBatch) (s : FactTables) (proof : ResultWitness) : FactTables :=
  (proof.orderedEdges.map (edgeOf batch proof)).foldl FactTables.addEdge
    (s.addNode (nodeOf batch proof))

/-- Only a known complete index is extended: a sealed one, or that of a run with nothing in it. -/
def indexesBatch (ctx : StoreContext) (s : FactTables) (runId : StableId) : Bool :=
  match readLookupReceipt ctx s runId with
  | some receipt => (readyLookupFingerprint ctx s runId receipt).isSome
  | none => ¬ ∃ b ∈ s.bindings, b.runId = runId.column ∧ b.isCurrent

/-- The tables before the rows of a batch are written. -/
def prepareIndex (ctx : StoreContext) (s : FactTables) (runId : StableId) : FactTables :=
  if (readLookupReceipt ctx s runId).isNone ∧ indexesBatch ctx s runId then
    clearFactLookup s runId.column
  else s

def sealBatch (ctx : StoreContext) (s : FactTables) (runId : StableId) : StatusOr FactTables :=
  match readLookupReceipt ctx s runId with
  | none => throw (.internal "published fact receipt is missing")
  | some receipt => pure (sealFactLookup ctx s runId receipt)

/-- The transaction of a publication; an error leaves the tables as they were. -/
def commitBatch (ctx : StoreContext) (s : FactTables) (batch : AnalysisFactBatch)
    (missingInputFacts : List MachineFact) (proofs : List ResultWitness) :
    StatusOr FactTables := do
  let s ← initFactLookup s
  let indexBatch := indexesBatch ctx s batch.run.runId
  let s := prepareIndex ctx s batch.run.runId
  let s ← (batch.facts ++ missingInputFacts).foldlM (appendFact ctx) s
  let writer ← batch.facts.foldlM (bindFact ctx batch proofs indexBatch) ⟨s, []⟩
  let s := proofs.foldl (addProof batch) writer.tables
  let s ← flushBindings s writer.pending
  let s := { s with receipts := s.receipts ++ [(batch.run.runId.column, batch.batchId.column)] }
  if indexBatch then sealBatch ctx s batch.run.runId else pure s

/-- `FactStore::Publish`; a batch that was published before is a successful no-op. -/
def publish (ctx : StoreContext) (s : FactTables) (batch : AnalysisFactBatch) :
    Option (StatusOr FactTables) :=
  (takeWitnesses ctx.sha256 ⟨FactIdentityMemo.empty, batch.facts.map (·.factId), [], []⟩
    batch.witnesses).map fun intake => do
    let intake ← intake
    let proofs ← resultWitnesses ctx.sha256 intake.filed
    if (batch.run.runId.column, batch.batchId.column) ∈ s.receipts then return s
    commitBatch ctx s batch intake.missingInputFacts proofs

end Veritas

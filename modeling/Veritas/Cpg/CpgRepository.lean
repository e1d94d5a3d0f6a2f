import Veritas.Cpg.CpgCanonicalizer
import Veritas.SummaryDb.SummaryRepository

/-! The tables of the stored graphs, written by one statement after the other and read back by
queries. -/
namespace Veritas.Cpg

open SummaryDb

structure ProjectionRow where
  projectionId : String
  schemaVersion : String
  revisionId : String
  buildVariantId : String
  moduleHash : String
  summaryIds : String

structure NodeRow where
  projectionId : String
  nodeId : String
  nodeKind : ℤ
  nodeLabel : String

structure EdgeRow where
  projectionId : String
  edgeId : String
  edgeKind : ℤ
  sourceNodeId : String
  targetNodeId : String
  aliasState : ℤ
  expandable : ℤ

structure EdgeSupportRow where
  projectionId : String
  edgeId : String
  position : ℤ
  functionSummaryId : String
  provenanceRef : String

structure CallsiteBindingRow where
  projectionId : String
  callsiteId : String
  ownerId : String
  calleeId : String
  operation : String
  resultId : String

structure CallsiteArgumentRow where
  projectionId : String
  callsiteId : String
  argumentIndex : ℤ
  valueId : String
  memoryId : String

structure CurrentProjectionRow where
  revisionId : String
  buildVariantId : String
  projectionId : String
  deriving DecidableEq

def NodeRow.primaryKey (row : NodeRow) : String × String := (row.projectionId, row.nodeId)

def EdgeRow.primaryKey (row : EdgeRow) : String × String := (row.projectionId, row.edgeId)

def EdgeSupportRow.primaryKey (row : EdgeSupportRow) : String × String × ℤ :=
  (row.projectionId, row.edgeId, row.position)

def CallsiteBindingRow.primaryKey (row : CallsiteBindingRow) : String × String :=
  (row.projectionId, row.callsiteId)

def CallsiteArgumentRow.primaryKey (row : CallsiteArgumentRow) : String × String × ℤ :=
  (row.projectionId, row.callsiteId, row.argumentIndex)

def CurrentProjectionRow.primaryKey (row : CurrentProjectionRow) : String × String :=
  (row.revisionId, row.buildVariantId)

/-- The call-site tables are there from the start; the source creates them with the first graph
that has such rows. -/
structure CpgTables where
  projections : KeyedTable ProjectionRow ProjectionRow.projectionId
  nodes : KeyedTable NodeRow NodeRow.primaryKey
  edges : KeyedTable EdgeRow EdgeRow.primaryKey
  edgeSupport : KeyedTable EdgeSupportRow EdgeSupportRow.primaryKey
  callsiteBindings : KeyedTable CallsiteBindingRow CallsiteBindingRow.primaryKey
  callsiteArguments : KeyedTable CallsiteArgumentRow CallsiteArgumentRow.primaryKey
  currentProjections : KeyedTable CurrentProjectionRow CurrentProjectionRow.primaryKey

def CpgTables.empty : CpgTables := ⟨.empty, .empty, .empty, .empty, .empty, .empty, .empty⟩

inductive CpgStatement
  | createCallsiteBindings
  | createCallsiteArguments
  | insertProjection (row : ProjectionRow)
  | insertNode (row : NodeRow)
  | insertEdge (row : EdgeRow)
  | insertEdgeSupport (row : EdgeSupportRow)
  | insertCallsiteBinding (row : CallsiteBindingRow)
  | insertCallsiteArgument (row : CallsiteArgumentRow)
  | insertCurrentProjection (row : CurrentProjectionRow)

def CpgTables.execute (tables : CpgTables) : CpgStatement → CpgTables
  | .createCallsiteBindings => tables
  | .createCallsiteArguments => tables
  | .insertProjection row => { tables with projections := tables.projections.insertOrReplace row }
  | .insertNode row => { tables with nodes := tables.nodes.insertOrReplace row }
  | .insertEdge row => { tables with edges := tables.edges.insertOrReplace row }
  | .insertEdgeSupport row => { tables with edgeSupport := tables.edgeSupport.insertOrReplace row }
  | .insertCallsiteBinding row =>
    { tables with callsiteBindings := tables.callsiteBindings.insertOrReplace row }
  | .insertCallsiteArgument row =>
    { tables with callsiteArguments := tables.callsiteArguments.insertOrReplace row }
  | .insertCurrentProjection row =>
    { tables with currentProjections := tables.currentProjections.insertOrReplace row }

def joinIds (ids : List StableId) : String :=
  ids.foldl (fun out id => (if out = "" then out else out ++ "\n") ++ id.toString) ""

section Rows

variable (pid : String)

def projectionRow (metadata : ProjectionMetadata) : ProjectionRow where
  projectionId := bindText pid
  schemaVersion := bindText metadata.schemaVersion
  revisionId := bindText metadata.revisionId.toString
  buildVariantId := bindText metadata.buildVariantId.toString
  moduleHash := bindText metadata.moduleHash
  summaryIds := bindText (joinIds metadata.summaryIds)

def nodeRow (node : CpgNode) : NodeRow where
  projectionId := bindText pid
  nodeId := bindText node.nodeId.toString
  nodeKind := node.kind.ordinal
  nodeLabel := bindText node.label

def edgeRow (edge : CpgEdge) : EdgeRow where
  projectionId := bindText pid
  edgeId := bindText edge.edgeId.toString
  edgeKind := edge.kind.ordinal
  sourceNodeId := bindText edge.sourceNodeId.toString
  targetNodeId := bindText edge.targetNodeId.toString
  aliasState := (edge.aliasState.map fun state => (state.ordinal : ℤ)).getD (-1)
  expandable := if edge.expandable then 1 else 0

def supportRow (edge : CpgEdge) (support : SupportRef) (position : ℕ) : EdgeSupportRow where
  projectionId := bindText pid
  edgeId := bindText edge.edgeId.toString
  position := position
  functionSummaryId := bindText support.functionSummaryId.toString
  provenanceRef := bindText support.provenanceRef

def bindingRow (binding : CallSiteBinding) : CallsiteBindingRow where
  projectionId := bindText pid
  callsiteId := bindText binding.callsiteId.toString
  ownerId := bindText binding.functionVariantId.toString
  calleeId := bindText binding.calleeRef.toString
  operation := bindText binding.normalizedOperation
  resultId := bindText (optionalId binding.resultRef)

def argumentRow (binding : CallSiteBinding) (argument : CallSiteArgument) :
    CallsiteArgumentRow where
  projectionId := bindText pid
  callsiteId := bindText binding.callsiteId.toString
  argumentIndex := argument.index
  valueId := bindText argument.valueRef.toString
  memoryId := bindText (optionalId argument.memoryRef)

def currentRow (metadata : ProjectionMetadata) : CurrentProjectionRow where
  revisionId := bindText metadata.revisionId.toString
  buildVariantId := bindText metadata.buildVariantId.toString
  projectionId := bindText pid

def edgeSupportRows (edge : CpgEdge) : List EdgeSupportRow :=
  edge.support.zipIdx.map fun (support, position) => supportRow pid edge support position

def argumentRows (binding : CallSiteBinding) : List CallsiteArgumentRow :=
  binding.arguments.map (argumentRow pid binding)

end Rows

/-- The statements of `StageProjection`, in its order. -/
def projectionStatements (sha256 : String → String) (graph : ThinCpg) : List CpgStatement :=
  let pid := (graph.projectionId sha256).toString
  (if graph.hasCompilerOwnership then [.createCallsiteBindings, .createCallsiteArguments] else []) ++
  [.insertProjection (projectionRow pid graph.metadata)] ++
  graph.nodes.map (fun node => .insertNode (nodeRow pid node)) ++
  graph.edges.flatMap (fun edge => .insertEdge (edgeRow pid edge) ::
    (edgeSupportRows pid edge).map .insertEdgeSupport) ++
  graph.callsites.flatMap (fun binding => .insertCallsiteBinding (bindingRow pid binding) ::
    (argumentRows pid binding).map .insertCallsiteArgument) ++
  [.insertCurrentProjection (currentRow pid graph.metadata)]

def stageProjection (sha256 : String → String) (tables : CpgTables) (graph : ThinCpg) :
    StatusOr CpgTables := do
  graph.validate
  pure ((projectionStatements sha256 graph).foldl CpgTables.execute tables)

/-- An `int` column as its text is parsed. -/
def parseInt (value : ℤ) : StatusOr ℤ :=
  if -2147483648 ≤ value ∧ value ≤ 2147483647 then pure value
  else throw (.internal "corrupt integer in CPG metadata")

/-- A text that is no id is passed over. -/
def idOfText (text : List Char) : List StableId :=
  match parseStableId (String.ofList text) with
  | .ok id => [id]
  | .error _ => []

def splitIdsFrom (current : List Char) : List Char → List StableId
  | [] => if current = [] then [] else idOfText current
  | c :: rest =>
    if c = '\n' then idOfText current ++ splitIdsFrom [] rest
    else splitIdsFrom (current ++ [c]) rest

def splitIds (joined : String) : List StableId := splitIdsFrom [] joined.toList

/-- An empty text stands for an absent id. -/
def parseOptionalId (text : String) : StatusOr (Option StableId) :=
  if text = "" then pure none else some <$> parseStableId text

/-- The casts to an enumeration only meet the values of its enumerators. -/
def readNode (row : NodeRow) : StatusOr CpgNode := do
  let nodeId ← parseStableId row.nodeId
  let kind ← parseInt row.nodeKind
  pure ⟨nodeId, .ofNat kind.toNat, row.nodeLabel⟩

def readSupport (row : EdgeSupportRow) : StatusOr (String × SupportRef) := do
  let summaryId ← parseStableId row.functionSummaryId
  pure (row.edgeId, ⟨summaryId, row.provenanceRef⟩)

def readEdge (supports : List (String × SupportRef)) (row : EdgeRow) : StatusOr CpgEdge :=
  match parseStableId row.edgeId, parseStableId row.sourceNodeId, parseStableId row.targetNodeId with
  | .ok edgeId, .ok source, .ok target => do
    let kind ← parseInt row.edgeKind
    let aliasState ← parseInt row.aliasState
    pure
      { edgeId := edgeId
        kind := .ofNat kind.toNat
        sourceNodeId := source
        targetNodeId := target
        aliasState := if 0 ≤ aliasState then some (.ofNat aliasState.toNat) else none
        expandable := row.expandable = 1
        support := (supports.filter (·.1 = row.edgeId)).map Prod.snd }
  | _, _, _ => throw (.internal "invalid edge row")

def readArgument (row : CallsiteArgumentRow) : StatusOr (String × CallSiteArgument) :=
  match parseInt row.argumentIndex, parseStableId row.valueId with
  | .ok index, .ok value =>
    if index < 0 then throw (.internal "invalid persisted callsite argument")
    else do
      let memory ← parseOptionalId row.memoryId
      pure (row.callsiteId, ⟨index.toNat, value, memory⟩)
  | _, _ => throw (.internal "invalid persisted callsite argument")

def readBinding (arguments : List (String × CallSiteArgument)) (row : CallsiteBindingRow) :
    StatusOr CallSiteBinding :=
  match parseStableId row.callsiteId, parseStableId row.ownerId, parseStableId row.calleeId with
  | .ok site, .ok owner, .ok callee => do
    let result ← parseOptionalId row.resultId
    pure ⟨site, owner, callee, row.operation,
      (arguments.filter (·.1 = row.callsiteId)).map Prod.snd, result⟩
  | _, _, _ => throw (.internal "invalid persisted callsite binding")

def readMetadata (row : ProjectionRow) : StatusOr ProjectionMetadata :=
  match parseStableId row.revisionId, parseStableId row.buildVariantId with
  | .ok revision, .ok build =>
    pure ⟨row.schemaVersion, revision, build, row.moduleHash, splitIds row.summaryIds⟩
  | _, _ => throw (.internal "invalid projection metadata")

namespace CpgTables

variable (tables : CpgTables) (pid : String)

def nodeRowsOf : List NodeRow :=
  (tables.nodes.rows.filter (·.projectionId = bindText pid)).insertionSort (·.nodeId ≤ ·.nodeId)

def supportRowsOf : List EdgeSupportRow :=
  (tables.edgeSupport.rows.filter (·.projectionId = bindText pid)).insertionSort fun a b =>
    toLex (a.edgeId, a.position) ≤ toLex (b.edgeId, b.position)

def edgeRowsOf : List EdgeRow :=
  (tables.edges.rows.filter (·.projectionId = bindText pid)).insertionSort (·.edgeId ≤ ·.edgeId)

def bindingRowsOf : List CallsiteBindingRow :=
  (tables.callsiteBindings.rows.filter (·.projectionId = bindText pid)).insertionSort
    (·.callsiteId ≤ ·.callsiteId)

def argumentRowsOf : List CallsiteArgumentRow :=
  (tables.callsiteArguments.rows.filter (·.projectionId = bindText pid)).insertionSort fun a b =>
    toLex (a.callsiteId, a.argumentIndex) ≤ toLex (b.callsiteId, b.argumentIndex)

/-- The calls of a compiler-owned graph, which is checked again as a whole. -/
def loadCallsites (sha256 : String → String) (projectionId : StableId) (graph : ThinCpg) :
    StatusOr ThinCpg := do
  let arguments ← (tables.argumentRowsOf projectionId.toString).mapM readArgument
  let graph ← (tables.bindingRowsOf projectionId.toString).foldlM (fun graph row => do
    let binding ← readBinding arguments row
    graph.addCallSiteBinding binding) graph
  graph.validate
  if graph.projectionId sha256 ≠ projectionId then
    throw (.failedPrecondition "compiler CPG content does not match projection ID")
  pure graph

def loadGraph (sha256 : String → String) (projectionId : StableId) (row : ProjectionRow) :
    StatusOr ThinCpg := do
  let metadata ← readMetadata row
  let graph ← (tables.nodeRowsOf projectionId.toString).foldlM (fun graph row => do
    let node ← readNode row
    graph.addNode node) (ThinCpg.empty metadata)
  let supports ← (tables.supportRowsOf projectionId.toString).mapM readSupport
  let graph ← (tables.edgeRowsOf projectionId.toString).foldlM (fun graph row => do
    let edge ← readEdge supports row
    graph.addEdge edge) graph
  if graph.hasCompilerOwnership then tables.loadCallsites sha256 projectionId graph
  else pure graph

def loadProjection (sha256 : String → String) (projectionId : StableId) : StatusOr ThinCpg :=
  match tables.projections.find? (bindText projectionId.toString) with
  | none => throw (.notFound "projection not found")
  | some row => tables.loadGraph sha256 projectionId row

def openCurrent (revisionId buildVariantId : StableId) : StatusOr StableId :=
  match tables.currentProjections.find?
      (bindText revisionId.toString, bindText buildVariantId.toString) with
  | none => throw (.notFound "no current CPG projection")
  | some row => parseStableId row.projectionId

end CpgTables

end Veritas.Cpg

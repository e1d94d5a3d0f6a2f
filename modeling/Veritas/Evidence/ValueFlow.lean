import Veritas.Cpg.CpgTypes
import Veritas.Evidence.QueryCompletion
import Veritas.Library.SimplePaths

/-! The value-flow query: simple flow paths between two nodes of a code property graph, within a
budget, and the flow facts about them. -/
namespace Veritas

open Ordered

structure FlowSlice where
  nodes : List CpgNode
  edges : List CpgEdge
  supportingFacts : List MachineFact
  contradictingFacts : List MachineFact
  unknowns : List MachineFact
  provenanceRefs : List StableId
  metadata : QueryResultMetadata

structure EvidenceFactSet where
  facts : List MachineFact
  metadata : QueryResultMetadata

/-- The indexed reads of a snapshot. -/
abbrev ReadFacts := FactSelector → PageRequest → StatusOr FactPage

structure FactSelection where
  limit : ℕ
  remainingWork : ℕ
  remainingBytes : ℕ
  remainingSelectors : ℕ
  facts : List MachineFact
  reasons : Finset TruncationReason

namespace FactSelection

def maxWork : ℕ := 100000

def start (budget : EvidenceQueryBudget) : FactSelection where
  limit := min budget.maxFactsPerQuery maxFactPageRows
  remainingWork := maxWork
  remainingBytes := 1024 * 1024
  remainingSelectors := maxFactPageRows
  facts := []
  reasons := ∅

def canRead (selection : FactSelection) : Bool :=
  selection.remainingWork ≠ 0 ∧ selection.remainingBytes ≠ 0 ∧ selection.remainingSelectors ≠ 0

/-- `try_emplace` into a map from fact ids: the fact that came first stays. -/
def keepFact (facts : List MachineFact) (fact : MachineFact) : List MachineFact :=
  if fact.factId ∈ facts.map MachineFact.factId then facts
  else facts.orderedInsert (fun a b => a.factId ≤ b.factId) fact

/-- Why a page that is not exhausted stopped. -/
def pageReason (page : FactPage) : Finset TruncationReason :=
  if page.exhausted then ∅
  else if page.workExhausted then {.maxFactWork}
  else if page.requiredOutputBytes.isSome then {.maxFactBytes}
  else {.maxFacts}

def takePage (selection : FactSelection) (page : FactPage) (keep : MachineFact → Bool) :
    StatusOr FactSelection := do
  if page.examined > selection.remainingWork ∨ page.outputBytes > selection.remainingBytes ∨
      page.facts.length > selection.limit then
    throw (.failedPrecondition "fact backend exceeded its page allowance")
  let facts := (page.facts.filter keep).foldl keepFact selection.facts
  return { selection with
    remainingWork := selection.remainingWork - page.examined
    remainingBytes := selection.remainingBytes - page.outputBytes
    facts := facts.take selection.limit
    reasons := selection.reasons ∪ pageReason page ∪
      if facts.length > selection.limit then {.maxFacts} else ∅ }

def add (readFacts : ReadFacts) (selection : FactSelection) (selector : FactSelector)
    (keep : MachineFact → Bool) : StatusOr FactSelection := do
  if selection.remainingWork = 0 ∨ selection.remainingSelectors = 0 then
    return { selection with reasons := insert .maxFactWork selection.reasons }
  else if selection.remainingBytes = 0 then
    return { selection with reasons := insert .maxFactBytes selection.reasons }
  else
    let page ← readFacts selector
      ⟨selection.limit, selection.remainingWork, selection.remainingBytes, none⟩
    takePage { selection with remainingSelectors := selection.remainingSelectors - 1 } page keep

/-- The selection as a fact set; its certificate is made by the caller. -/
def finish (selection : FactSelection) (runId : StableId) : EvidenceFactSet where
  facts := selection.facts
  metadata :=
    { completeness := if selection.reasons = ∅ then .complete else .truncated
      truncationReasons := ascending selection.reasons
      examinedItems := maxWork - selection.remainingWork
      analysisRunId := runId
      queryProvenanceId := default }

end FactSelection

/-- The flow edges out of a node by target, ties in edge order. -/
def flowAdjacency (cpg : ThinCpg) (node : StableId) : List (StableId × StableId) :=
  ((cpg.edges.filter fun e => e.kind = .flowsTo ∧ e.sourceNodeId = node).map fun e =>
    (e.targetNodeId, e.edgeId)).insertionSort fun a b => a.1 ≤ b.1

abbrev FlowPath := List StableId × List StableId

def enumeratePaths (cpg : ThinCpg) (src dst : StableId) (maxDepth : ℕ) : List FlowPath :=
  if src = dst then []
  else SimplePaths.search (flowAdjacency cpg) dst maxDepth [src] [] src

def flowSuccessors (cpg : ThinCpg) (node : StableId) : List StableId :=
  (flowAdjacency cpg node).map Prod.fst

/-- A stack entry for the start and one for every edge are enough. -/
def flowReachable (cpg : ThinCpg) (src dst : StableId) : Option Bool :=
  SimplePaths.reachLoop (flowSuccessors cpg) dst (cpg.edges.length + 1) ∅ [src]

/-- The paths taken so far, and why no further one was. -/
structure TakenPaths where
  resultNodes : Finset StableId
  resultEdges : Finset StableId
  returned : ℕ
  stopped : Option (TruncationReason × ℕ)

/-- Paths are taken in order until one more would exceed a limit. -/
def takePaths (budget : EvidenceQueryBudget) : TakenPaths → List FlowPath → TakenPaths
  | taken, [] => taken
  | taken, path :: rest =>
    if taken.returned = budget.maxPaths then
      { taken with stopped := some (.maxPaths, budget.maxPaths + 1) }
    else if (taken.resultNodes ∪ path.1.toFinset).card > budget.maxNodes then
      { taken with stopped := some (.maxNodes, taken.returned + 1) }
    else takePaths budget ⟨taken.resultNodes ∪ path.1.toFinset,
      taken.resultEdges ∪ path.2.toFinset, taken.returned + 1, none⟩ rest

/-- The graph part of a slice. -/
structure FlowPart where
  nodes : List CpgNode
  edges : List CpgEdge
  completeness : QueryCompleteness
  reasons : List TruncationReason
  examined : ℕ

def findNodes (cpg : ThinCpg) (ids : Finset StableId) : List CpgNode :=
  (ascending ids).filterMap fun id => cpg.nodes.find? (·.nodeId = id)

def findEdges (cpg : ThinCpg) (ids : Finset StableId) : List CpgEdge :=
  (ascending ids).filterMap fun id => cpg.edges.find? (·.edgeId = id)

/-- `none` is the reachability search cut short. -/
def flowPart (cpg : ThinCpg) (src dst : StableId) (budget : EvidenceQueryBudget) :
    Option FlowPart :=
  match enumeratePaths cpg src dst budget.maxDepth with
  | [] => (flowReachable cpg src dst).map fun found =>
      if found then ⟨[], [], .truncated, [.maxDepth], 0⟩ else ⟨[], [], .complete, [], 0⟩
  | paths@(_ :: _) =>
    let taken := takePaths budget ⟨∅, ∅, 0, none⟩ paths
    some (match taken.stopped with
      | none => ⟨findNodes cpg taken.resultNodes, findEdges cpg taken.resultEdges, .complete, [],
          taken.returned⟩
      | some (reason, examined) => ⟨findNodes cpg taken.resultNodes,
          findEdges cpg taken.resultEdges, .truncated, [reason], examined⟩)

def byCell (relation : RelationId) (column : ℕ) (domain : ColumnDomain) (id : StableId) :
    FactSelector :=
  ⟨relation.toMachine, [⟨column, domain, .stableId id⟩]⟩

def MachineCell.stableId? : MachineCell → Option StableId
  | .stableId id => some id
  | _ => none

def stableIdCell (row : MachineRow) (index : ℕ) : Option StableId :=
  row.cells[index]?.bind (·.stableId?)

def epistemicCell (row : MachineRow) (index : ℕ) : Option UInt8 :=
  row.cells[index]?.bind (·.epistemic?)

def sinkOnPath (pathNodes : Finset StableId) (fact : MachineFact) : Bool :=
  match stableIdCell fact.row 1 with
  | some sink => sink ∈ pathNodes
  | none => false

/-- The sweep over the path nodes; it ends after a read that had no allowance. -/
def addPathFacts (readFacts : ReadFacts) (relation : RelationId) (src : StableId)
    (pathNodes : Finset StableId) :
    FactSelection → List StableId → StatusOr FactSelection
  | selection, [] => pure selection
  | selection, node :: rest =>
    if node = src ∨ node.kind ≠ .valueRef then
      addPathFacts readFacts relation src pathNodes selection rest
    else do
      let hadAllowance := selection.canRead
      let selection ← selection.add readFacts (byCell relation 0 .valueId node)
        (sinkOnPath pathNodes)
      if hadAllowance then addPathFacts readFacts relation src pathNodes selection rest
      else return selection

/-- An endpoint that is no value contributes no facts. -/
def addEndpointFacts (readFacts : ReadFacts) (relation : RelationId) (column : ℕ) (ref : StableId)
    (selection : FactSelection) : StatusOr FactSelection :=
  if ref.kind = .valueRef then
    selection.add readFacts (byCell relation column .valueId ref) fun _ => true
  else pure selection

def addRelationFacts (readFacts : ReadFacts) (src dst : StableId) (pathNodes : Finset StableId)
    (selection : FactSelection) (relation : RelationId) : StatusOr FactSelection := do
  let selection ← addEndpointFacts readFacts relation 0 src selection
  let selection ← addEndpointFacts readFacts relation 1 dst selection
  addPathFacts readFacts relation src pathNodes selection (ascending pathNodes)

def selectFlowFacts (readFacts : ReadFacts) (src dst : StableId) (budget : EvidenceQueryBudget)
    (pathNodes : Finset StableId) : StatusOr FactSelection :=
  [RelationId.globalFlow, .supportGlobalFlow].foldlM
    (addRelationFacts readFacts src dst pathNodes) (FactSelection.start budget)

/-- Facts whose third cell is an epistemic state that passes a test, by fact id. -/
def classifyFacts (facts : List MachineFact) (test : UInt8 → Bool) : List MachineFact :=
  (facts.filter fun fact => (epistemicCell fact.row 2).any test).insertionSort fun a b =>
    a.factId ≤ b.factId

def mustNotByte : UInt8 := UInt8.ofNat EpistemicState.mustNot.ordinal
def unknownByte : UInt8 := UInt8.ofNat EpistemicState.unknown.ordinal

/-- The slice before its certificate is known. -/
def flowSlice (part : FlowPart) (selected : EvidenceFactSet) (runId : StableId) : FlowSlice :=
  let supporting := classifyFacts selected.facts fun v => v ≠ mustNotByte ∧ v ≠ unknownByte
  let contradicting := classifyFacts selected.facts (· = mustNotByte)
  let unknowns := classifyFacts selected.facts (· = unknownByte)
  { nodes := part.nodes
    edges := part.edges
    supportingFacts := supporting
    contradictingFacts := contradicting
    unknowns := unknowns
    provenanceRefs := ((supporting ++ contradicting ++ unknowns).map
      MachineFact.factId).insertionSort (· ≤ ·)
    metadata :=
      { completeness := if selected.metadata.completeness = .truncated then .truncated
          else part.completeness
        truncationReasons := part.reasons ++ if selected.metadata.completeness = .truncated then
          selected.metadata.truncationReasons else []
        examinedItems := part.examined + selected.metadata.examinedItems
        analysisRunId := runId
        queryProvenanceId := default } }

/-- `ReturnedMemberDigest` of a slice: its node ids and its edge ids, each in order. -/
def flowMemberDigest (sha256 : String → String) (slice : FlowSlice) : String :=
  sha256 (FieldCode.concat StableId.toString
    ((slice.nodes.map CpgNode.nodeId).insertionSort (· ≤ ·) ++
      (slice.edges.map CpgEdge.edgeId).insertionSort (· ≤ ·)))

structure FlowQueryOutcome where
  result : FlowSlice
  certificate : QueryCertificate

def pathNodes (paths : List FlowPath) : Finset StableId :=
  (paths.flatMap Prod.fst).toFinset

def certifyFlow (sha256 : String → String) (src dst : StableId) (budget : EvidenceQueryBudget)
    (fingerprint : String) (runId : StableId) (slice : FlowSlice) :
    StatusOr FlowQueryOutcome := do
  let certificate ← makeQueryCertificate sha256 "value_flow" [src, dst] budget fingerprint
    slice.metadata.completeness slice.metadata.truncationReasons slice.metadata.examinedItems
    (flowMemberDigest sha256 slice) runId
  return ⟨{ slice with metadata := { slice.metadata with
    queryProvenanceId := certificate.completionFact.factId } }, certificate⟩

/-- `RunValueFlow`; `none` is the reachability search cut short. -/
def runValueFlow (sha256 : String → String) (cpg : ThinCpg) (readFacts : ReadFacts)
    (src dst : StableId) (budget : EvidenceQueryBudget) (fingerprint : String) (runId : StableId) :
    Option (StatusOr FlowQueryOutcome) :=
  (flowPart cpg src dst budget).map fun part => do
    let selection ← selectFlowFacts readFacts src dst budget
      (pathNodes (enumeratePaths cpg src dst budget.maxDepth))
    certifyFlow sha256 src dst budget fingerprint runId
      (flowSlice part (selection.finish runId) runId)

end Veritas

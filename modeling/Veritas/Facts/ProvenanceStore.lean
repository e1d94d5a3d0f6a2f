import Veritas.Facts.FactStore

/-! Explaining a bound fact: a breadth-first walk over its selected proof, within a budget. -/
namespace Veritas

structure ExplainBudget where
  maxDepth : ℕ
  maxNodes : ℕ
  includeSourceAnchors : Bool
  includeSummaryIds : Bool
  includeDatalogDerivation : Bool
  maxEdges : ℕ
  selectedOnly : Bool

structure ProvenanceGraph where
  runId : String
  factId : String
  fact : ProtoFact
  binding : FactBinding
  nodes : List ProvenanceNode
  edges : List ProvenanceEdge
  frontierFactIds : List String
  truncated : Bool
  truncationReason : String

structure ExplainTask where
  factId : String
  distance : ℕ

/-- The walk so far; the tasks still to be taken from the queue are `pending`. -/
structure ExplainWalk where
  graph : ProvenanceGraph
  enqueued : List String
  pending : List ExplainTask

def ProvenanceGraph.truncate (graph : ProvenanceGraph) (reason : String) (frontier : List String) :
    ProvenanceGraph :=
  { graph with
    truncated := true
    truncationReason := reason
    frontierFactIds := graph.frontierFactIds ++ frontier }

/-- Selected witnesses first, then by witness id. -/
def nodeOrder (a b : ProvenanceNode) : Prop :=
  (a.selected = true ∧ b.selected = false) ∨ (a.selected = b.selected ∧ a.witnessId ≤ b.witnessId)

instance : DecidableRel nodeOrder := fun a b => by
  unfold nodeOrder
  infer_instance

def nodeRows (s : FactTables) (run factId : String) (selectedOnly : Bool) : List ProvenanceNode :=
  (s.nodes.filter fun n => n.runId = columnText run ∧ n.outputFactId = columnText factId ∧
    (selectedOnly → n.selected)).insertionSort nodeOrder

def edgeRows (s : FactTables) (run factId witnessId : String) (maxEdges : ℕ) :
    List ProvenanceEdge :=
  ((s.edges.filter fun e => e.runId = columnText run ∧ e.outputFactId = columnText factId ∧
    e.witnessId = columnText witnessId).insertionSort fun a b =>
      a.inputOrdinal ≤ b.inputOrdinal).take (maxEdges + 1)

/-- A node as the graph reports it. -/
def explainNode (budget : ExplainBudget) (run factId : String) (row : ProvenanceNode) :
    ProvenanceNode :=
  { row with
    runId := run
    outputFactId := factId
    sourceAnchorId := if budget.includeSourceAnchors then row.sourceAnchorId else ""
    summaryId := if budget.includeSummaryIds then row.summaryId else ""
    ruleId := if budget.includeDatalogDerivation then row.ruleId else "" }

def emitNodes (budget : ExplainBudget) (run factId : String) :
    ProvenanceGraph → List ProvenanceNode → ProvenanceGraph
  | graph, [] => graph
  | graph, row :: rest =>
    if graph.nodes.length ≥ budget.maxNodes then graph.truncate "max_nodes" [factId]
    else emitNodes budget run factId
      { graph with nodes := graph.nodes ++ [explainNode budget run factId row] } rest

def emitEdges (budget : ExplainBudget) (run : String) (task : ExplainTask) :
    ExplainWalk → List ProvenanceEdge → ExplainWalk
  | walk, [] => walk
  | walk, row :: rest =>
    if walk.graph.edges.length ≥ budget.maxEdges then
      { walk with graph := walk.graph.truncate "max_edges" [task.factId] }
    else
      let graph := { walk.graph with edges := walk.graph.edges ++
        [{ row with runId := run, outputFactId := task.factId }] }
      if row.inputKind = .derived ∧ row.inputId ∉ walk.enqueued then
        emitEdges budget run task ⟨graph, walk.enqueued ++ [row.inputId],
          walk.pending ++ [⟨row.inputId, task.distance + 1⟩]⟩ rest
      else emitEdges budget run task { walk with graph := graph } rest

/-- The current binding names the first node, and that node is selected. -/
def selectedMatches (s : FactTables) (run factId : String) (first : ProvenanceNode) : Bool :=
  match s.bindings.filter fun b => b.runId = columnText run ∧ b.factId = columnText factId ∧
      b.isCurrent with
  | [binding] => first.selected ∧ binding.selectedWitnessId = first.witnessId
  | _ => false

/-- Takes tasks from the queue; `none` is a walk cut short for want of fuel. -/
def explainLoop (s : FactTables) (run : String) (budget : ExplainBudget) :
    ℕ → ExplainWalk → Option (StatusOr ProvenanceGraph)
  | _, ⟨graph, _, []⟩ => some (pure graph)
  | 0, ⟨_, _, _ :: _⟩ => none
  | fuel + 1, ⟨graph, enqueued, task :: rest⟩ =>
    if task.distance > budget.maxDepth then
      some (pure (graph.truncate "max_depth" ((task :: rest).map (·.factId))))
    else
      match nodeRows s run task.factId budget.selectedOnly with
      -- a rooted input has no witness to expand
      | [] => explainLoop s run budget fuel ⟨graph, enqueued, rest⟩
      | first :: others =>
        if ¬ selectedMatches s run task.factId first then
          some (throw (.failedPrecondition "selected provenance binding is stale or missing"))
        else
          let graph := emitNodes budget run task.factId graph (first :: others)
          if graph.truncated then
            some (pure { graph with
              frontierFactIds := graph.frontierFactIds ++ rest.map (·.factId) })
          else
            let walk := emitEdges budget run task ⟨graph, enqueued, rest⟩
              (edgeRows s run task.factId first.witnessId budget.maxEdges)
            if walk.graph.truncated then
              some (pure { walk.graph with
                frontierFactIds := walk.graph.frontierFactIds ++ walk.pending.map (·.factId) })
            else explainLoop s run budget fuel walk

/-- The stored message and the current binding the graph starts with. -/
def explainStart (ctx : StoreContext) (s : FactTables) (runId factId : StableId) :
    StatusOr ProvenanceGraph :=
  match s.facts factId.column with
  | none => throw (.notFound "fact not found")
  | some stored => do
    let decoded ← hexDecode stored.cellsHex
    match ctx.wire.parse decoded with
    | none => throw (.internal "failed to parse stored fact")
    | some fact =>
      match s.currentBinding runId.column factId.column with
      | none => throw (.notFound "binding not found")
      | some binding =>
        return ⟨runId.toString, factId.toString, fact, binding, [], [], [], false, ""⟩

/-- `ProvenanceStore::Explain`; every fact is queued at most once, so a task for each edge and one
for the target are enough. -/
def explain (ctx : StoreContext) (s : FactTables) (runId factId : StableId)
    (budget : ExplainBudget) : Option (StatusOr ProvenanceGraph) :=
  match explainStart ctx s runId factId with
  | .error status => some (.error status)
  | .ok graph => explainLoop s runId.toString budget (s.edges.length + 1)
      ⟨graph, [factId.toString], [⟨factId.toString, 0⟩]⟩

end Veritas

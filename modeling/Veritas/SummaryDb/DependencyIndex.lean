import Veritas.Library.KeyedTable
import Veritas.Library.OrderedMap
import Veritas.SummaryDb.SummaryDelta

/-! The reverse dependency index and the impact set of a summary delta. -/
namespace Veritas.SummaryDb

open Matching

inductive DependencyKind
  | call | dataFlow | memoryEffect | controlFlow | range | alias | other
  deriving DecidableEq

inductive Sensitivity
  | semantic | evidenceOnly | identity | configuration
  deriving DecidableEq

def Sensitivity.toInt : Sensitivity → ℤ
  | .semantic => 0
  | .evidenceOnly => 1
  | .identity => 2
  | .configuration => 3

def sensitivityFromInt (value : ℤ) : Sensitivity :=
  if value = 0 then .semantic
  else if value = 1 then .evidenceOnly
  else if value = 2 then .identity
  else .configuration

@[simp] theorem sensitivityFromInt_toInt (s : Sensitivity) : sensitivityFromInt s.toInt = s := by
  cases s <;> rfl

def DependencyKind.toInt (kind : DependencyKind) : ℤ := kind.ctorIdx

/-- An edge to a producer's component; the consumer is named by the call that stores it. -/
structure DependencyEdge where
  consumerComponent : ComponentKind
  producerId : StableId
  producerComponent : ComponentKind
  dependencyKind : DependencyKind
  sensitivity : Sensitivity
  deriving DecidableEq

structure ConsumerRef where
  consumerId : StableId
  consumerComponent : ComponentKind
  sensitivity : Sensitivity
  deriving DecidableEq

structure ImpactBudget where
  maxConsumers : ℕ := 1000
  maxDepth : ℕ := 16

structure ImpactGraph where
  consumers : List ConsumerRef
  exploredEdges : ℕ
  truncated : Bool
  deriving DecidableEq

structure ReverseDependencyRow where
  consumerId : String
  consumerComponent : ℤ
  producerId : String
  producerComponent : ℤ
  sensitivity : ℤ

/-- The sensitivity is not part of the key. -/
def ReverseDependencyRow.primaryKey (row : ReverseDependencyRow) : String × ℤ × String × ℤ :=
  (row.consumerId, row.consumerComponent, row.producerId, row.producerComponent)

structure SummaryDependencyRow where
  consumerId : String
  consumerComponent : ℤ
  producerId : String
  producerComponent : ℤ
  dependencyKind : ℤ
  sensitivity : ℤ

structure DependencyIndex where
  reverseDependencyIndex : KeyedTable ReverseDependencyRow ReverseDependencyRow.primaryKey
  summaryDependencies : List SummaryDependencyRow

def DependencyIndex.empty : DependencyIndex := ⟨.empty, []⟩

def currentRow (consumerId : String) (edge : DependencyEdge) : ReverseDependencyRow where
  consumerId := consumerId
  consumerComponent := edge.consumerComponent
  producerId := edge.producerId.toString
  producerComponent := edge.producerComponent
  sensitivity := edge.sensitivity.toInt

def historicalRow (consumerId : String) (edge : DependencyEdge) : SummaryDependencyRow where
  consumerId := consumerId
  consumerComponent := edge.consumerComponent
  producerId := edge.producerId.toString
  producerComponent := edge.producerComponent
  dependencyKind := edge.dependencyKind.toInt
  sensitivity := edge.sensitivity.toInt

namespace DependencyIndex

def insertEdge (consumerId : String) (index : DependencyIndex) (edge : DependencyEdge) :
    DependencyIndex where
  reverseDependencyIndex := index.reverseDependencyIndex.insertOrReplace (currentRow consumerId edge)
  summaryDependencies := index.summaryDependencies ++ [historicalRow consumerId edge]

/-- One transaction: the consumer's rows go, then its new edges are inserted one by one. -/
def replaceCurrentDependencies (index : DependencyIndex) (consumerSummaryId : StableId)
    (edges : List DependencyEdge) : DependencyIndex :=
  let consumerId := consumerSummaryId.toString
  edges.foldl (insertEdge consumerId)
    { index with
      reverseDependencyIndex := index.reverseDependencyIndex.deleteWhere (·.consumerId = consumerId) }

def readConsumer (row : ReverseDependencyRow) : StatusOr ConsumerRef := do
  let id ← parseStableId row.consumerId
  return ⟨id, row.consumerComponent, sensitivityFromInt row.sensitivity⟩

def usersOf (index : DependencyIndex) (producerId : StableId) (producerComponent : ComponentKind) :
    StatusOr (List ConsumerRef) :=
  let rows := index.reverseDependencyIndex.rows.filter fun row =>
    row.producerId = producerId.toString ∧ row.producerComponent = producerComponent
  (sortOn (fun row => toLex (row.consumerId, row.consumerComponent)) rows).mapM readConsumer

end DependencyIndex

def componentKey (id : StableId) (kind : ComponentKind) : String :=
  id.toString ++ "\x1f" ++ kind.repr

def consumerKey (ref : ConsumerRef) : String := componentKey ref.consumerId ref.consumerComponent

structure FrontierItem where
  id : StableId
  component : ComponentKind
  scope : Sensitivity

abbrev Frontier := OrderedMap String FrontierItem

/-- What the walk has found, and the frontier of the next depth. -/
structure Walk where
  collected : OrderedMap String ConsumerRef
  nextFrontier : Frontier
  exploredEdges : ℕ
  truncated : Bool

def scopeOf (component : ComponentDelta) : Sensitivity :=
  if component.semanticChanged then .semantic else .evidenceOnly

def seedFrontier (delta : SummaryDelta) : Frontier :=
  delta.changedComponents.foldl (fun frontier component =>
    frontier.emplace (componentKey delta.oldSummaryId component.componentKind)
      ⟨delta.oldSummaryId, component.componentKind, scopeOf component⟩) .empty

/-- Once truncated, the rest of the users is left by `break`. -/
def followEdge (budget : ImpactBudget) (item : FrontierItem) (walk : Walk) (consumer : ConsumerRef) :
    Walk :=
  if walk.truncated then walk
  else if consumer.sensitivity ≠ item.scope then
    { walk with exploredEdges := walk.exploredEdges + 1 }
  else
    let key := consumerKey consumer
    if (walk.collected.find? key).isNone ∧ budget.maxConsumers ≤ walk.collected.entries.length then
      { walk with exploredEdges := walk.exploredEdges + 1, truncated := true }
    else
      { walk with
        collected := walk.collected.emplace key consumer
        nextFrontier := walk.nextFrontier.emplace key
          ⟨consumer.consumerId, consumer.consumerComponent, item.scope⟩
        exploredEdges := walk.exploredEdges + 1 }

def expandItem (index : DependencyIndex) (budget : ImpactBudget) (walk : Walk)
    (item : FrontierItem) : StatusOr Walk :=
  if walk.truncated then pure walk
  else do
    let users ← index.usersOf item.id item.component
    return users.foldl (followEdge budget item) walk

def expandFrontier (index : DependencyIndex) (budget : ImpactBudget) (frontier : Frontier)
    (walk : Walk) : StatusOr Walk :=
  (frontier.entries.map Prod.snd).foldlM (expandItem index budget) { walk with nextFrontier := .empty }

/-- The loop over the depths; `remaining` of them are within the budget. -/
def walkDepths (index : DependencyIndex) (budget : ImpactBudget) :
    (remaining : ℕ) → Frontier → Walk → StatusOr Walk
  | 0, frontier, walk =>
    if frontier.entries.isEmpty ∨ walk.truncated then pure walk
    else pure { walk with truncated := true }
  | remaining + 1, frontier, walk =>
    if frontier.entries.isEmpty ∨ walk.truncated then pure walk
    else do
      let walk ← expandFrontier index budget frontier walk
      walkDepths index budget remaining walk.nextFrontier walk

def DependencyIndex.getImpactSet (index : DependencyIndex) (delta : SummaryDelta)
    (budget : ImpactBudget) : StatusOr ImpactGraph := do
  let walk ← walkDepths index budget budget.maxDepth (seedFrontier delta) ⟨.empty, .empty, 0, false⟩
  return ⟨walk.collected.entries.map Prod.snd, walk.exploredEdges, walk.truncated⟩

end Veritas.SummaryDb

import Mathlib.Order.WithBot
import Veritas.Facts.RelationSchema

/-! The nodes, edges and call-site bindings of a code property graph. -/
namespace Veritas

inductive NodeKind
  | function | parameter | global | callSite | memoryObject | basicBlockSummary | summary | unknown
  deriving DecidableEq

inductive EdgeKind
  | contains | declares | calls | mayCall | reads | writes | flowsTo | aliases | dominatesSummary
  | summarizedBy | unknownAt
  deriving DecidableEq

/-- The enumerators' values. -/
def NodeKind.ordinal (kind : NodeKind) : ℕ := kind.ctorIdx

def EdgeKind.ordinal (kind : EdgeKind) : ℕ := kind.ctorIdx

theorem NodeKind.ordinal_injective : Function.Injective NodeKind.ordinal :=
  Function.LeftInverse.injective (g := NodeKind.ofNat) NodeKind.ofNat_ctorIdx

theorem EdgeKind.ordinal_injective : Function.Injective EdgeKind.ordinal :=
  Function.LeftInverse.injective (g := EdgeKind.ofNat) EdgeKind.ofNat_ctorIdx

structure SupportRef where
  functionSummaryId : StableId
  provenanceRef : String
  deriving DecidableEq

structure CpgNode where
  nodeId : StableId
  kind : NodeKind
  label : String
  deriving DecidableEq

structure CpgEdge where
  edgeId : StableId
  kind : EdgeKind
  sourceNodeId : StableId
  targetNodeId : StableId
  aliasState : Option AliasKind
  expandable : Bool
  support : List SupportRef

/-- `AddNode` and `AddEdge` keep one node and one edge for an id. -/
structure ThinCpg where
  nodes : List CpgNode
  edges : List CpgEdge
  nodes_nodup : (nodes.map CpgNode.nodeId).Nodup
  edges_nodup : (edges.map CpgEdge.edgeId).Nodup

structure CallSiteArgument where
  index : ℕ
  valueRef : StableId
  memoryRef : Option StableId
  deriving DecidableEq

structure CallSiteBinding where
  callsiteId : StableId
  functionVariantId : StableId
  calleeRef : StableId
  normalizedOperation : String
  arguments : List CallSiteArgument
  resultRef : Option StableId
  deriving DecidableEq

structure ProjectionMetadata where
  schemaVersion : String := "veritas.cpg.v1"
  revisionId : StableId
  buildVariantId : StableId
  moduleHash : String
  summaryIds : List StableId

def kCompilerOwnedProjection : String := "thin-cpg.v2"

def SupportRef.sortKey (ref : SupportRef) : StableId ×ₗ String :=
  toLex (ref.functionSummaryId, ref.provenanceRef)

theorem SupportRef.sortKey_injective : Function.Injective SupportRef.sortKey := by
  rintro ⟨id, text⟩ ⟨id', text'⟩ h
  have h := Prod.ext_iff.mp (toLex.injective h)
  rw [SupportRef.mk.injEq]
  exact h

instance : LinearOrder SupportRef :=
  LinearOrder.lift' SupportRef.sortKey SupportRef.sortKey_injective

/-- An absent value is before every other. -/
def CallSiteArgument.sortKey (argument : CallSiteArgument) : ℕ ×ₗ StableId ×ₗ WithBot StableId :=
  toLex (argument.index, toLex (argument.valueRef, (argument.memoryRef : WithBot StableId)))

def CallSiteBinding.sortKey (binding : CallSiteBinding) :
    StableId ×ₗ StableId ×ₗ StableId ×ₗ String ×ₗ List (ℕ ×ₗ StableId ×ₗ WithBot StableId) ×ₗ
      WithBot StableId :=
  toLex (binding.callsiteId, toLex (binding.functionVariantId, toLex (binding.calleeRef,
    toLex (binding.normalizedOperation, toLex (binding.arguments.map CallSiteArgument.sortKey,
      (binding.resultRef : WithBot StableId))))))

end Veritas

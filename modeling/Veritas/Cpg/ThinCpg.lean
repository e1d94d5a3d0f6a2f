import Veritas.Cpg.CpgTypes

/-! The graph that a projection builds: what it takes in, and what it must hold to be stored. -/
namespace Veritas

open Function StatusOr Ordered List CallSiteBinding CallSiteArgument

def CpgEdge.canonicalizeSupport (edge : CpgEdge) : CpgEdge :=
  { edge with support := sortUnique edge.support }

/-- What `AddEdge` leaves of an edge it takes. -/
structure CpgEdge.Accepted (edge : CpgEdge) : Prop where
  aliasState : edge.kind = .aliases ↔ edge.aliasState.isSome
  support : edge.support.SortedLT

theorem CpgEdge.accepted_canonicalizeSupport (edge : CpgEdge)
    (hmissing : ¬ (edge.kind = .aliases ∧ edge.aliasState.isNone))
    (hextra : ¬ (edge.kind ≠ .aliases ∧ edge.aliasState.isSome)) :
    edge.canonicalizeSupport.Accepted where
  aliasState := by
    have hstate : edge.canonicalizeSupport.aliasState = edge.aliasState := rfl
    have hkind : edge.canonicalizeSupport.kind = edge.kind := rfl
    rw [hstate, hkind]
    cases hheld : edge.aliasState with
    | none => simpa [hheld] using hmissing
    | some state => simpa [hheld] using hextra
  support := by
    have hsupport : edge.canonicalizeSupport.support = sortUnique edge.support := rfl
    rw [hsupport]
    exact sortedLT_ascending _

theorem CpgEdge.Accepted.canonicalizeSupport {edge : CpgEdge} (h : edge.Accepted) :
    edge.canonicalizeSupport = edge := by
  have hsupport : sortUnique edge.support = edge.support :=
    eq_of_sortedLT (sortedLT_ascending _) h.support fun _ => mem_sortUnique
  rw [CpgEdge.canonicalizeSupport, hsupport]

variable {binding : CallSiteBinding}

namespace CallSiteBinding

def validId (id : StableId) (kind : IdKind) : Bool :=
  id.kind = kind ∧ (hexToDigest id.digestHex.toList).isSome

def validIdentity (binding : CallSiteBinding) : Bool :=
  validId binding.callsiteId .callSite ∧ validId binding.functionVariantId .functionVariant ∧
    (validId binding.calleeRef .functionVariant ∨ validId binding.calleeRef .unknownNode) ∧
    binding.resultRef.all (validId · .valueRef)

def validArguments (binding : CallSiteBinding) : Bool :=
  binding.arguments.zipIdx.all fun (argument, i) =>
    argument.index = i ∧ validId argument.valueRef .valueRef ∧
      argument.memoryRef.all (validId · .memoryRef)

def validOperation (binding : CallSiteBinding) : Bool :=
  binding.normalizedOperation = "" ∨
    binding.normalizedOperation = "memcpy.v1" ∧
    (binding.arguments.length = 3 ∨ binding.arguments.length = 4) ∧
    (binding.arguments[0]?.bind memoryRef).isSome ∧
    (binding.arguments[1]?.bind memoryRef).isSome

def sortArguments (binding : CallSiteBinding) : CallSiteBinding :=
  { binding with arguments := binding.arguments.insertionSort (·.index ≤ ·.index) }

/-- What `AddCallSiteBinding` leaves of a binding it takes. -/
structure Accepted (binding : CallSiteBinding) : Prop where
  identity : binding.validIdentity
  arguments : binding.validArguments
  operation : binding.validOperation

/-- The arguments of an accepted binding are numbered in their order. -/
theorem Accepted.map_index_arguments (h : binding.Accepted) :
    binding.arguments.map index = List.range binding.arguments.length := by
  refine ext_getElem (by simp) fun i hi _ => ?_
  rw [length_map] at hi
  have hargument := all_eq_true.mp h.arguments (binding.arguments[i], i)
    (mem_zipIdx_iff_getElem?.mpr (getElem?_eq_getElem hi))
  rw [getElem_map, getElem_range]
  exact (of_decide_eq_true hargument).1

theorem Accepted.sortArguments (h : binding.Accepted) : binding.sortArguments = binding := by
  have hsorted : binding.arguments.Pairwise fun a b => a.index ≤ b.index := by
    rw [← pairwise_map (f := CallSiteArgument.index) (R := (· ≤ ·)), h.map_index_arguments]
    exact pairwise_le_range
  rw [CallSiteBinding.sortArguments, hsorted.insertionSort_eq]

end CallSiteBinding

namespace Cpg

/-- A graph holds only what its own operations took in. -/
structure ThinCpg extends Veritas.ThinCpg where
  metadata : ProjectionMetadata
  callsites : List CallSiteBinding
  edges_accepted : ∀ edge ∈ edges, edge.Accepted
  callsites_nodup : (callsites.map callsiteId).Nodup
  callsites_accepted : ∀ binding ∈ callsites, binding.Accepted

namespace ThinCpg

/-- A graph with its metadata set. -/
def empty (metadata : ProjectionMetadata) : ThinCpg where
  nodes := []
  edges := []
  nodes_nodup := .nil
  edges_nodup := .nil
  metadata := metadata
  callsites := []
  edges_accepted := List.forall_mem_nil _
  callsites_nodup := .nil
  callsites_accepted := List.forall_mem_nil _

variable (graph : ThinCpg)

def hasCompilerOwnership : Bool := graph.metadata.schemaVersion = kCompilerOwnedProjection

def findNode (nodeId : StableId) : Option CpgNode := graph.nodes.find? (·.nodeId = nodeId)

def hasNode (nodeId : StableId) : Bool := (graph.findNode nodeId).isSome

end ThinCpg

theorem nodup_map_concat {α κ : Type} [DecidableEq κ] {key : α → κ} {l : List α} {x : α}
    (hl : (l.map key).Nodup) (hx : l.find? (key · = key x) = none) :
    ((l ++ [x]).map key).Nodup := by
  rw [map_append, nodup_append']
  refine ⟨hl, nodup_singleton _, fun k hk hk' => ?_⟩
  obtain ⟨y, hy, rfl⟩ := mem_map.mp hk
  have hne := find?_eq_none.mp hx y hy
  exact hne (decide_eq_true (mem_singleton.mp hk'))

theorem forall_mem_concat {α : Type} {p : α → Prop} {l : List α} {x : α} (hl : ∀ y ∈ l, p y)
    (hx : p x) : ∀ y ∈ l ++ [x], p y := by
  intro y hy
  rcases mem_append.mp hy with hy | hy
  · exact hl y hy
  · rw [mem_singleton.mp hy]
    exact hx

namespace ThinCpg

def addNode (graph : ThinCpg) (node : CpgNode) : StatusOr ThinCpg :=
  match h : graph.nodes.find? (·.nodeId = node.nodeId) with
  | some held =>
    if held.kind ≠ node.kind ∨ held.label ≠ node.label then
      throw (.failedPrecondition
        ("stable-ID collision with different content: " ++ node.nodeId.toString))
    else pure graph
  | none => pure { graph with
      nodes := graph.nodes ++ [node]
      nodes_nodup := nodup_map_concat graph.nodes_nodup h }

def sameEdgeContent (a b : CpgEdge) : Bool :=
  a.kind = b.kind ∧ a.sourceNodeId = b.sourceNodeId ∧ a.targetNodeId = b.targetNodeId ∧
    a.aliasState = b.aliasState ∧ a.expandable = b.expandable ∧ a.support = b.support

def insertEdge (graph : ThinCpg) (edge : CpgEdge) (haccepted : edge.Accepted) : StatusOr ThinCpg :=
  match h : graph.edges.find? (·.edgeId = edge.edgeId) with
  | some held =>
    if ¬ sameEdgeContent held edge then
      throw (.failedPrecondition
        ("edge-ID collision with different content: " ++ edge.edgeId.toString))
    else pure graph
  | none => pure { graph with
      edges := graph.edges ++ [edge]
      edges_nodup := nodup_map_concat graph.edges_nodup h
      edges_accepted := forall_mem_concat graph.edges_accepted haccepted }

def addEdge (graph : ThinCpg) (edge : CpgEdge) : StatusOr ThinCpg :=
  if hmissing : edge.kind = .aliases ∧ edge.aliasState.isNone then
    throw (.invalidArgument "ALIASES edge requires alias_state")
  else if hextra : edge.kind ≠ .aliases ∧ edge.aliasState.isSome then
    throw (.invalidArgument "alias_state is valid only for ALIASES")
  else graph.insertEdge edge.canonicalizeSupport (edge.accepted_canonicalizeSupport hmissing hextra)

def insertCallSiteBinding (graph : ThinCpg) (binding : CallSiteBinding)
    (haccepted : binding.Accepted) : StatusOr ThinCpg :=
  match h : graph.callsites.find? (·.callsiteId = binding.callsiteId) with
  | some held =>
    if held = binding then pure graph
    else throw (.failedPrecondition "conflicting callsite binding")
  | none => pure { graph with
      callsites := graph.callsites ++ [binding]
      callsites_nodup := nodup_map_concat graph.callsites_nodup h
      callsites_accepted := forall_mem_concat graph.callsites_accepted haccepted }

def addCallSiteBinding (graph : ThinCpg) (binding : CallSiteBinding) : StatusOr ThinCpg :=
  if hidentity : ¬ binding.sortArguments.validIdentity then
    throw (.invalidArgument "invalid callsite binding identity")
  else if harguments : ¬ binding.sortArguments.validArguments then
    throw (.invalidArgument "invalid or noncontiguous callsite argument")
  else if hoperation : ¬ binding.sortArguments.validOperation then
    throw (.invalidArgument "unsupported normalized callsite operation")
  else graph.insertCallSiteBinding binding.sortArguments
    ⟨not_not.mp hidentity, not_not.mp harguments, not_not.mp hoperation⟩

/-- The owners and call targets that the edges of a compiler-owned graph declare. -/
structure Ownership where
  owners : StableId → Option StableId
  callTargets : List (StableId × StableId)

def validateEdge (graph : ThinCpg) (edge : CpgEdge) : StatusOr Unit := do
  if ¬ graph.hasNode edge.sourceNodeId then
    throw (.failedPrecondition ("edge source node missing: " ++ edge.edgeId.toString))
  if ¬ graph.hasNode edge.targetNodeId then
    throw (.failedPrecondition ("edge target node missing: " ++ edge.edgeId.toString))
  if ¬ edge.support.IsChain (· < ·) then
    throw (.invalidArgument "support records are not sorted")

def validateCallSite (graph : ThinCpg) (node : CpgNode) : StatusOr Unit := do
  if node.kind = .callSite ∧ node.nodeId ∉ graph.callsites.map callsiteId then
    throw (.failedPrecondition "compiler callsite binding is missing")

def addOwner (graph : ThinCpg) (owners : StableId → Option StableId) (edge : CpgEdge) :
    StatusOr (StableId → Option StableId) :=
  if (graph.findNode edge.sourceNodeId).map CpgNode.kind ≠ some .function then
    throw (.invalidArgument "compiler containment requires a function owner")
  else
    match owners edge.targetNodeId with
    | none => pure (update owners edge.targetNodeId (some edge.sourceNodeId))
    | some owner =>
      if owner ≠ edge.sourceNodeId then
        throw (.failedPrecondition "conflicting compiler containment owners")
      else pure owners

def addOwnership (graph : ThinCpg) (state : Ownership) (edge : CpgEdge) : StatusOr Ownership :=
  let callTargets :=
    if edge.kind = .calls ∨ edge.kind = .mayCall then
      (edge.sourceNodeId, edge.targetNodeId) :: state.callTargets
    else state.callTargets
  if edge.kind ≠ .contains then pure ⟨state.owners, callTargets⟩
  else (⟨·, callTargets⟩) <$> graph.addOwner state.owners edge

def validateArgument (graph : ThinCpg) (state : Ownership) (binding : CallSiteBinding)
    (argument : CallSiteArgument) : StatusOr Unit := do
  if ¬ graph.hasNode argument.valueRef ∨ ¬ argument.memoryRef.all graph.hasNode then
    throw (.failedPrecondition "callsite argument references a missing node")
  if ¬ (state.owners argument.valueRef).all (· = binding.functionVariantId) then
    throw (.failedPrecondition "callsite argument belongs to another caller")

def validateBinding (graph : ThinCpg) (state : Ownership) (binding : CallSiteBinding) :
    StatusOr Unit := do
  if state.owners binding.callsiteId ≠ some binding.functionVariantId ∨
      ¬ graph.hasNode binding.calleeRef ∨ ¬ binding.resultRef.all graph.hasNode then
    throw (.failedPrecondition "callsite binding has missing owner or node")
  if (graph.findNode binding.callsiteId).map CpgNode.kind ≠ some .callSite then
    throw (.invalidArgument "callsite binding references a non-callsite node")
  binding.arguments.forM (graph.validateArgument state binding)
  if (binding.callsiteId, binding.calleeRef) ∉ state.callTargets then
    throw (.failedPrecondition "callsite target edge missing")

def validateCompilerOwnership (graph : ThinCpg) : StatusOr Unit := do
  graph.nodes.forM graph.validateCallSite
  let state ← graph.edges.foldlM graph.addOwnership ⟨fun _ => none, []⟩
  graph.callsites.forM (graph.validateBinding state)

def validate (graph : ThinCpg) : StatusOr Unit := do
  if graph.metadata.revisionId.digestHex = "" ∨ graph.metadata.buildVariantId.digestHex = "" then
    throw (.failedPrecondition "projection metadata requires revision and build-variant identity")
  graph.edges.forM graph.validateEdge
  if ¬ graph.hasCompilerOwnership ∧ graph.callsites ≠ [] then
    throw (.failedPrecondition "legacy CPG cannot declare compiler call bindings")
  if graph.hasCompilerOwnership then graph.validateCompilerOwnership

/-- What the edges of a compiler-owned graph must say, in whatever order they stand. -/
structure CompilerValid (graph : ThinCpg) : Prop where
  bound : ∀ node ∈ graph.nodes, node.kind = .callSite →
    node.nodeId ∈ graph.callsites.map callsiteId
  functionOwner : ∀ edge ∈ graph.edges, edge.kind = .contains →
    ∃ node ∈ graph.nodes, node.nodeId = edge.sourceNodeId ∧ node.kind = .function
  oneOwner : ∀ edge ∈ graph.edges, ∀ edge' ∈ graph.edges, edge.kind = .contains →
    edge'.kind = .contains → edge.targetNodeId = edge'.targetNodeId →
      edge.sourceNodeId = edge'.sourceNodeId
  owned : ∀ binding ∈ graph.callsites, ∃ edge ∈ graph.edges, edge.kind = .contains ∧
    edge.targetNodeId = binding.callsiteId ∧ edge.sourceNodeId = binding.functionVariantId
  references : ∀ binding ∈ graph.callsites, graph.hasNode binding.calleeRef ∧
    binding.resultRef.all graph.hasNode
  callSite : ∀ binding ∈ graph.callsites, ∃ node ∈ graph.nodes,
    node.nodeId = binding.callsiteId ∧ node.kind = .callSite
  arguments : ∀ binding ∈ graph.callsites, ∀ argument ∈ binding.arguments,
    graph.hasNode argument.valueRef ∧ argument.memoryRef.all graph.hasNode
  argumentOwner : ∀ binding ∈ graph.callsites, ∀ argument ∈ binding.arguments,
    ∀ edge ∈ graph.edges, edge.kind = .contains → edge.targetNodeId = argument.valueRef →
      edge.sourceNodeId = binding.functionVariantId
  called : ∀ binding ∈ graph.callsites, ∃ edge ∈ graph.edges,
    (edge.kind = .calls ∨ edge.kind = .mayCall) ∧ edge.sourceNodeId = binding.callsiteId ∧
      edge.targetNodeId = binding.calleeRef

/-- What `Validate` accepts. -/
structure Valid (graph : ThinCpg) : Prop where
  revision : graph.metadata.revisionId.digestHex ≠ ""
  buildVariant : graph.metadata.buildVariantId.digestHex ≠ ""
  endpoints : ∀ edge ∈ graph.edges,
    graph.hasNode edge.sourceNodeId ∧ graph.hasNode edge.targetNodeId
  legacy : ¬ graph.hasCompilerOwnership → graph.callsites = []
  compiler : graph.hasCompilerOwnership → graph.CompilerValid

variable {graph : ThinCpg}

theorem findNode_eq_some {id : StableId} {node : CpgNode} :
    graph.findNode id = some node ↔ node ∈ graph.nodes ∧ node.nodeId = id :=
  find?_eq_some_of_inj fun _ h _ h' => List.inj_on_of_nodup_map graph.nodes_nodup h h'

theorem hasNode_iff {id : StableId} : graph.hasNode id ↔ id ∈ graph.nodes.map CpgNode.nodeId := by
  rw [hasNode, Option.isSome_iff_exists, mem_map]
  simp only [findNode_eq_some]

theorem map_kind_findNode {id : StableId} {kind : NodeKind} :
    (graph.findNode id).map CpgNode.kind = some kind ↔
      ∃ node ∈ graph.nodes, node.nodeId = id ∧ node.kind = kind := by
  rw [Option.map_eq_some_iff]
  simp only [findNode_eq_some, and_assoc]

theorem validateEdge_eq_ok {edge : CpgEdge} (haccepted : edge.Accepted) :
    graph.validateEdge edge = .ok () ↔
      graph.hasNode edge.sourceNodeId ∧ graph.hasNode edge.targetNodeId := by
  unfold validateEdge
  rw [guard_eq_ok, guard_eq_ok, throwIf_eq_ok, not_not, not_not, not_not]
  have hchain := haccepted.support.isChain
  tauto

/-- What the pass over the edges knows after the edges it has seen. -/
structure Ownership.Reads (edges : List CpgEdge) (state : Ownership) : Prop where
  owners : ∀ target source, state.owners target = some source ↔ ∃ edge ∈ edges,
    edge.kind = .contains ∧ edge.targetNodeId = target ∧ edge.sourceNodeId = source
  callTargets : ∀ source target, (source, target) ∈ state.callTargets ↔ ∃ edge ∈ edges,
    (edge.kind = .calls ∨ edge.kind = .mayCall) ∧ edge.sourceNodeId = source ∧
      edge.targetNodeId = target

section Ownership

variable {edges : List CpgEdge} {edge : CpgEdge} {state state' : Ownership}

theorem Ownership.Reads.ownedBy_iff (h : state.Reads edges) {target source : StableId} :
    (∀ owner, state.owners target = some owner → owner = source) ↔ ∀ e ∈ edges,
      e.kind = .contains → e.targetNodeId = target → e.sourceNodeId = source := by
  simp only [h.owners, forall_exists_index, and_imp]
  constructor
  · intro hall e he hkind htarget
    exact hall _ e he hkind htarget rfl
  · rintro hall _ e he hkind htarget rfl
    exact hall e he hkind htarget

theorem mem_callTargets_addOwnership (h : state.Reads edges)
    (hok : graph.addOwnership state edge = .ok state') (source target : StableId) :
    (source, target) ∈ state'.callTargets ↔ ∃ e ∈ edges ++ [edge],
      (e.kind = .calls ∨ e.kind = .mayCall) ∧ e.sourceNodeId = source ∧ e.targetNodeId = target := by
  have hpairs : state'.callTargets = if edge.kind = .calls ∨ edge.kind = .mayCall then
      (edge.sourceNodeId, edge.targetNodeId) :: state.callTargets else state.callTargets := by
    unfold addOwnership at hok
    by_cases hkind : edge.kind ≠ .contains
    · rw [if_pos hkind] at hok
      rw [← pure_eq_ok.mp hok]
    · rw [if_neg hkind] at hok
      obtain ⟨owners, -, rfl⟩ := map_eq_ok.mp hok
      rfl
  rw [hpairs, exists_mem_concat, ← h.callTargets]
  by_cases hcall : edge.kind = .calls ∨ edge.kind = .mayCall
  · rw [if_pos hcall, mem_cons, Prod.mk.injEq, or_comm, eq_comm, @eq_comm _ target]
    simp only [hcall, true_and]
  · simp only [hcall, if_false, false_and, or_false]

theorem addOwner_eq_ok {owners owners' : StableId → Option StableId} :
    graph.addOwner owners edge = .ok owners' ↔
      (∃ node ∈ graph.nodes, node.nodeId = edge.sourceNodeId ∧ node.kind = .function) ∧
      (∀ owner, owners edge.targetNodeId = some owner → owner = edge.sourceNodeId) ∧
      owners' = update owners edge.targetNodeId (some edge.sourceNodeId) := by
  unfold addOwner
  by_cases hfunction : (graph.findNode edge.sourceNodeId).map CpgNode.kind ≠ some .function
  · rw [if_pos hfunction]
    exact ⟨fun h => absurd h throw_ne_ok,
      fun h => absurd (map_kind_findNode.mpr h.1) hfunction⟩
  · rw [if_neg hfunction, ← map_kind_findNode]
    have hfunction := not_not.mp hfunction
    cases howner : owners edge.targetNodeId with
    | none =>
      simp only [pure_eq_ok]
      exact ⟨fun h => ⟨hfunction, nofun, h.symm⟩, fun h => h.2.2.symm⟩
    | some owner =>
      by_cases hne : owner ≠ edge.sourceNodeId
      · simp only [if_pos hne]
        exact ⟨fun h => absurd h throw_ne_ok, fun h => absurd (h.2.1 owner rfl) hne⟩
      · have heq := not_not.mp hne
        simp only [if_neg hne, pure_eq_ok]
        have hself : update owners edge.targetNodeId (some edge.sourceNodeId) = owners := by
          rw [← heq, ← howner, update_eq_self]
        rw [hself]
        exact ⟨fun h => ⟨hfunction, fun _ h' => (Option.some.inj h').symm.trans heq, h.symm⟩,
          fun h => h.2.2.symm⟩

theorem addOwnership_reads (h : state.Reads edges)
    (hok : graph.addOwnership state edge = .ok state') :
    state'.Reads (edges ++ [edge]) ∧ (edge.kind = .contains →
      ∃ node ∈ graph.nodes, node.nodeId = edge.sourceNodeId ∧ node.kind = .function) := by
  have hcalls := mem_callTargets_addOwnership h hok
  unfold addOwnership at hok
  by_cases hkind : edge.kind ≠ .contains
  · rw [if_pos hkind] at hok
    have howners : state'.owners = state.owners := by rw [← pure_eq_ok.mp hok]
    refine ⟨⟨fun target source => ?_, hcalls⟩, fun hcontains => absurd hcontains hkind⟩
    simp only [howners, exists_mem_concat, ← h.owners, hkind, false_and, or_false]
  · rw [if_neg hkind] at hok
    have hkind := not_not.mp hkind
    obtain ⟨owners, howner, rfl⟩ := map_eq_ok.mp hok
    obtain ⟨hfunction, hsame, rfl⟩ := addOwner_eq_ok.mp howner
    refine ⟨⟨fun target source => ?_, hcalls⟩, fun _ => hfunction⟩
    dsimp only
    by_cases htarget : target = edge.targetNodeId
    · subst htarget
      rw [update_self, Option.some.injEq, exists_mem_concat, ← h.owners]
      exact ⟨fun heq => .inr ⟨hkind, rfl, heq⟩, fun hor => hor.elim (fun hs => (hsame _ hs).symm)
        fun hs => hs.2.2⟩
    · simp only [update_of_ne htarget, exists_mem_concat, ← h.owners, Ne.symm htarget, false_and,
        and_false, or_false]

theorem addOwnership_isOk (h : state.Reads edges)
    (hfunction : edge.kind = .contains →
      ∃ node ∈ graph.nodes, node.nodeId = edge.sourceNodeId ∧ node.kind = .function)
    (hsame : edge.kind = .contains → ∀ e ∈ edges, e.kind = .contains →
      e.targetNodeId = edge.targetNodeId → e.sourceNodeId = edge.sourceNodeId) :
    ∃ state', graph.addOwnership state edge = .ok state' := by
  unfold addOwnership
  by_cases hkind : edge.kind ≠ .contains
  · rw [if_pos hkind]
    exact ⟨_, rfl⟩
  · rw [if_neg hkind]
    have hkind := not_not.mp hkind
    refine ⟨_, map_eq_ok.mpr ⟨_, addOwner_eq_ok.mpr ⟨hfunction hkind, ?_, rfl⟩, rfl⟩⟩
    exact h.ownedBy_iff.mpr (hsame hkind)

theorem reads_nil : Ownership.Reads [] ⟨fun _ => none, []⟩ :=
  ⟨by simp, by simp⟩

/-- A pass that succeeds has read every edge, and every container was a function. -/
theorem ownership_reads
    (h : graph.edges.foldlM graph.addOwnership ⟨fun _ => none, []⟩ = .ok state) :
    state.Reads graph.edges ∧ ∀ edge ∈ graph.edges, edge.kind = .contains →
      ∃ node ∈ graph.nodes, node.nodeId = edge.sourceNodeId ∧ node.kind = .function := by
  refine foldlM_invariant (P := fun pre state => Ownership.Reads pre state ∧
    ∀ edge ∈ pre, edge.kind = .contains →
      ∃ node ∈ graph.nodes, node.nodeId = edge.sourceNodeId ∧ node.kind = .function)
    ⟨reads_nil, forall_mem_nil _⟩ (fun pre edge s s' hpre hstep => ?_) h
  obtain ⟨hreads, hfunction⟩ := addOwnership_reads hpre.1 hstep
  exact ⟨hreads, forall_mem_concat hpre.2 hfunction⟩

/-- The pass succeeds when every container is a function and no node has two. -/
theorem ownership_eq_ok :
    (∃ state, graph.edges.foldlM graph.addOwnership ⟨fun _ => none, []⟩ = .ok state) ↔
      (∀ edge ∈ graph.edges, edge.kind = .contains →
        ∃ node ∈ graph.nodes, node.nodeId = edge.sourceNodeId ∧ node.kind = .function) ∧
      ∀ edge ∈ graph.edges, ∀ edge' ∈ graph.edges, edge.kind = .contains →
        edge'.kind = .contains → edge.targetNodeId = edge'.targetNodeId →
          edge.sourceNodeId = edge'.sourceNodeId := by
  constructor
  · rintro ⟨state, hstate⟩
    obtain ⟨hreads, hfunction⟩ := ownership_reads hstate
    refine ⟨hfunction, fun edge hedge edge' hedge' hkind hkind' htarget => ?_⟩
    have hown := (hreads.owners _ _).mpr ⟨edge, hedge, hkind, htarget, rfl⟩
    have hown' := (hreads.owners _ _).mpr ⟨edge', hedge', hkind', rfl, rfl⟩
    exact Option.some.inj (hown.symm.trans hown')
  · rintro ⟨hfunction, hsame⟩
    obtain ⟨state, hstate, -⟩ := foldlM_isOk Ownership.Reads reads_nil
      (f := graph.addOwnership) (l := graph.edges) (fun pre edge post hsplit s hs => by
        have hmem : edge ∈ graph.edges := by simp [hsplit]
        have hnext : ∃ s', graph.addOwnership s edge = .ok s' :=
          addOwnership_isOk hs (hfunction edge hmem) fun hkind e he hcontains =>
            hsame e (by simp [hsplit, he]) edge hmem hcontains hkind
        obtain ⟨s', hs'⟩ := hnext
        exact ⟨s', hs', (addOwnership_reads hs hs').1⟩)
    exact ⟨state, hstate⟩

theorem validateArgument_eq_ok {argument : CallSiteArgument} :
    graph.validateArgument state binding argument = .ok () ↔
      (graph.hasNode argument.valueRef ∧ argument.memoryRef.all graph.hasNode) ∧
      ∀ owner, state.owners argument.valueRef = some owner → owner = binding.functionVariantId := by
  unfold validateArgument
  rw [guard_eq_ok, throwIf_eq_ok, not_or, not_not, not_not, not_not]
  refine and_congr_right fun _ => ?_
  cases state.owners argument.valueRef <;> simp

theorem validateBinding_eq_ok :
    graph.validateBinding state binding = .ok () ↔
      state.owners binding.callsiteId = some binding.functionVariantId ∧
      (graph.hasNode binding.calleeRef ∧ binding.resultRef.all graph.hasNode) ∧
      (∃ node ∈ graph.nodes, node.nodeId = binding.callsiteId ∧ node.kind = .callSite) ∧
      (∀ argument ∈ binding.arguments, graph.validateArgument state binding argument = .ok ()) ∧
      (binding.callsiteId, binding.calleeRef) ∈ state.callTargets := by
  unfold validateBinding
  rw [guard_eq_ok, guard_eq_ok, bind_unit_eq_ok, forM_eq_ok, throwIf_eq_ok, not_or, not_or, not_not,
    not_not, not_not, not_not, not_not, map_kind_findNode]
  tauto

/-- The checks of one binding, against the edges themselves. -/
theorem validateBinding_iff (h : state.Reads graph.edges) :
    graph.validateBinding state binding = .ok () ↔
      (∃ edge ∈ graph.edges, edge.kind = .contains ∧ edge.targetNodeId = binding.callsiteId ∧
        edge.sourceNodeId = binding.functionVariantId) ∧
      (graph.hasNode binding.calleeRef ∧ binding.resultRef.all graph.hasNode) ∧
      (∃ node ∈ graph.nodes, node.nodeId = binding.callsiteId ∧ node.kind = .callSite) ∧
      (∀ argument ∈ binding.arguments,
        (graph.hasNode argument.valueRef ∧ argument.memoryRef.all graph.hasNode) ∧
        ∀ edge ∈ graph.edges, edge.kind = .contains → edge.targetNodeId = argument.valueRef →
          edge.sourceNodeId = binding.functionVariantId) ∧
      ∃ edge ∈ graph.edges, (edge.kind = .calls ∨ edge.kind = .mayCall) ∧
        edge.sourceNodeId = binding.callsiteId ∧ edge.targetNodeId = binding.calleeRef := by
  rw [validateBinding_eq_ok, h.owners, h.callTargets]
  simp only [validateArgument_eq_ok, h.ownedBy_iff]

end Ownership

theorem validateCompilerOwnership_eq_ok :
    graph.validateCompilerOwnership = .ok () ↔ graph.CompilerValid := by
  have hsites : graph.nodes.forM graph.validateCallSite = .ok () ↔
      ∀ node ∈ graph.nodes, node.kind = .callSite →
        node.nodeId ∈ graph.callsites.map callsiteId := by
    rw [forM_eq_ok]
    refine forall₂_congr fun node _ => ?_
    unfold validateCallSite
    rw [throwIf_eq_ok, not_and, not_not]
  unfold validateCompilerOwnership
  rw [bind_unit_eq_ok, hsites, bind_eq_ok]
  constructor
  · rintro ⟨hbound, state, hstate, hbindings⟩
    obtain ⟨hfunction, hsame⟩ := ownership_eq_ok.mp ⟨state, hstate⟩
    have hreads := (ownership_reads hstate).1
    have hall := fun binding hmem => (validateBinding_iff hreads).mp
      (forM_eq_ok.mp hbindings binding hmem)
    exact ⟨hbound, hfunction, hsame, fun b hb => (hall b hb).1, fun b hb => (hall b hb).2.1,
      fun b hb => (hall b hb).2.2.1, fun b hb a ha => ((hall b hb).2.2.2.1 a ha).1,
      fun b hb a ha => ((hall b hb).2.2.2.1 a ha).2, fun b hb => (hall b hb).2.2.2.2⟩
  · intro h
    obtain ⟨state, hstate⟩ := ownership_eq_ok.mpr ⟨h.functionOwner, h.oneOwner⟩
    refine ⟨h.bound, state, hstate, forM_eq_ok.mpr fun b hb => ?_⟩
    exact (validateBinding_iff (ownership_reads hstate).1).mpr ⟨h.owned b hb, h.references b hb,
      h.callSite b hb, fun a ha => ⟨h.arguments b hb a ha, h.argumentOwner b hb a ha⟩, h.called b hb⟩

theorem validate_eq_ok : graph.validate = .ok () ↔ graph.Valid := by
  have hedges : graph.edges.forM graph.validateEdge = .ok () ↔ ∀ edge ∈ graph.edges,
      graph.hasNode edge.sourceNodeId ∧ graph.hasNode edge.targetNodeId := by
    rw [forM_eq_ok]
    exact forall₂_congr fun edge hedge => validateEdge_eq_ok (graph.edges_accepted edge hedge)
  have howned : (if graph.hasCompilerOwnership then graph.validateCompilerOwnership
      else (pure () : StatusOr Unit)) = .ok () ↔
      (graph.hasCompilerOwnership → graph.CompilerValid) := by
    by_cases h : graph.hasCompilerOwnership
    · rw [if_pos h, validateCompilerOwnership_eq_ok]
      exact ⟨fun hv _ => hv, fun hv => hv h⟩
    · rw [if_neg h]
      exact ⟨fun _ h' => absurd h' h, fun _ => rfl⟩
  unfold validate
  rw [guard_eq_ok, bind_unit_eq_ok, hedges, guard_eq_ok, howned, not_or, not_and, not_not]
  exact ⟨fun h => ⟨h.1.1, h.1.2, h.2.1, h.2.2.1, h.2.2.2⟩,
    fun h => ⟨⟨h.revision, h.buildVariant⟩, h.endpoints, h.legacy, h.compiler⟩⟩

/-- Two graphs with the same content, whatever the order it was added in. -/
structure SameContent (graph graph' : ThinCpg) : Prop where
  schemaVersion : graph.metadata.schemaVersion = graph'.metadata.schemaVersion
  revisionId : graph.metadata.revisionId = graph'.metadata.revisionId
  buildVariantId : graph.metadata.buildVariantId = graph'.metadata.buildVariantId
  moduleHash : graph.metadata.moduleHash = graph'.metadata.moduleHash
  summaryIds : graph.metadata.summaryIds.Perm graph'.metadata.summaryIds
  nodes : graph.nodes.Perm graph'.nodes
  edges : graph.edges.Perm graph'.edges
  callsites : graph.hasCompilerOwnership → graph.callsites.Perm graph'.callsites

namespace SameContent

variable {graph' : ThinCpg}

theorem hasCompilerOwnership (h : graph.SameContent graph') :
    graph.hasCompilerOwnership = graph'.hasCompilerOwnership := by
  rw [ThinCpg.hasCompilerOwnership, h.schemaVersion, ThinCpg.hasCompilerOwnership]

theorem hasNode (h : graph.SameContent graph') : graph.hasNode = graph'.hasNode := by
  funext id
  rw [Bool.eq_iff_iff, hasNode_iff, hasNode_iff, (h.nodes.map _).mem_iff]

/-- No check sees the order. -/
theorem compilerValid (h : graph.SameContent graph') (howned : graph.hasCompilerOwnership)
    (hvalid : graph.CompilerValid) : graph'.CompilerValid := by
  have hcalls := h.callsites howned
  obtain ⟨hbound, hfunction, hone, howner, hrefs, hsite, hargs, hargOwner, hcalled⟩ := hvalid
  simp only [h.nodes.mem_iff, h.edges.mem_iff, hcalls.mem_iff, (hcalls.map _).mem_iff, h.hasNode]
    at hbound hfunction hone howner hrefs hsite hargs hargOwner hcalled
  exact ⟨hbound, hfunction, hone, howner, hrefs, hsite, hargs, hargOwner, hcalled⟩

theorem valid (h : graph.SameContent graph') (howned : graph.hasCompilerOwnership)
    (hvalid : graph.Valid) : graph'.Valid where
  revision := h.revisionId ▸ hvalid.revision
  buildVariant := h.buildVariantId ▸ hvalid.buildVariant
  endpoints edge hedge := by
    rw [← h.hasNode]
    exact hvalid.endpoints edge (h.edges.mem_iff.mpr hedge)
  legacy hlegacy := absurd (h.hasCompilerOwnership ▸ howned) hlegacy
  compiler _ := h.compilerValid howned (hvalid.compiler howned)

end SameContent

end ThinCpg

end Cpg

end Veritas

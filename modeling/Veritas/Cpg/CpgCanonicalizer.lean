import Veritas.Cpg.ThinCpg
import Veritas.Facts.SemanticKey

/-! The canonical bytes of a graph, and that they say which graph it is. -/
namespace Veritas.Cpg

open FieldCode List StableId

def optionalId (id : Option StableId) : String := (id.map toString).getD ""

def nodeFields (node : CpgNode) : List String :=
  [node.nodeId.toString, node.kind.ordinal.repr, node.label]

def supportFields (support : SupportRef) : List String :=
  [support.functionSummaryId.toString, support.provenanceRef]

def aliasField (edge : CpgEdge) : String :=
  (edge.aliasState.map fun state => state.ordinal.repr).getD ""

def expandableField (edge : CpgEdge) : String := if edge.expandable then "1" else "0"

def edgeFields (edge : CpgEdge) : List String :=
  [edge.edgeId.toString, edge.kind.ordinal.repr, edge.sourceNodeId.toString,
    edge.targetNodeId.toString, aliasField edge, expandableField edge] ++
    edge.support.flatMap supportFields

def argumentFields (argument : CallSiteArgument) : List String :=
  [argument.index.repr, argument.valueRef.toString, optionalId argument.memoryRef]

def bindingFields (binding : CallSiteBinding) : List String :=
  [binding.callsiteId.toString, binding.functionVariantId.toString, binding.calleeRef.toString,
    binding.normalizedOperation, binding.arguments.length.repr] ++
    binding.arguments.flatMap argumentFields ++ [optionalId binding.resultRef]

namespace ThinCpg

variable (graph : ThinCpg)

def sortedSummaryIds : List StableId := graph.metadata.summaryIds.insertionSort (· ≤ ·)

def sortedNodes : List CpgNode :=
  graph.nodes.insertionSort fun a b => a.nodeId.toString ≤ b.nodeId.toString

def sortedEdges : List CpgEdge :=
  graph.edges.insertionSort fun a b => a.edgeId.toString ≤ b.edgeId.toString

def sortedCallsites : List CallSiteBinding :=
  graph.callsites.insertionSort fun a b => a.sortKey ≤ b.sortKey

def headFields : List String :=
  [graph.metadata.schemaVersion, graph.metadata.revisionId.toString,
    graph.metadata.buildVariantId.toString, graph.metadata.moduleHash]

/-- Only a compiler-owned graph has the suffix. -/
def callFields : List String :=
  if graph.hasCompilerOwnership then
    "compiler.calls.v1" :: graph.sortedCallsites.length.repr ::
      graph.sortedCallsites.flatMap bindingFields
  else []

def canonicalFields : List String :=
  graph.headFields ++ (graph.sortedSummaryIds.map toString ++
    (graph.sortedNodes.flatMap nodeFields ++
      (graph.sortedEdges.flatMap edgeFields ++ graph.callFields)))

def canonicalBytes : String := concat field graph.canonicalFields

def projectionId (sha256 : String → String) : StableId :=
  makeStableId sha256 .cpgProjection graph.canonicalBytes

end ThinCpg

def HasColon (text : String) : Prop := ':' ∈ text.toList

theorem hasColon_toString (id : StableId) : HasColon id.toString := by
  simp [HasColon, StableId.toString]

theorem toString_ne_empty (id : StableId) : id.toString ≠ "" := by
  intro h
  have hcolon := hasColon_toString id
  rw [h] at hcolon
  exact absurd hcolon (by simp [HasColon])

theorem not_hasColon_repr (n : ℕ) : ¬ HasColon n.repr := notMem_repr (by decide) n

theorem not_hasColon_aliasField (edge : CpgEdge) : ¬ HasColon (aliasField edge) := by
  unfold aliasField
  cases edge.aliasState with
  | none => simp [HasColon]
  | some state => exact not_hasColon_repr _

theorem not_hasColon_expandableField (edge : CpgEdge) : ¬ HasColon (expandableField edge) := by
  unfold expandableField HasColon
  cases edge.expandable <;> decide

/-- The calls begin with a name, or are missing. -/
def IsSuffix (fields : List String) : Prop :=
  fields = [] ∨ ∃ rest, fields = "compiler.calls.v1" :: rest

theorem isSuffix_callFields (graph : ThinCpg) : IsSuffix graph.callFields := by
  unfold ThinCpg.callFields
  by_cases h : graph.hasCompilerOwnership
  · rw [if_pos h]
    exact .inr ⟨_, rfl⟩
  · rw [if_neg h]
    exact .inl rfl

variable {calls calls' fields rest : List String} {edges edges' : List CpgEdge}
  {supports : List SupportRef}

theorem IsSuffix.head {head : String} (h : IsSuffix fields) (hhead : fields = head :: rest) :
    head = "compiler.calls.v1" := by
  rcases h with h | ⟨_, h⟩
  · exact absurd (hhead.symm.trans h) (by simp)
  · exact (cons.inj (hhead.symm.trans h)).1

theorem IsSuffix.not_hasColon {head : String} (h : IsSuffix fields) (hhead : fields = head :: rest) :
    ¬ HasColon head := by
  rw [h.head hhead]
  unfold HasColon
  decide

theorem repr_ne_suffix (n : ℕ) : n.repr ≠ "compiler.calls.v1" := by
  intro h
  have hmem : '.' ∈ n.repr.toList := by
    rw [h]
    decide
  exact notMem_repr (by decide) n hmem

theorem nodeFields_injective {a b : CpgNode} (h : nodeFields a = nodeFields b) : a = b := by
  cases a
  cases b
  simp only [nodeFields, cons.injEq, and_true] at h
  rw [toString_injective h.1, NodeKind.ordinal_injective (repr_injective h.2.1), h.2.2]

theorem optionalId_injective : Function.Injective optionalId := by
  intro a b h
  cases a with
  | none =>
    cases b with
    | none => rfl
    | some id => exact absurd h.symm (toString_ne_empty id)
  | some id =>
    cases b with
    | none => exact absurd h (toString_ne_empty id)
    | some id' => rw [toString_injective (h : id.toString = id'.toString)]

theorem repr_ne_empty (n : ℕ) : n.repr ≠ "" := by
  intro h
  have hdigits := Nat.ofDigitChars_ten_toDigits (n := n)
  rw [← Nat.toList_repr, h] at hdigits
  rw [← hdigits] at h
  exact absurd h (by decide)

theorem aliasField_injective {a b : CpgEdge} (h : aliasField a = aliasField b) :
    a.aliasState = b.aliasState := by
  unfold aliasField at h
  cases ha : a.aliasState with
  | none =>
    cases hb : b.aliasState with
    | none => rfl
    | some state =>
      rw [ha, hb] at h
      exact absurd h.symm (repr_ne_empty _)
  | some state =>
    cases hb : b.aliasState with
    | none =>
      rw [ha, hb] at h
      exact absurd h (repr_ne_empty _)
    | some state' =>
      rw [ha, hb] at h
      rw [AliasKind.ordinal_injective (repr_injective h)]

theorem expandableField_injective {a b : CpgEdge} (h : expandableField a = expandableField b) :
    a.expandable = b.expandable := by
  unfold expandableField at h
  cases ha : a.expandable <;> cases hb : b.expandable <;> simp_all

/-! Where one part of the fields ends and the next begins. -/

/-- What can follow the summaries: an id and a number, or the calls, or nothing. -/
def AfterSummaries (fields : List String) : Prop :=
  IsSuffix fields ∨ ∃ (id : StableId) (n : ℕ) (rest : List String),
    fields = id.toString :: n.repr :: rest

theorem AfterSummaries.ne_repr {n : ℕ} (h : AfterSummaries fields) : fields ≠ n.repr :: rest := by
  rintro rfl
  rcases h with h | ⟨id, m, more, h⟩
  · exact repr_ne_suffix n (h.head rfl)
  · exact not_hasColon_repr n ((cons.inj h).1 ▸ hasColon_toString id)

theorem AfterSummaries.not_summary {fields' : List String} {id : StableId} {ids : List StableId}
    (h : AfterSummaries fields) (h' : AfterSummaries fields') :
    fields ≠ id.toString :: (ids.map toString ++ fields') := by
  intro heq
  rcases h with h | ⟨id', n, rest, rfl⟩
  · exact h.not_hasColon heq (hasColon_toString id)
  · have htail := (cons.inj heq).2
    cases ids with
    | nil => exact h'.ne_repr htail.symm
    | cons next ids =>
      exact not_hasColon_repr n ((cons.inj htail).1 ▸ hasColon_toString next)

theorem summaries_append_inj {ids ids' : List StableId} {fields' : List String}
    (h : AfterSummaries fields) (h' : AfterSummaries fields')
    (heq : ids.map toString ++ fields = ids'.map toString ++ fields') :
    ids = ids' ∧ fields = fields' := by
  induction ids generalizing ids' with
  | nil =>
    cases ids' with
    | nil => exact ⟨rfl, heq⟩
    | cons id' ids' => exact absurd heq (h.not_summary h')
  | cons id ids ih =>
    cases ids' with
    | nil => exact absurd heq.symm (h'.not_summary h)
    | cons id' ids' =>
      obtain ⟨hid, htail⟩ := cons.inj heq
      obtain ⟨rfl, hfields⟩ := ih htail
      exact ⟨by rw [toString_injective hid], hfields⟩

/-- The fields of the edges and of what follows them. -/
def edgePart (edges : List CpgEdge) (calls : List String) : List String :=
  edges.flatMap edgeFields ++ calls

theorem edgePart_cons (edge : CpgEdge) (edges : List CpgEdge) (calls : List String) :
    edgePart (edge :: edges) calls = edge.edgeId.toString :: edge.kind.ordinal.repr ::
      edge.sourceNodeId.toString :: edge.targetNodeId.toString :: aliasField edge ::
      expandableField edge :: (edge.support.flatMap supportFields ++ edgePart edges calls) := by
  simp [edgePart, edgeFields]

/-- Edges read as nodes name their first target twice. -/
theorem edgePart_ne_node {before nodes : List CpgNode} {node : CpgNode} (hcalls : IsSuffix calls)
    (hcalls' : IsSuffix calls')
    (htarget : ∀ edge ∈ edges, edge.targetNodeId ∈ before.map CpgNode.nodeId)
    (hnodup : ((before ++ node :: nodes).map CpgNode.nodeId).Nodup) :
    edgePart edges calls ≠
      nodeFields node ++ (nodes.flatMap nodeFields ++ edgePart edges' calls') := by
  intro heq
  cases edges with
  | nil => exact hcalls.not_hasColon heq (hasColon_toString node.nodeId)
  | cons edge edges =>
    rw [edgePart_cons, nodeFields] at heq
    simp only [cons_append, nil_append, cons.injEq] at heq
    obtain ⟨-, -, -, htail⟩ := heq
    cases nodes with
    | cons next nodes =>
      -- The next node is the edge's target, which stands among the nodes before.
      rw [flatMap_cons, nodeFields] at htail
      simp only [cons_append, cons.injEq] at htail
      have hid := toString_injective htail.1
      have hbefore := htarget edge mem_cons_self
      rw [map_append, nodup_append'] at hnodup
      exact hnodup.2.2 hbefore (by rw [hid]; simp)
    | nil =>
      rw [flatMap_nil, nil_append] at htail
      cases edges' with
      | nil => exact hcalls'.not_hasColon htail.symm (hasColon_toString _)
      | cons edge' edges' =>
        rw [edgePart_cons] at htail
        simp only [cons.injEq] at htail
        exact not_hasColon_expandableField edge (htail.2.2.1 ▸ hasColon_toString _)

theorem nodes_append_inj {before nodes nodes' : List CpgNode} (hcalls : IsSuffix calls)
    (hcalls' : IsSuffix calls')
    (htarget : ∀ edge ∈ edges, edge.targetNodeId ∈ (before ++ nodes).map CpgNode.nodeId)
    (htarget' : ∀ edge ∈ edges', edge.targetNodeId ∈ (before ++ nodes').map CpgNode.nodeId)
    (hnodup : ((before ++ nodes).map CpgNode.nodeId).Nodup)
    (hnodup' : ((before ++ nodes').map CpgNode.nodeId).Nodup)
    (heq : nodes.flatMap nodeFields ++ edgePart edges calls =
      nodes'.flatMap nodeFields ++ edgePart edges' calls') :
    nodes = nodes' ∧ edgePart edges calls = edgePart edges' calls' := by
  induction nodes generalizing before nodes' with
  | nil =>
    cases nodes' with
    | nil => exact ⟨rfl, heq⟩
    | cons node' nodes' =>
      rw [append_nil] at htarget
      exact absurd (heq.trans (append_assoc ..)) (edgePart_ne_node hcalls hcalls' htarget hnodup')
  | cons node nodes ih =>
    cases nodes' with
    | nil =>
      rw [append_nil] at htarget'
      exact absurd (heq.symm.trans (append_assoc ..))
        (edgePart_ne_node hcalls' hcalls htarget' hnodup)
    | cons node' nodes' =>
      rw [flatMap_cons, flatMap_cons, append_assoc, append_assoc] at heq
      obtain ⟨hnode, htail⟩ := append_inj heq rfl
      obtain rfl := nodeFields_injective hnode
      rw [append_cons] at htarget htarget' hnodup hnodup'
      obtain ⟨rfl, hedges⟩ := ih htarget htarget' hnodup hnodup' htail
      exact ⟨rfl, hedges⟩

/-- An edge read as a support has a number where an id must stand, or the other way round. -/
theorem edgePart_ne_support {support : SupportRef} (hcalls : IsSuffix calls)
    (hcalls' : IsSuffix calls') : edgePart edges calls ≠
      supportFields support ++ (supports.flatMap supportFields ++ edgePart edges' calls') := by
  intro heq
  have hstart : ∀ text rest, edgePart edges' calls' = text :: rest → ¬ HasColon text →
      text = "compiler.calls.v1" := by
    intro text rest htext hcolon
    cases edges' with
    | nil => exact hcalls'.head htext
    | cons edge' edges' =>
      exact absurd ((cons.inj htext).1 ▸ hasColon_toString _) hcolon
  cases edges with
  | nil => exact hcalls.not_hasColon heq (hasColon_toString _)
  | cons edge edges =>
    rw [edgePart_cons, supportFields] at heq
    simp only [cons_append, nil_append, cons.injEq] at heq
    obtain ⟨-, -, htail⟩ := heq
    cases supports with
    | cons next supports =>
      rw [flatMap_cons, supportFields] at htail
      simp only [cons_append, nil_append, cons.injEq] at htail
      obtain ⟨-, -, htail⟩ := htail
      cases supports with
      | cons third supports =>
        exact not_hasColon_aliasField edge ((cons.inj htail).1 ▸ hasColon_toString _)
      | nil =>
        have hname := hstart _ _ htail.symm (not_hasColon_aliasField edge)
        unfold aliasField at hname
        cases hstate : edge.aliasState with
        | none =>
          rw [hstate] at hname
          exact absurd hname (by decide)
        | some state =>
          rw [hstate] at hname
          exact repr_ne_suffix _ hname
    | nil =>
      rw [flatMap_nil, nil_append] at htail
      cases edges' with
      | nil => exact hcalls'.not_hasColon htail.symm (hasColon_toString _)
      | cons edge' edges' =>
        rw [edgePart_cons] at htail
        simp only [cons.injEq] at htail
        exact not_hasColon_repr _ (htail.2.1 ▸ hasColon_toString _)

theorem supports_append_inj {supports' : List SupportRef} (hcalls : IsSuffix calls)
    (hcalls' : IsSuffix calls') (heq : supports.flatMap supportFields ++ edgePart edges calls =
      supports'.flatMap supportFields ++ edgePart edges' calls') :
    supports = supports' ∧ edgePart edges calls = edgePart edges' calls' := by
  induction supports generalizing supports' with
  | nil =>
    cases supports' with
    | nil => exact ⟨rfl, heq⟩
    | cons support' supports' =>
      exact absurd (heq.trans (append_assoc ..)) (edgePart_ne_support hcalls hcalls')
  | cons support supports ih =>
    cases supports' with
    | nil =>
      exact absurd (heq.symm.trans (append_assoc ..)) (edgePart_ne_support hcalls' hcalls)
    | cons support' supports' =>
      rw [flatMap_cons, flatMap_cons, append_assoc, append_assoc] at heq
      obtain ⟨hsupport, htail⟩ := append_inj heq rfl
      obtain ⟨rfl, hedges⟩ := ih htail
      cases support
      cases support'
      simp only [supportFields, cons.injEq, and_true] at hsupport
      exact ⟨by rw [toString_injective hsupport.1, hsupport.2], hedges⟩

theorem edgePart_inj (hcalls : IsSuffix calls) (hcalls' : IsSuffix calls')
    (heq : edgePart edges calls = edgePart edges' calls') : edges = edges' ∧ calls = calls' := by
  induction edges generalizing edges' with
  | nil =>
    cases edges' with
    | nil => exact ⟨rfl, heq⟩
    | cons edge' edges' =>
      exact absurd (hasColon_toString _) (hcalls.not_hasColon heq)
  | cons edge edges ih =>
    cases edges' with
    | nil =>
      rw [edgePart_cons] at heq
      exact absurd (hasColon_toString _) (hcalls'.not_hasColon heq.symm)
    | cons edge' edges' =>
      rw [edgePart_cons, edgePart_cons] at heq
      simp only [cons.injEq] at heq
      obtain ⟨hid, hkind, hsource, htarget, halias, hexpandable, htail⟩ := heq
      obtain ⟨hsupport, htail⟩ := supports_append_inj hcalls hcalls' htail
      obtain ⟨rfl, hrest⟩ := ih htail
      refine ⟨?_, hrest⟩
      cases edge
      cases edge'
      rw [cons.injEq, CpgEdge.mk.injEq]
      exact ⟨⟨toString_injective hid, EdgeKind.ordinal_injective (repr_injective hkind),
        toString_injective hsource, toString_injective htarget,
        aliasField_injective halias, expandableField_injective hexpandable, hsupport⟩, rfl⟩

theorem counted_append_inj {α : Type} {fields : α → List String}
    (hfields : ∀ a b r r', fields a ++ r = fields b ++ r' → a = b ∧ r = r') {as bs : List α}
    {r r' : List String} (hcount : as.length.repr = bs.length.repr)
    (heq : as.flatMap fields ++ r = bs.flatMap fields ++ r') : as = bs ∧ r = r' :=
  flatMap_append_inj (R := fun _ _ => True) (fun a b r r' _ => hfields a b r r')
    (forall₂_iff_zip.mpr ⟨repr_injective hcount, fun _ => trivial⟩) heq

theorem argumentFields_append_inj (a b : CallSiteArgument) (r r' : List String)
    (heq : argumentFields a ++ r = argumentFields b ++ r') : a = b ∧ r = r' := by
  cases a
  cases b
  simp only [argumentFields, cons_append, nil_append, cons.injEq] at heq
  obtain ⟨hindex, hvalue, hmemory, hr⟩ := heq
  refine ⟨?_, hr⟩
  rw [repr_injective hindex, toString_injective hvalue, optionalId_injective hmemory]

theorem bindingFields_append_inj (a b : CallSiteBinding) (r r' : List String)
    (heq : bindingFields a ++ r = bindingFields b ++ r') : a = b ∧ r = r' := by
  cases a
  cases b
  simp only [bindingFields, cons_append, nil_append, append_assoc, cons.injEq] at heq
  obtain ⟨hsite, howner, hcallee, hoperation, hcount, htail⟩ := heq
  obtain ⟨harguments, hlast⟩ :=
    counted_append_inj argumentFields_append_inj hcount htail
  obtain ⟨hresult, hr⟩ := cons.inj hlast
  refine ⟨?_, hr⟩
  rw [toString_injective hsite, toString_injective howner,
    toString_injective hcallee, hoperation, harguments, optionalId_injective hresult]

namespace ThinCpg

variable {graph graph' : ThinCpg}

theorem perm_sortedNodes (graph : ThinCpg) : graph.sortedNodes.Perm graph.nodes :=
  List.perm_insertionSort _ _

theorem perm_sortedEdges (graph : ThinCpg) : graph.sortedEdges.Perm graph.edges :=
  List.perm_insertionSort _ _

theorem perm_sortedCallsites (graph : ThinCpg) : graph.sortedCallsites.Perm graph.callsites :=
  List.perm_insertionSort _ _

theorem canonicalBytes_inj :
    graph.canonicalBytes = graph'.canonicalBytes ↔ graph.canonicalFields = graph'.canonicalFields := by
  refine ⟨concat_inj field_prefixFree fun value h => ?_, fun h => by rw [canonicalBytes, h]; rfl⟩
  exact repr_ne_empty _ (String.append_eq_empty_iff.mp (String.append_eq_empty_iff.mp h).1).1

theorem afterSummaries (hvalid : graph.Valid) :
    AfterSummaries (graph.sortedNodes.flatMap nodeFields ++
      edgePart graph.sortedEdges graph.callFields) := by
  cases hnodes : graph.sortedNodes with
  | cons node nodes => exact .inr ⟨node.nodeId, node.kind.ordinal, _, rfl⟩
  | nil =>
    -- Without a node there is no edge.
    have hedges : graph.sortedEdges = [] := by
      refine eq_nil_iff_forall_not_mem.mpr fun edge hedge => ?_
      have hsource := (hvalid.endpoints edge ((perm_sortedEdges graph).mem_iff.mp hedge)).1
      obtain ⟨node, hnode, -⟩ := mem_map.mp (hasNode_iff.mp hsource)
      exact absurd ((perm_sortedNodes graph).mem_iff.mpr hnode) (by simp [hnodes])
    rw [hedges]
    exact .inl (isSuffix_callFields graph)

theorem target_mem_sortedNodes (hvalid : graph.Valid) :
    ∀ edge ∈ graph.sortedEdges, edge.targetNodeId ∈ ([] ++ graph.sortedNodes).map CpgNode.nodeId := by
  intro edge hedge
  have htarget := (hvalid.endpoints edge ((perm_sortedEdges graph).mem_iff.mp hedge)).2
  rw [nil_append, ((perm_sortedNodes graph).map _).mem_iff]
  exact hasNode_iff.mp htarget

theorem nodup_sortedNodes (graph : ThinCpg) :
    (([] ++ graph.sortedNodes).map CpgNode.nodeId).Nodup := by
  rw [nil_append, ((perm_sortedNodes graph).map _).nodup_iff]
  exact graph.nodes_nodup

theorem sameContent_of_canonicalFields (hvalid : graph.Valid) (hvalid' : graph'.Valid)
    (h : graph.canonicalFields = graph'.canonicalFields) : graph.SameContent graph' := by
  obtain ⟨hhead, h⟩ := append_inj h rfl
  simp only [headFields, cons.injEq, and_true] at hhead
  obtain ⟨hschema, hrevision, hbuild, hmodule⟩ := hhead
  obtain ⟨hsummaries, h⟩ := summaries_append_inj (afterSummaries hvalid) (afterSummaries hvalid') h
  obtain ⟨hnodes, h⟩ := nodes_append_inj (isSuffix_callFields graph) (isSuffix_callFields graph')
    (target_mem_sortedNodes hvalid) (target_mem_sortedNodes hvalid') (nodup_sortedNodes graph)
    (nodup_sortedNodes graph') h
  obtain ⟨hedges, hcalls⟩ := edgePart_inj (isSuffix_callFields graph) (isSuffix_callFields graph') h
  refine ⟨hschema, toString_injective hrevision, toString_injective hbuild,
    hmodule, ?_, ?_, ?_, fun howned => ?_⟩
  · exact (perm_insertionSort _ _).symm.trans
      ((Perm.of_eq hsummaries).trans (perm_insertionSort _ _))
  · exact (perm_sortedNodes graph).symm.trans ((Perm.of_eq hnodes).trans (perm_sortedNodes graph'))
  · exact (perm_sortedEdges graph).symm.trans ((Perm.of_eq hedges).trans (perm_sortedEdges graph'))
  · have howned' : graph'.hasCompilerOwnership := by
      rw [ThinCpg.hasCompilerOwnership, ← hschema]
      exact howned
    rw [callFields, if_pos howned, callFields, if_pos howned'] at hcalls
    simp only [cons.injEq, true_and] at hcalls
    have hbindings := counted_append_inj bindingFields_append_inj hcalls.1
      (congrArg (· ++ ([] : List String)) hcalls.2)
    exact (perm_sortedCallsites graph).symm.trans
      ((Perm.of_eq hbindings.1).trans (perm_sortedCallsites graph'))

theorem SameContent.canonicalFields (h : graph.SameContent graph') :
    graph.canonicalFields = graph'.canonicalFields := by
  have hnodes : graph.sortedNodes = graph'.sortedNodes :=
    Ordered.insertionSort_eq_of_perm (fun a ha b hb hab => inj_on_of_nodup_map graph.nodes_nodup ha hb
      (toString_injective hab)) h.nodes
  have hedges : graph.sortedEdges = graph'.sortedEdges :=
    Ordered.insertionSort_eq_of_perm (fun a ha b hb hab => inj_on_of_nodup_map graph.edges_nodup ha hb
      (toString_injective hab)) h.edges
  have hsummaries : graph.sortedSummaryIds = graph'.sortedSummaryIds :=
    Ordered.insertionSort_congr h.summaryIds
  have hcalls : graph.callFields = graph'.callFields := by
    by_cases howned : graph.hasCompilerOwnership
    · have hcallsites : graph.sortedCallsites = graph'.sortedCallsites :=
        Ordered.insertionSort_eq_of_perm (fun a ha b hb hab => inj_on_of_nodup_map graph.callsites_nodup
          ha hb (congrArg (fun key => (ofLex key).1) hab)) (h.callsites howned)
      rw [callFields, callFields, if_pos howned, if_pos (h.hasCompilerOwnership ▸ howned), hcallsites]
    · rw [callFields, callFields, if_neg howned, if_neg (h.hasCompilerOwnership ▸ howned)]
  rw [ThinCpg.canonicalFields, ThinCpg.canonicalFields, headFields, headFields, h.schemaVersion,
    h.revisionId, h.buildVariantId, h.moduleHash, hsummaries, hnodes, hedges, hcalls]

/-- The bytes say which graph it is. -/
theorem canonicalBytes_eq_iff (hvalid : graph.Valid) (hvalid' : graph'.Valid) :
    graph.canonicalBytes = graph'.canonicalBytes ↔ graph.SameContent graph' := by
  rw [canonicalBytes_inj]
  exact ⟨sameContent_of_canonicalFields hvalid hvalid', SameContent.canonicalFields⟩

end ThinCpg

end Veritas.Cpg

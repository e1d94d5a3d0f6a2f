import Veritas.Cpg.CpgRepository

/-! Reading one row gives back what it was written from. -/
namespace Veritas.Cpg

open SummaryDb StatusOr FieldCode String

/-- The id was made from a digest. -/
def Made (id : StableId) : Prop := IsDigestHex id.digestHex

/-- A graph whose ids were made from digests and whose texts are bound as they are. -/
structure ThinCpg.Storable (graph : ThinCpg) : Prop where
  revisionId : Made graph.metadata.revisionId
  buildVariantId : Made graph.metadata.buildVariantId
  summaryIds : ∀ id ∈ graph.metadata.summaryIds, Made id
  nodeIds : ∀ node ∈ graph.nodes, Made node.nodeId
  edgeIds : ∀ edge ∈ graph.edges, Made edge.edgeId ∧ Made edge.sourceNodeId ∧ Made edge.targetNodeId
  supportIds : ∀ edge ∈ graph.edges, ∀ support ∈ edge.support, Made support.functionSummaryId
  callsiteIds : ∀ binding ∈ graph.callsites, Made binding.callsiteId ∧
    Made binding.functionVariantId ∧ Made binding.calleeRef ∧
    ∀ id ∈ binding.resultRef, Made id
  argumentIds : ∀ binding ∈ graph.callsites, ∀ argument ∈ binding.arguments,
    Made argument.valueRef ∧ ∀ id ∈ argument.memoryRef, Made id
  schemaVersion : NulFree graph.metadata.schemaVersion
  moduleHash : NulFree graph.metadata.moduleHash
  labels : ∀ node ∈ graph.nodes, NulFree node.label
  provenanceRefs : ∀ edge ∈ graph.edges, ∀ support ∈ edge.support, NulFree support.provenanceRef

theorem bindText_toString {id : StableId} (h : Made id) : bindText id.toString = id.toString :=
  bindText_of_nulFree (nulFree_toString h)

theorem parse_bindText {id : StableId} (h : Made id) :
    parseStableId (bindText id.toString) = .ok id := by
  rw [bindText_toString h, parseStableId_toString h]

theorem parseOptionalId_bindText {id : Option StableId} (h : ∀ made ∈ id, Made made) :
    parseOptionalId (bindText (optionalId id)) = .ok id := by
  cases id with
  | none => rfl
  | some id =>
    have hid : Made id := h id rfl
    have htext : optionalId (some id) = id.toString := rfl
    rw [htext, bindText_toString hid, parseOptionalId, if_neg (toString_ne_empty id),
      parseStableId_toString hid]
    rfl

theorem parseInt_ok {value : ℤ} (hlow : 0 ≤ value) (hhigh : value ≤ 2147483647) :
    parseInt value = .ok value := by
  rw [parseInt, if_pos ⟨by omega, hhigh⟩]
  rfl

variable {pid : String} {edge : CpgEdge} {binding : CallSiteBinding} {ids : List StableId}

theorem readNode_nodeRow {node : CpgNode} (hid : Made node.nodeId) (hlabel : NulFree node.label) :
    readNode (nodeRow pid node) = .ok node := by
  have hkind : parseInt (node.kind.ordinal : ℤ) = .ok (node.kind.ordinal : ℤ) :=
    parseInt_ok (by omega) (by cases node.kind <;> decide)
  refine bind_eq_ok.mpr ⟨_, parse_bindText hid, ?_⟩
  refine bind_eq_ok.mpr ⟨_, hkind, ?_⟩
  have hlabel' : (nodeRow pid node).nodeLabel = node.label := bindText_of_nulFree hlabel
  rw [hlabel', Int.toNat_natCast, NodeKind.ordinal, NodeKind.ofNat_ctorIdx]
  rfl

theorem readSupport_supportRow {support : SupportRef} {position : ℕ}
    (hid : Made support.functionSummaryId) (htext : NulFree support.provenanceRef) :
    readSupport (supportRow pid edge support position) =
      .ok (bindText edge.edgeId.toString, support) := by
  refine bind_eq_ok.mpr ⟨_, parse_bindText hid, ?_⟩
  have htext' : (supportRow pid edge support position).provenanceRef = support.provenanceRef :=
    bindText_of_nulFree htext
  rw [htext']
  rfl

theorem readEdge_edgeRow {supports : List (String × SupportRef)} (hid : Made edge.edgeId)
    (hsource : Made edge.sourceNodeId) (htarget : Made edge.targetNodeId)
    (hsupport : (supports.filter (·.1 = bindText edge.edgeId.toString)).map Prod.snd =
      edge.support) : readEdge supports (edgeRow pid edge) = .ok edge := by
  have hkind : parseInt (edge.kind.ordinal : ℤ) = .ok (edge.kind.ordinal : ℤ) :=
    parseInt_ok (by omega) (by cases edge.kind <;> decide)
  have hids : readEdge supports (edgeRow pid edge) = (do
      let kind ← parseInt (edgeRow pid edge).edgeKind
      let aliasState ← parseInt (edgeRow pid edge).aliasState
      pure
        { edgeId := edge.edgeId
          kind := .ofNat kind.toNat
          sourceNodeId := edge.sourceNodeId
          targetNodeId := edge.targetNodeId
          aliasState := if 0 ≤ aliasState then some (.ofNat aliasState.toNat) else none
          expandable := (edgeRow pid edge).expandable = 1
          support := (supports.filter (·.1 = (edgeRow pid edge).edgeId)).map Prod.snd }) := by
    have h1 : parseStableId (edgeRow pid edge).edgeId = .ok edge.edgeId := parse_bindText hid
    have h2 : parseStableId (edgeRow pid edge).sourceNodeId = .ok edge.sourceNodeId :=
      parse_bindText hsource
    have h3 : parseStableId (edgeRow pid edge).targetNodeId = .ok edge.targetNodeId :=
      parse_bindText htarget
    rw [readEdge, h1, h2, h3]
  have halias : ∃ value, parseInt (edgeRow pid edge).aliasState = .ok value ∧
      (if 0 ≤ value then some (AliasKind.ofNat value.toNat) else none) = edge.aliasState := by
    cases hstate : edge.aliasState with
    | none =>
      refine ⟨-1, ?_, rfl⟩
      rw [edgeRow, hstate]
      rfl
    | some state =>
      refine ⟨state.ordinal, ?_, ?_⟩
      · have hcolumn : (edgeRow pid edge).aliasState = (state.ordinal : ℤ) := by
          rw [edgeRow, hstate]
          rfl
        rw [hcolumn]
        exact parseInt_ok (by omega) (by cases state <;> decide)
      · rw [if_pos (by omega), Int.toNat_natCast, AliasKind.ordinal, AliasKind.ofNat_ctorIdx]
  obtain ⟨value, hvalue, hstate⟩ := halias
  rw [hids]
  refine bind_eq_ok.mpr ⟨_, hkind, bind_eq_ok.mpr ⟨value, hvalue, ?_⟩⟩
  have hexpandable : decide ((edgeRow pid edge).expandable = 1) = edge.expandable := by
    rw [edgeRow]
    cases edge.expandable <;> rfl
  have hedgeId : (edgeRow pid edge).edgeId = bindText edge.edgeId.toString := rfl
  rw [hstate, hexpandable, hedgeId, hsupport, Int.toNat_natCast, EdgeKind.ordinal,
    EdgeKind.ofNat_ctorIdx]
  rfl

theorem readArgument_argumentRow {argument : CallSiteArgument}
    (hindex : argument.index ≤ 2147483647) (hvalue : Made argument.valueRef)
    (hmemory : ∀ id ∈ argument.memoryRef, Made id) :
    readArgument (argumentRow pid binding argument) =
      .ok (bindText binding.callsiteId.toString, argument) := by
  have h1 : parseInt (argumentRow pid binding argument).argumentIndex =
      .ok (argument.index : ℤ) := parseInt_ok (by simp [argumentRow]) (by simp [argumentRow]; omega)
  have h2 : parseStableId (argumentRow pid binding argument).valueId = .ok argument.valueRef :=
    parse_bindText hvalue
  rw [readArgument, h1, h2]
  simp only
  exact bind_eq_ok.mpr ⟨_, parseOptionalId_bindText hmemory, rfl⟩

theorem nulFree_normalizedOperation (h : binding.Accepted) :
    NulFree binding.normalizedOperation := by
  have hoperation := h.operation
  simp only [CallSiteBinding.validOperation, decide_eq_true_eq] at hoperation
  rcases hoperation with h | ⟨h, -⟩
  · rw [h]
    unfold NulFree
    decide
  · rw [h]
    unfold NulFree
    decide

theorem readBinding_bindingRow {arguments : List (String × CallSiteArgument)}
    (haccepted : binding.Accepted) (hsite : Made binding.callsiteId)
    (howner : Made binding.functionVariantId) (hcallee : Made binding.calleeRef)
    (hresult : ∀ id ∈ binding.resultRef, Made id)
    (harguments : (arguments.filter (·.1 = bindText binding.callsiteId.toString)).map Prod.snd =
      binding.arguments) : readBinding arguments (bindingRow pid binding) = .ok binding := by
  have h1 : parseStableId (bindingRow pid binding).callsiteId = .ok binding.callsiteId :=
    parse_bindText hsite
  have h2 : parseStableId (bindingRow pid binding).ownerId = .ok binding.functionVariantId :=
    parse_bindText howner
  have h3 : parseStableId (bindingRow pid binding).calleeId = .ok binding.calleeRef :=
    parse_bindText hcallee
  rw [readBinding, h1, h2, h3]
  refine bind_eq_ok.mpr ⟨_, parseOptionalId_bindText hresult, ?_⟩
  have hoperation : (bindingRow pid binding).operation = binding.normalizedOperation :=
    bindText_of_nulFree (nulFree_normalizedOperation haccepted)
  have hsiteId : (bindingRow pid binding).callsiteId = bindText binding.callsiteId.toString := rfl
  rw [hoperation, hsiteId, harguments]
  rfl

theorem newline_notMem_toString {id : StableId} (h : Made id) : '\n' ∉ id.toString.toList :=
  notMem_toString h (by intro kind; cases kind <;> decide) (by decide) (by decide)

theorem splitIdsFrom_append {text rest : List Char} (h : '\n' ∉ text) (current : List Char) :
    splitIdsFrom current (text ++ rest) = splitIdsFrom (current ++ text) rest := by
  induction text generalizing current with
  | nil => simp
  | cons c text ih =>
    rw [List.mem_cons, not_or] at h
    rw [List.cons_append, splitIdsFrom, if_neg (Ne.symm h.1), ih h.2, List.append_assoc]
    rfl

theorem idOfText_toString {id : StableId} (h : Made id) : idOfText id.toString.toList = [id] := by
  rw [idOfText, ofList_toList, parseStableId_toString h]

theorem joinIds_append (out : String) (ids : List StableId) (hout : out ≠ "") :
    ids.foldl (fun out id => (if out = "" then out else out ++ "\n") ++ id.toString) out =
      out ++ concat (fun id : StableId => "\n" ++ id.toString) ids := by
  induction ids generalizing out with
  | nil => simp [concat]
  | cons id ids ih =>
    rw [List.foldl_cons, if_neg hout, ih, concat, append_assoc, append_assoc, append_assoc]
    intro hempty
    exact hout (append_eq_empty_iff.mp (append_eq_empty_iff.mp hempty).1).1

theorem splitIdsFrom_concat (h : ∀ id ∈ ids, Made id) {first : StableId} (hfirst : Made first) :
    splitIdsFrom first.toString.toList
      (concat (fun id : StableId => "\n" ++ id.toString) ids).toList = first :: ids := by
  induction ids generalizing first with
  | nil =>
    have hne : first.toString.toList ≠ [] := by simp [StableId.toString]
    rw [concat, toList_empty, splitIdsFrom, if_neg hne, idOfText_toString hfirst]
  | cons id ids ih =>
    have hid := h id List.mem_cons_self
    have htext : (concat (fun id : StableId => "\n" ++ id.toString) (id :: ids)).toList =
        '\n' :: (id.toString.toList ++
          (concat (fun id : StableId => "\n" ++ id.toString) ids).toList) := by
      simp [concat]
    rw [htext, splitIdsFrom, if_pos rfl, idOfText_toString hfirst,
      splitIdsFrom_append (newline_notMem_toString hid), List.nil_append,
      ih (fun x hx => h x (List.mem_cons_of_mem _ hx)) hid]
    rfl

theorem splitIds_joinIds (h : ∀ id ∈ ids, Made id) : splitIds (joinIds ids) = ids := by
  cases ids with
  | nil => rfl
  | cons id ids =>
    have hid := h id List.mem_cons_self
    have hjoin : joinIds (id :: ids) =
        id.toString ++ concat (fun id : StableId => "\n" ++ id.toString) ids := by
      rw [joinIds, List.foldl_cons, if_pos rfl, empty_append,
        joinIds_append _ _ (toString_ne_empty id)]
    rw [splitIds, hjoin, toList_append, splitIdsFrom_append (newline_notMem_toString hid),
      List.nil_append, splitIdsFrom_concat (fun x hx => h x (List.mem_cons_of_mem _ hx)) hid]

theorem nulFree_joinIds (h : ∀ id ∈ ids, Made id) : NulFree (joinIds ids) := by
  have hfold : ∀ out, NulFree out → NulFree
      (ids.foldl (fun out id => (if out = "" then out else out ++ "\n") ++ id.toString) out) := by
    induction ids with
    | nil => exact fun out hout => hout
    | cons id ids ih =>
      intro out hout
      refine ih (fun x hx => h x (List.mem_cons_of_mem _ hx)) _ ?_
      have hid := nulFree_toString (h id List.mem_cons_self)
      unfold NulFree at hout hid ⊢
      beta_reduce
      by_cases hempty : out = ""
      · rw [if_pos hempty, toList_append, List.mem_append, not_or]
        exact ⟨hout, hid⟩
      · rw [if_neg hempty, toList_append, toList_append, List.mem_append,
          List.mem_append, not_or, not_or]
        exact ⟨⟨hout, by decide⟩, hid⟩
  exact hfold "" (by unfold NulFree; decide)

theorem readMetadata_projectionRow {graph : ThinCpg} (h : graph.Storable) :
    readMetadata (projectionRow pid graph.metadata) = .ok graph.metadata := by
  have h1 : parseStableId (projectionRow pid graph.metadata).revisionId =
      .ok graph.metadata.revisionId := parse_bindText h.revisionId
  have h2 : parseStableId (projectionRow pid graph.metadata).buildVariantId =
      .ok graph.metadata.buildVariantId := parse_bindText h.buildVariantId
  have h3 : (projectionRow pid graph.metadata).schemaVersion = graph.metadata.schemaVersion :=
    bindText_of_nulFree h.schemaVersion
  have h4 : (projectionRow pid graph.metadata).moduleHash = graph.metadata.moduleHash :=
    bindText_of_nulFree h.moduleHash
  have h5 : (projectionRow pid graph.metadata).summaryIds = joinIds graph.metadata.summaryIds :=
    bindText_of_nulFree (nulFree_joinIds h.summaryIds)
  rw [readMetadata, h1, h2, h3, h4, h5, splitIds_joinIds h.summaryIds]
  rfl

end Veritas.Cpg

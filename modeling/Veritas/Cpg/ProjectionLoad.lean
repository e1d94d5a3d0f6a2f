import Veritas.Cpg.ProjectionStore

/-! Every staged graph is read back, and the last one of a revision and build variant is current. -/
namespace Veritas.Cpg

open SummaryDb StatusOr List Cpg.ThinCpg CallSiteBinding

variable {binding : CallSiteBinding} {edge : CpgEdge} {ρ α : Type}

namespace ThinCpg

/-- Rows that are read and added one by one. -/
theorem foldlM_read {read : ρ → StatusOr α} {add : ThinCpg → α → StatusOr ThinCpg}
    {rows : List ρ} {xs : List α} (h : List.Forall₂ (fun row x => read row = .ok x) rows xs)
    (graph : ThinCpg) :
    rows.foldlM (fun graph row => do
      let x ← read row
      add graph x) graph = xs.foldlM add graph := by
  induction h generalizing graph with
  | nil => rfl
  | cons hread _ ih =>
    rw [foldlM_cons, foldlM_cons, hread]
    simp only [ih]
    rfl

theorem find?_eq_none_of_nodup {α κ : Type} [DecidableEq κ] {key : α → κ} {l post : List α} {x : α}
    (h : ((l ++ x :: post).map key).Nodup) : l.find? (key · = key x) = none := by
  rw [find?_eq_none]
  intro y hy hkey
  rw [map_append, nodup_append'] at h
  exact h.2.2 (mem_map_of_mem hy) (by rw [of_decide_eq_true hkey]; simp)

variable {graph : ThinCpg}

/-- Adding elements of new ids to one part of a graph leaves what adding one of them leaves. -/
theorem foldlM_add {α β : Type} (part : ThinCpg → List α) (key : α → StableId)
    (rest : ThinCpg → β) {add : ThinCpg → α → StatusOr ThinCpg} {xs : List α}
    (hadd : ∀ graph, ∀ x ∈ xs, (part graph).find? (key · = key x) = none → ∃ graph',
      add graph x = .ok graph' ∧ part graph' = part graph ++ [x] ∧ rest graph' = rest graph)
    (h : ((part graph ++ xs).map key).Nodup) :
    ∃ graph', xs.foldlM add graph = .ok graph' ∧ part graph' = part graph ++ xs ∧
      rest graph' = rest graph := by
  induction xs generalizing graph with
  | nil => exact ⟨graph, rfl, (append_nil _).symm, rfl⟩
  | cons x xs ih =>
    obtain ⟨mid, hmid, hpart, hrest⟩ :=
      hadd graph x mem_cons_self (find?_eq_none_of_nodup h)
    rw [append_cons, ← hpart] at h
    obtain ⟨graph', hgraph', hpart', hrest'⟩ :=
      ih (fun g y hy => hadd g y (mem_cons_of_mem _ hy)) h
    refine ⟨graph', ?_, ?_, hrest'.trans hrest⟩
    · rw [foldlM_cons, hmid]
      exact hgraph'
    · rw [hpart', hpart, append_assoc, singleton_append]

theorem addNode_of_find? {node : CpgNode}
    (h : graph.nodes.find? (·.nodeId = node.nodeId) = none) :
    ∃ graph', graph.addNode node = .ok graph' ∧ graph'.nodes = graph.nodes ++ [node] ∧
      (graph'.edges, graph'.metadata, graph'.callsites) =
        (graph.edges, graph.metadata, graph.callsites) := by
  unfold addNode
  split
  · rename_i held hheld
    rw [h] at hheld
    cases hheld
  · exact ⟨_, rfl, rfl, rfl⟩

theorem addEdge_of_find? (haccepted : edge.Accepted)
    (h : graph.edges.find? (·.edgeId = edge.edgeId) = none) :
    ∃ graph', graph.addEdge edge = .ok graph' ∧ graph'.edges = graph.edges ++ [edge] ∧
      (graph'.nodes, graph'.metadata, graph'.callsites) =
        (graph.nodes, graph.metadata, graph.callsites) := by
  have hstate := haccepted.aliasState
  have hmissing : ¬ (edge.kind = .aliases ∧ edge.aliasState.isNone) := fun hnone => by
    rw [hstate, Option.isNone_iff_eq_none] at hnone
    simp [hnone.2] at hnone
  have hextra : ¬ (edge.kind ≠ .aliases ∧ edge.aliasState.isSome) := fun hsome =>
    hsome.1 (hstate.mpr hsome.2)
  rw [addEdge, dif_neg hmissing, dif_neg hextra]
  unfold insertEdge
  split
  · rename_i held hheld
    cases (hheld.symm.trans h : some held = none)
  · exact ⟨_, rfl, congrArg (graph.edges ++ [·]) haccepted.canonicalizeSupport, rfl⟩

theorem addCallSiteBinding_of_find? (haccepted : binding.Accepted)
    (h : graph.callsites.find? (·.callsiteId = binding.callsiteId) = none) :
    ∃ graph', graph.addCallSiteBinding binding = .ok graph' ∧
      graph'.callsites = graph.callsites ++ [binding] ∧
      (graph'.nodes, graph'.edges, graph'.metadata) =
        (graph.nodes, graph.edges, graph.metadata) := by
  have hsorted : binding.sortArguments.Accepted := by
    rw [haccepted.sortArguments]
    exact haccepted
  rw [addCallSiteBinding, dif_neg (not_not.mpr hsorted.identity),
    dif_neg (not_not.mpr hsorted.arguments), dif_neg (not_not.mpr hsorted.operation)]
  unfold insertCallSiteBinding
  split
  · rename_i held hheld
    cases (hheld.symm.trans h : some held = none)
  · exact ⟨_, rfl, congrArg (graph.callsites ++ [·]) haccepted.sortArguments, rfl⟩

end ThinCpg

/-- Of rows sorted by group and position, those of one group stand in the order of position. -/
theorem filter_insertionSort_group {ρ π : Type} [LinearOrder π] {group : ρ → String} {pos : ρ → π}
    {rows expected : List ρ} {text : String}
    (hperm : (rows.filter (group · = text)).Perm expected)
    (hsorted : expected.Pairwise fun a b => pos a < pos b) :
    (rows.insertionSort fun a b => toLex (group a, pos a) ≤ toLex (group b, pos b)).filter
      (group · = text) = expected := by
  have hperm' := ((perm_insertionSort
    (fun a b => toLex (group a, pos a) ≤ toLex (group b, pos b)) rows).filter
      (group · = text)).trans hperm
  have hle : ((rows.insertionSort fun a b =>
      toLex (group a, pos a) ≤ toLex (group b, pos b)).filter (group · = text)).Pairwise
        fun a b => pos a ≤ pos b := by
    refine List.Pairwise.imp_of_mem ?_ ((pairwise_insertionSort _ rows).filter _)
    intro a b ha hb hab
    have hga := of_decide_eq_true (mem_filter.mp ha).2
    have hgb := of_decide_eq_true (mem_filter.mp hb).2
    rw [hga, hgb, Prod.Lex.toLex_le_toLex] at hab
    exact (hab.resolve_left (lt_irrefl _)).2
  refine hperm'.eq_of_pairwise (fun a b ha hb hab hba => ?_) hle (hsorted.imp le_of_lt)
  have hne := hsorted.imp (fun h => ne_of_lt h)
  exact inj_on_of_nodup_map (pairwise_map.mpr hne) (hperm'.mem_iff.mp ha) hb (le_antisymm hab hba)

theorem mapM_filter_group {read : ρ → StatusOr (String × α)} {group : ρ → String}
    {rows : List ρ} {xs : List (String × α)} {text : String}
    (hgroup : ∀ row x, read row = .ok x → x.1 = group row) (h : rows.mapM read = .ok xs) :
    (rows.filter (group · = text)).mapM read = .ok (xs.filter (·.1 = text)) := by
  rw [mapM_eq_ok] at h ⊢
  induction h with
  | nil => exact .nil
  | cons hread _ ih =>
    rename_i row x rows xs _
    have hx := hgroup row x hread
    by_cases htext : group row = text
    · simp only [filter_cons, hx, htext, decide_true, if_true]
      exact .cons hread ih
    · simp only [filter_cons, hx, htext, decide_false, Bool.false_eq_true, if_false]
      exact ih

/-- What a group reads as, when its rows are known. -/
theorem group_of_mapM {ρ α π : Type} [LinearOrder π] {read : ρ → StatusOr (String × α)}
    (group : ρ → String) (pos : ρ → π) (expected : List ρ) {rows : List ρ} {xs : List (String × α)}
    {ys : List α} {text : String} (hgroup : ∀ row x, read row = .ok x → x.1 = group row)
    (hperm : (rows.filter (group · = text)).Perm expected)
    (hsorted : expected.Pairwise fun a b => pos a < pos b)
    (hread : expected.mapM read = .ok (ys.map (text, ·)))
    (h : (rows.insertionSort fun a b => toLex (group a, pos a) ≤ toLex (group b, pos b)).mapM read =
      .ok xs) : (xs.filter (·.1 = text)).map Prod.snd = ys := by
  have hfilter := @mapM_filter_group _ _ _ _ _ _ text hgroup h
  rw [filter_insertionSort_group hperm hsorted, hread] at hfilter
  rw [← Except.ok.inj hfilter, map_map]
  exact map_id ys

/-- Of rows that stand in groups, one group for an id, those of one id. -/
theorem filter_flatMap_group {α ρ : Type} {l : List α} {idOf : α → StableId} {rows : α → List ρ}
    {group : ρ → String} (hnodup : (l.map idOf).Nodup)
    (hgroup : ∀ a ∈ l, ∀ row ∈ rows a, group row = (idOf a).toString) {a : α} (ha : a ∈ l) :
    (l.flatMap rows).filter (group · = (idOf a).toString) = rows a := by
  rw [filter_flatMap, Ordered.flatMap_eq_of_unique hnodup.of_map ha fun b hb hba => ?_]
  · exact filter_eq_self.mpr fun row hrow => decide_eq_true (hgroup a ha row hrow)
  · refine filter_eq_nil_iff.mpr fun row hrow htext => hba ?_
    rw [hgroup b hb row hrow, decide_eq_true_eq] at htext
    exact inj_on_of_nodup_map hnodup hb ha (StableId.toString_injective htext)

/-- Rows of known elements, in any order, are read as the elements. -/
theorem exists_read_of_perm {read : ρ → StatusOr α} {toRow : α → ρ} {rows : List ρ}
    {xs : List α} (hperm : rows.Perm (xs.map toRow)) (hread : ∀ x ∈ xs, read (toRow x) = .ok x) :
    ∃ ys, List.Forall₂ (fun row y => read row = .ok y) rows ys ∧ ys.Perm xs := by
  have hmap : List.Forall₂ (fun row x => read row = .ok x) (xs.map toRow) xs := by
    rw [forall₂_map_left_iff, forall₂_same]
    exact hread
  obtain ⟨ys, hys, hperm⟩ := perm_comp_forall₂ hperm hmap
  exact ⟨ys, hys, hperm⟩

/-- Rows that stand in groups, one for each element, are read as the parts of the elements. -/
theorem exists_groups_of_perm {α β ρ π : Type} [LinearOrder π] {xs : List α} (idOf : α → StableId)
    (parts : α → List β) (rowsOf : α → List ρ) (group : ρ → String) (pos : ρ → π)
    {read : ρ → StatusOr (String × β)} {table : List ρ} (hnodup : (xs.map idOf).Nodup)
    (hmade : ∀ x ∈ xs, Made (idOf x))
    (hgroups : ∀ x ∈ xs, ∀ row ∈ rowsOf x, group row = (idOf x).toString)
    (hgroup : ∀ row y, read row = .ok y → y.1 = group row)
    (hsorted : ∀ x ∈ xs, (rowsOf x).Pairwise fun a b => pos a < pos b)
    (hread : ∀ x ∈ xs, (rowsOf x).mapM read = .ok ((parts x).map (bindText (idOf x).toString, ·)))
    (hperm : table.Perm (xs.flatMap rowsOf)) :
    ∃ ys, (table.insertionSort fun a b => toLex (group a, pos a) ≤ toLex (group b, pos b)).mapM
        read = .ok ys ∧
      ∀ x ∈ xs, (ys.filter (·.1 = bindText (idOf x).toString)).map Prod.snd = parts x := by
  have hok : ∃ ys, (table.insertionSort fun a b =>
      toLex (group a, pos a) ≤ toLex (group b, pos b)).mapM read = .ok ys := by
    refine mapM_isOk _ _ fun row hrow => ?_
    have hmem := hperm.mem_iff.mp ((mem_insertionSort _).mp hrow)
    obtain ⟨x, hx, hmem⟩ := mem_flatMap.mp hmem
    exact (forall_of_mapM (hread x hx) row hmem).imp fun _ hy => hy.2
  obtain ⟨ys, hys⟩ := hok
  refine ⟨ys, hys, fun x hx => ?_⟩
  refine group_of_mapM group pos (rowsOf x) hgroup ?_ (hsorted x hx) (hread x hx) hys
  rw [bindText_toString (hmade x hx), ← filter_flatMap_group hnodup hgroups hx]
  exact hperm.filter _

section Load

variable {sha256 : String → String} {graphs : List ThinCpg} {graph : ThinCpg}

section

variable (h : Staged sha256 graphs)
include h

theorem Staged.read_nodes (hgraph : graph ∈ graphs) :
    ∃ nodes, List.Forall₂ (fun row node => readNode row = .ok node)
        ((tablesOf sha256 graphs).nodeRowsOf (pidText sha256 graph)) nodes ∧
      nodes.Perm graph.nodes := by
  rw [tablesOf_eq]
  exact exists_read_of_perm
    ((perm_insertionSort _ _).trans (h.rowsOf_nodes.perm_filter h.toDistinct hgraph))
    fun node hnode => readNode_nodeRow ((h.storable graph hgraph).nodeIds node hnode)
      ((h.storable graph hgraph).labels node hnode)

variable {pid : String}

omit h in
theorem mapM_edgeSupportRows (hids : ∀ support ∈ edge.support, Made support.functionSummaryId)
    (htexts : ∀ support ∈ edge.support, NulFree support.provenanceRef) :
    (edgeSupportRows pid edge).mapM readSupport =
      .ok (edge.support.map (bindText edge.edgeId.toString, ·)) := by
  have hsupport : edge.support.map (bindText edge.edgeId.toString, ·) =
      edge.support.zipIdx.map fun entry => (bindText edge.edgeId.toString, entry.1) := by
    conv_lhs => rw [← zipIdx_map_fst 0 edge.support, map_map]
    rfl
  rw [hsupport, edgeSupportRows, mapM_eq_ok, forall₂_map_left_iff,
    forall₂_map_right_iff, forall₂_same]
  rintro ⟨support, position⟩ hentry
  have hmem : support ∈ edge.support := fst_mem_of_mem_zipIdx hentry
  exact readSupport_supportRow (hids support hmem) (htexts support hmem)

theorem Staged.read_supports (hgraph : graph ∈ graphs) :
    ∃ supports, ((tablesOf sha256 graphs).supportRowsOf (pidText sha256 graph)).mapM readSupport =
        .ok supports ∧
      ∀ edge ∈ graph.edges,
        (supports.filter (·.1 = bindText edge.edgeId.toString)).map Prod.snd = edge.support := by
  have hstorable := h.storable graph hgraph
  rw [tablesOf_eq]
  refine exists_groups_of_perm CpgEdge.edgeId CpgEdge.support (edgeSupportRows (pidText sha256 graph))
    EdgeSupportRow.edgeId EdgeSupportRow.position graph.edges_nodup
    (fun edge hedge => (hstorable.edgeIds edge hedge).1) ?_ ?_ (fun edge _ => pairwise_position _ edge)
    (fun edge hedge => mapM_edgeSupportRows (hstorable.supportIds edge hedge)
      (hstorable.provenanceRefs edge hedge))
    (h.rowsOf_edgeSupport.perm_filter h.toDistinct hgraph)
  · intro edge hedge row hrow
    obtain ⟨entry, -, rfl⟩ := mem_map.mp hrow
    exact bindText_toString (hstorable.edgeIds edge hedge).1
  · intro row x hx
    obtain ⟨id, -, hx⟩ := bind_eq_ok.mp hx
    rw [← pure_eq_ok.mp hx]

theorem Staged.read_edges (hgraph : graph ∈ graphs)
    {supports : List (String × SupportRef)} (hsupports : ∀ edge ∈ graph.edges,
      (supports.filter (·.1 = bindText edge.edgeId.toString)).map Prod.snd = edge.support) :
    ∃ edges, List.Forall₂ (fun row edge => readEdge supports row = .ok edge)
        ((tablesOf sha256 graphs).edgeRowsOf (pidText sha256 graph)) edges ∧
      edges.Perm graph.edges := by
  rw [tablesOf_eq]
  refine exists_read_of_perm
    ((perm_insertionSort _ _).trans (h.rowsOf_edges.perm_filter h.toDistinct hgraph)) ?_
  intro edge hedge
  obtain ⟨hid, hsource, htarget⟩ := (h.storable graph hgraph).edgeIds edge hedge
  exact readEdge_edgeRow hid hsource htarget (hsupports edge hedge)

/-- An argument's index is read back as an `int`. -/
def IndicesFit (graph : ThinCpg) : Prop :=
  ∀ binding ∈ graph.callsites, binding.arguments.length ≤ 2147483648

omit h in
theorem index_le (haccepted : binding.Accepted) (hfit : binding.arguments.length ≤ 2147483648) :
    ∀ argument ∈ binding.arguments, argument.index ≤ 2147483647 := by
  intro argument hargument
  have hmem : argument.index ∈ binding.arguments.map CallSiteArgument.index :=
    mem_map_of_mem hargument
  rw [haccepted.map_index_arguments, mem_range] at hmem
  omega

omit h in
theorem mapM_argumentRows (hindices : ∀ argument ∈ binding.arguments, argument.index ≤ 2147483647)
    (hids : ∀ argument ∈ binding.arguments,
      Made argument.valueRef ∧ ∀ id ∈ argument.memoryRef, Made id) :
    (argumentRows pid binding).mapM readArgument =
      .ok (binding.arguments.map (bindText binding.callsiteId.toString, ·)) := by
  rw [argumentRows, mapM_eq_ok, forall₂_map_left_iff, forall₂_map_right_iff, forall₂_same]
  intro argument hargument
  exact readArgument_argumentRow (hindices argument hargument) (hids argument hargument).1
    (hids argument hargument).2

theorem Staged.read_arguments (hgraph : graph ∈ graphs) (hfit : IndicesFit graph) :
    ∃ arguments, ((tablesOf sha256 graphs).argumentRowsOf (pidText sha256 graph)).mapM
        readArgument = .ok arguments ∧
      ∀ binding ∈ graph.callsites,
        (arguments.filter (·.1 = bindText binding.callsiteId.toString)).map Prod.snd =
          binding.arguments := by
  have hstorable := h.storable graph hgraph
  rw [tablesOf_eq]
  refine exists_groups_of_perm callsiteId arguments
    (argumentRows (pidText sha256 graph)) CallsiteArgumentRow.callsiteId
    CallsiteArgumentRow.argumentIndex graph.callsites_nodup
    (fun binding hb => (hstorable.callsiteIds binding hb).1) ?_ ?_
    (fun binding hb => pairwise_argumentIndex _ (graph.callsites_accepted binding hb))
    (fun binding hb => mapM_argumentRows
      (index_le (graph.callsites_accepted binding hb) (hfit binding hb))
      (hstorable.argumentIds binding hb))
    (h.rowsOf_callsiteArguments.perm_filter h.toDistinct hgraph)
  · intro binding hb row hrow
    obtain ⟨argument, -, rfl⟩ := mem_map.mp hrow
    exact bindText_toString (hstorable.callsiteIds binding hb).1
  · intro row x hx
    unfold readArgument at hx
    split at hx
    · rename_i index value _ _
      by_cases hneg : index < 0
      · rw [if_pos hneg] at hx
        exact absurd hx throw_ne_ok
      · rw [if_neg hneg] at hx
        obtain ⟨memory, -, hx⟩ := bind_eq_ok.mp hx
        rw [← pure_eq_ok.mp hx]
    · exact absurd hx throw_ne_ok

theorem Staged.read_bindings (hgraph : graph ∈ graphs)
    {arguments : List (String × CallSiteArgument)} (harguments : ∀ binding ∈ graph.callsites,
      (arguments.filter (·.1 = bindText binding.callsiteId.toString)).map Prod.snd =
        binding.arguments) :
    ∃ bindings, List.Forall₂ (fun row binding => readBinding arguments row = .ok binding)
        ((tablesOf sha256 graphs).bindingRowsOf (pidText sha256 graph)) bindings ∧
      bindings.Perm graph.callsites := by
  rw [tablesOf_eq]
  refine exists_read_of_perm ((perm_insertionSort _ _).trans
    (h.rowsOf_callsiteBindings.perm_filter h.toDistinct hgraph)) ?_
  intro binding hbinding
  obtain ⟨hsite, howner, hcallee, hresult⟩ := (h.storable graph hgraph).callsiteIds binding hbinding
  exact readBinding_bindingRow (graph.callsites_accepted binding hbinding) hsite howner hcallee
    hresult (harguments binding hbinding)

/-- The graph before its calls are added. -/
structure HasBase (graph staged base : ThinCpg) : Prop where
  nodes : base.nodes.Perm graph.nodes
  edges : base.edges.Perm graph.edges
  metadata : base.metadata = staged.metadata
  callsites : base.callsites = []

omit h in
/-- A graph that differs from the base in its calls has the content of the staged one. -/
theorem HasBase.sameContent {staged base loaded : ThinCpg} (h : HasBase graph staged base)
    (hsame : graph.SameContent staged) (hnodes : loaded.nodes = base.nodes)
    (hedges : loaded.edges = base.edges) (hmetadata : loaded.metadata = base.metadata)
    (hcalls : graph.hasCompilerOwnership → graph.callsites.Perm loaded.callsites) :
    graph.SameContent loaded := by
  have hmetadata := hmetadata.trans h.metadata
  exact ⟨hmetadata ▸ hsame.schemaVersion, hmetadata ▸ hsame.revisionId,
    hmetadata ▸ hsame.buildVariantId, hmetadata ▸ hsame.moduleHash, hmetadata ▸ hsame.summaryIds,
    hnodes ▸ h.nodes.symm, hedges ▸ h.edges.symm, hcalls⟩

theorem Staged.load_base (hgraph : graph ∈ graphs) (staged : ThinCpg) : ∃ mid supports base,
      ((tablesOf sha256 graphs).nodeRowsOf (pidText sha256 graph)).foldlM (fun graph row => do
        let node ← readNode row
        graph.addNode node) (empty staged.metadata) = .ok mid ∧
      ((tablesOf sha256 graphs).supportRowsOf (pidText sha256 graph)).mapM readSupport =
        .ok supports ∧
      ((tablesOf sha256 graphs).edgeRowsOf (pidText sha256 graph)).foldlM (fun graph row => do
        let edge ← readEdge supports row
        graph.addEdge edge) mid = .ok base ∧ HasBase graph staged base := by
  obtain ⟨nodes, hnodes, hnodesPerm⟩ := h.read_nodes hgraph
  obtain ⟨supports, hsupports, hgroups⟩ := h.read_supports hgraph
  obtain ⟨edges, hedges, hedgesPerm⟩ := h.read_edges hgraph hgroups
  have hnodeIds : (((empty staged.metadata).nodes ++ nodes).map CpgNode.nodeId).Nodup :=
    ((hnodesPerm.map _).nodup_iff).mpr graph.nodes_nodup
  obtain ⟨mid, hmid, hn, hrest⟩ := foldlM_add (fun g => g.nodes) CpgNode.nodeId
    (fun g => (g.edges, g.metadata, g.callsites)) (fun _ _ _ => addNode_of_find?) hnodeIds
  obtain ⟨he, hm, hc⟩ := by simpa only [Prod.mk.injEq] using hrest
  have hedgeIds : ((mid.edges ++ edges).map CpgEdge.edgeId).Nodup := by
    rw [he]
    exact ((hedgesPerm.map _).nodup_iff).mpr graph.edges_nodup
  obtain ⟨base, hbase, he', hrest'⟩ := foldlM_add (fun g => g.edges) CpgEdge.edgeId
    (fun g => (g.nodes, g.metadata, g.callsites)) (fun _ edge hedge => addEdge_of_find?
      (graph.edges_accepted edge (hedgesPerm.mem_iff.mp hedge))) hedgeIds
  obtain ⟨hn', hm', hc'⟩ := by simpa only [Prod.mk.injEq] using hrest'
  refine ⟨mid, supports, base, ?_, hsupports, ?_, ⟨?_, ?_, hm'.trans hm, hc'.trans hc⟩⟩
  · rw [foldlM_read hnodes]
    exact hmid
  · rw [foldlM_read hedges]
    exact hbase
  · rw [hn', hn]
    exact hnodesPerm
  · rw [he', he]
    exact hedgesPerm

/-- With the calls the graph is the staged one, so that it passes the checks again. -/
theorem Staged.loadCallsites_eq_ok (hgraph : graph ∈ graphs)
    (hfit : IndicesFit graph) {staged base : ThinCpg} (hsame : graph.SameContent staged)
    (hbase : HasBase graph staged base) (howned : graph.hasCompilerOwnership) :
    ∃ loaded, (tablesOf sha256 graphs).loadCallsites sha256 (graph.projectionId sha256) base =
      .ok loaded ∧ graph.SameContent loaded := by
  obtain ⟨arguments, harguments, hgroups⟩ := h.read_arguments hgraph hfit
  obtain ⟨bindings, hbindings, hperm⟩ := h.read_bindings hgraph hgroups
  have hsites : ((base.callsites ++ bindings).map callsiteId).Nodup := by
    rw [hbase.callsites]
    exact ((hperm.map _).nodup_iff).mpr graph.callsites_nodup
  obtain ⟨loaded, hloaded, hc, hrest⟩ := foldlM_add (fun g => g.callsites)
    callsiteId (fun g => (g.nodes, g.edges, g.metadata))
    (fun _ binding hb => addCallSiteBinding_of_find?
      (graph.callsites_accepted binding (hperm.mem_iff.mp hb))) hsites
  obtain ⟨hn, he, hm⟩ := by simpa only [Prod.mk.injEq] using hrest
  have hcontent : graph.SameContent loaded := hbase.sameContent hsame hn he hm fun _ => by
    rw [hc, hbase.callsites]
    exact hperm.symm
  refine ⟨loaded, ?_, hcontent⟩
  refine bind_eq_ok.mpr ⟨arguments, harguments, ?_⟩
  refine bind_eq_ok.mpr ⟨loaded, (foldlM_read hbindings base).trans hloaded, ?_⟩
  have hvalid := hcontent.valid howned (h.valid graph hgraph)
  refine bind_unit_eq_ok.mpr ⟨validate_eq_ok.mpr hvalid, ?_⟩
  refine guard_eq_ok.mpr ⟨not_not.mpr ?_, rfl⟩
  rw [projectionId, projectionId, canonicalBytes, canonicalBytes, hcontent.canonicalFields]

/-- After its nodes and edges a staged graph is read as its calls allow. -/
theorem Staged.loadProjection_eq (hgraph : graph ∈ graphs) :
    ∃ staged base, graph.SameContent staged ∧ HasBase graph staged base ∧
      base.hasCompilerOwnership = graph.hasCompilerOwnership ∧
      (tablesOf sha256 graphs).loadProjection sha256 (graph.projectionId sha256) =
        if base.hasCompilerOwnership then
          (tablesOf sha256 graphs).loadCallsites sha256 (graph.projectionId sha256) base
        else pure base := by
  obtain ⟨staged, hstaged, hsame, hrow⟩ := h.toDistinct.find_projection hgraph
  obtain ⟨mid, supports, base, hmid, hsupports, hedges, hbase⟩ := h.load_base hgraph staged
  have howner : base.hasCompilerOwnership = graph.hasCompilerOwnership := by
    rw [hasCompilerOwnership, hbase.metadata, hasCompilerOwnership, hsame.schemaVersion]
  refine ⟨staged, base, hsame, hbase, howner, ?_⟩
  have hkey : bindText (graph.projectionId sha256).toString = bindText (pidText sha256 graph) := rfl
  have hmetadata : readMetadata (projectionRow (pidText sha256 staged) staged.metadata) =
      .ok staged.metadata := readMetadata_projectionRow (h.storable staged hstaged)
  have hbind : ∀ {α β : Type} (a : α) (f : α → StatusOr β),
      ((Except.ok a : StatusOr α) >>= f) = f a := fun _ _ => rfl
  rw [pidText] at hmid hsupports hedges
  rw [CpgTables.loadProjection, hkey, hrow]
  simp only [CpgTables.loadGraph, hmetadata, hbind, hmid, hsupports, hedges]

/-- A staged graph is read back with its content. -/
theorem Staged.loadProjection_eq_ok (hgraph : graph ∈ graphs) (hfit : IndicesFit graph) :
    ∃ loaded, (tablesOf sha256 graphs).loadProjection sha256 (graph.projectionId sha256) =
      .ok loaded ∧ graph.SameContent loaded := by
  obtain ⟨staged, base, hsame, hbase, howner, hload⟩ := h.loadProjection_eq hgraph
  rw [hload]
  by_cases howned : graph.hasCompilerOwnership
  · rw [if_pos (howner.trans howned)]
    exact h.loadCallsites_eq_ok hgraph hfit hsame hbase howned
  · have hlegacy : ¬ base.hasCompilerOwnership := by rwa [howner]
    rw [if_neg hlegacy]
    exact ⟨base, rfl, hbase.sameContent hsame rfl rfl rfl fun howned' => absurd howned' howned⟩

/-- An index past the range of `int` is written but not read. -/
theorem Staged.indicesFit (hgraph : graph ∈ graphs) {loaded : ThinCpg}
    (hload : (tablesOf sha256 graphs).loadProjection sha256 (graph.projectionId sha256) =
      .ok loaded) : IndicesFit graph := by
  intro binding hbinding
  have howned : graph.hasCompilerOwnership := by
    by_contra hlegacy
    rw [(h.valid graph hgraph).legacy hlegacy] at hbinding
    exact absurd hbinding not_mem_nil
  obtain ⟨staged, base, -, -, howner, heq⟩ := h.loadProjection_eq hgraph
  rw [heq, if_pos (howner.trans howned)] at hload
  obtain ⟨arguments, harguments, -⟩ := bind_eq_ok.mp hload
  by_contra hlong
  have haccepted := graph.callsites_accepted binding hbinding
  have hindex : 2147483648 ∈ binding.arguments.map CallSiteArgument.index := by
    rw [haccepted.map_index_arguments, mem_range]
    omega
  obtain ⟨argument, hargument, hindex⟩ := mem_map.mp hindex
  have hrow : argumentRow (pidText sha256 graph) binding argument ∈
      (tablesOf sha256 graphs).argumentRowsOf (graph.projectionId sha256).toString := by
    rw [tablesOf_eq]
    refine (mem_insertionSort _).mpr
      ((h.rowsOf_callsiteArguments.perm_filter h.toDistinct hgraph).mem_iff.mpr ?_)
    exact mem_flatMap.mpr ⟨binding, hbinding, mem_map_of_mem hargument⟩
  obtain ⟨x, -, hx⟩ := forall_of_mapM harguments _ hrow
  have hparse : ∀ value, parseInt (argumentRow (pidText sha256 graph) binding argument).argumentIndex
      ≠ .ok value := by
    intro value hvalue
    have hcolumn : (argumentRow (pidText sha256 graph) binding argument).argumentIndex =
        2147483648 := by
      rw [argumentRow, hindex]
      rfl
    rw [hcolumn, parseInt, if_neg (by omega)] at hvalue
    exact absurd hvalue throw_ne_ok
  unfold readArgument at hx
  split at hx
  · rename_i index value hvalue _
    exact hparse index hvalue
  · exact absurd hx throw_ne_ok

end

theorem bindText_inj {id id' : StableId} (h : Made id) (h' : Made id')
    (heq : bindText id.toString = bindText id'.toString) : id = id' := by
  rw [bindText_toString h, bindText_toString h'] at heq
  exact StableId.toString_injective heq

/-- The current projection is the last one staged for its revision and build variant. -/
theorem Staged.openCurrent_eq_ok {pre post : List ThinCpg} (h : Staged sha256 (pre ++ graph :: post))
    (hlast : ∀ other ∈ post, other.metadata.revisionId = graph.metadata.revisionId →
      other.metadata.buildVariantId ≠ graph.metadata.buildVariantId) :
    (tablesOf sha256 (pre ++ graph :: post)).openCurrent graph.metadata.revisionId
      graph.metadata.buildVariantId = .ok (graph.projectionId sha256) := by
  have hfold : (tablesOf sha256 (pre ++ graph :: post)).currentProjections =
      (pre ++ graph :: post).foldl (fun table g =>
        table.insertOrReplace (currentRow (pidText sha256 g) g.metadata)) .empty := by
    rw [tablesOf_eq]
    exact foldl_flatMap_singleton _ _ _
  have hmade : ∀ g ∈ pre ++ graph :: post,
      Made g.metadata.revisionId ∧ Made g.metadata.buildVariantId := fun g hg =>
    ⟨(h.storable g hg).revisionId, (h.storable g hg).buildVariantId⟩
  have hgraph := hmade graph (by simp)
  have hfind : (pre ++ graph :: post).reverse.find? (fun g =>
      (currentRow (pidText sha256 g) g.metadata).primaryKey =
        (bindText graph.metadata.revisionId.toString,
          bindText graph.metadata.buildVariantId.toString)) = some graph := by
    rw [find?_eq_some_iff_append]
    refine ⟨decide_eq_true rfl, post.reverse, pre.reverse, by simp, fun other hother => ?_⟩
    have hmem := mem_reverse.mp hother
    have hids := hmade other (by simp [hmem])
    simp only [Bool.not_eq_true', decide_eq_false_iff_not]
    intro hkey
    obtain ⟨hrevision, hbuild⟩ := Prod.mk.inj hkey
    exact hlast other hmem (bindText_inj hids.1 hgraph.1 hrevision)
      (bindText_inj hids.2 hgraph.2 hbuild)
  rw [CpgTables.openCurrent, hfold, KeyedTable.find?_foldl_insertOrReplace, hfind]
  exact parse_bindText (h.digest _)

end Load

def sampleSha (bytes : String) : String :=
  String.ofList (digestToHex (List.replicate 32 (bytes.length % 256)))

theorem isDigestHex_sampleSha (bytes : String) : IsDigestHex (sampleSha bytes) :=
  isDigestHex_replicate _

def sampleId (kind : IdKind) : StableId := makeStableId sampleSha kind ""

theorem made_sampleId (kind : IdKind) : Made (sampleId kind) := isDigestHex_sampleSha ""

theorem validId_sampleId (kind : IdKind) : validId (sampleId kind) kind := by
  have hdigest : (hexToDigest (sampleSha "").toList).isSome = true := by decide +kernel
  exact decide_eq_true ⟨rfl, hdigest⟩

def sampleNodes : List CpgNode :=
  [⟨sampleId .functionVariant, .function, "f"⟩, ⟨sampleId .callSite, .callSite, ""⟩,
    ⟨sampleId .valueRef, .parameter, "x"⟩]

def sampleEdges : List CpgEdge :=
  [⟨⟨.cpgEdge, sampleSha "a"⟩, .contains, sampleId .functionVariant, sampleId .callSite, none,
      false, []⟩,
    ⟨⟨.cpgEdge, sampleSha "ab"⟩, .calls, sampleId .callSite, sampleId .functionVariant, none, false,
      []⟩]

/-- A function that calls itself with its parameter in every place. -/
def sampleBinding (count : ℕ) : CallSiteBinding where
  callsiteId := sampleId .callSite
  functionVariantId := sampleId .functionVariant
  calleeRef := sampleId .functionVariant
  normalizedOperation := ""
  arguments := (List.range count).map fun index => ⟨index, sampleId .valueRef, none⟩
  resultRef := none

theorem accepted_sampleBinding (count : ℕ) : (sampleBinding count).Accepted where
  identity := decide_eq_true ⟨validId_sampleId _, validId_sampleId _, .inl (validId_sampleId _), rfl⟩
  arguments := by
    refine all_eq_true.mpr ?_
    rintro ⟨argument, i⟩ hentry
    have hget := mem_zipIdx_iff_getElem?.mp hentry
    rw [sampleBinding, getElem?_map, Option.map_eq_some_iff] at hget
    obtain ⟨index, hindex, rfl⟩ := hget
    obtain ⟨hlt, hindex⟩ := List.getElem?_eq_some_iff.mp hindex
    rw [getElem_range] at hindex
    exact decide_eq_true ⟨hindex.symm, validId_sampleId _, rfl⟩
  operation := decide_eq_true (.inl rfl)

def sampleGraph (count : ℕ) : ThinCpg where
  nodes := sampleNodes
  edges := sampleEdges
  nodes_nodup := by decide +kernel
  edges_nodup := by decide +kernel
  metadata := ⟨kCompilerOwnedProjection, sampleId .revision, sampleId .buildVariant, "", []⟩
  callsites := [sampleBinding count]
  edges_accepted := by
    intro edge hedge
    simp only [sampleEdges, mem_cons, not_mem_nil, or_false] at hedge
    rcases hedge with rfl | rfl
    · exact ⟨by simp, List.Pairwise.nil.sortedLT⟩
    · exact ⟨by simp, List.Pairwise.nil.sortedLT⟩
  callsites_nodup := nodup_singleton _
  callsites_accepted := by
    intro binding hbinding
    rw [mem_singleton.mp hbinding]
    exact accepted_sampleBinding count

variable {count : ℕ}

theorem hasNode_sampleGraph {kind : IdKind} (h : sampleId kind ∈ sampleNodes.map CpgNode.nodeId) :
    (sampleGraph count).hasNode (sampleId kind) := hasNode_iff.mpr h

theorem forall_sampleEdges {p : CpgEdge → Prop} (hcontains : p (sampleEdges.get ⟨0, by decide⟩))
    (hcalls : p (sampleEdges.get ⟨1, by decide⟩)) : ∀ edge ∈ sampleEdges, p edge := by
  intro edge hedge
  simp only [sampleEdges, mem_cons, not_mem_nil, or_false] at hedge
  rcases hedge with rfl | rfl
  · exact hcontains
  · exact hcalls

theorem valid_sampleGraph (count : ℕ) : (sampleGraph count).Valid := by
  have hfunction : (sampleGraph count).hasNode (sampleId .functionVariant) :=
    hasNode_sampleGraph (by simp [sampleNodes])
  have hsite : (sampleGraph count).hasNode (sampleId .callSite) :=
    hasNode_sampleGraph (by simp [sampleNodes])
  have hvalue : (sampleGraph count).hasNode (sampleId .valueRef) :=
    hasNode_sampleGraph (by simp [sampleNodes])
  have hdigest : sampleSha "" ≠ "" := by decide +kernel
  have hargument : ∀ argument ∈ (sampleBinding count).arguments,
      argument.valueRef = sampleId .valueRef ∧ argument.memoryRef = none := by
    intro argument hmem
    obtain ⟨index, -, rfl⟩ := mem_map.mp hmem
    exact ⟨rfl, rfl⟩
  have hone : ∀ {p : CallSiteBinding → Prop}, p (sampleBinding count) →
      ∀ binding ∈ (sampleGraph count).callsites, p binding := by
    intro p hp binding hbinding
    rw [mem_singleton.mp hbinding]
    exact hp
  refine ⟨hdigest, hdigest, forall_sampleEdges ⟨hfunction, hsite⟩ ⟨hsite, hfunction⟩,
    fun hlegacy => absurd (decide_eq_true rfl) hlegacy, fun _ => ?_⟩
  refine ⟨?_, ?_, ?_, ?_, hone ⟨hfunction, rfl⟩, ?_, ?_, ?_, ?_⟩
  · intro node hnode hkind
    have hid : node.nodeId = sampleId .callSite := by
      simp only [sampleGraph, sampleNodes, mem_cons, not_mem_nil, or_false] at hnode
      rcases hnode with rfl | rfl | rfl <;> first | rfl | cases hkind
    rw [hid]
    exact mem_singleton_self _
  · exact forall_sampleEdges (fun _ => ⟨_, mem_cons_self, rfl, rfl⟩) nofun
  · refine forall_sampleEdges (forall_sampleEdges (fun _ _ _ => rfl) nofun)
      (forall_sampleEdges nofun nofun)
  · exact hone ⟨_, mem_cons_self, rfl, rfl, rfl⟩
  · exact hone ⟨_, mem_cons_of_mem _ mem_cons_self, rfl, rfl⟩
  · refine hone fun argument hmem => ?_
    rw [(hargument argument hmem).1, (hargument argument hmem).2]
    exact ⟨hvalue, rfl⟩
  · refine hone fun argument hmem => ?_
    rw [(hargument argument hmem).1]
    exact forall_sampleEdges (fun _ heq => absurd heq (by decide +kernel)) nofun
  · exact hone ⟨_, mem_cons_of_mem _ mem_cons_self, .inl rfl, rfl, rfl⟩

theorem storable_sampleGraph (count : ℕ) : (sampleGraph count).Storable where
  revisionId := made_sampleId _
  buildVariantId := made_sampleId _
  summaryIds := List.forall_mem_nil _
  nodeIds := by
    intro node hnode
    simp only [sampleGraph, sampleNodes, mem_cons, not_mem_nil, or_false] at hnode
    rcases hnode with rfl | rfl | rfl <;> exact made_sampleId _
  edgeIds := forall_sampleEdges ⟨isDigestHex_sampleSha _, made_sampleId _, made_sampleId _⟩
    ⟨isDigestHex_sampleSha _, made_sampleId _, made_sampleId _⟩
  supportIds := forall_sampleEdges (forall_mem_nil _) (forall_mem_nil _)
  callsiteIds := by
    intro binding hbinding
    rw [mem_singleton.mp hbinding]
    exact ⟨made_sampleId _, made_sampleId _, made_sampleId _, nofun⟩
  argumentIds := by
    intro binding hbinding argument hargument
    rw [mem_singleton.mp hbinding] at hargument
    obtain ⟨index, -, rfl⟩ := mem_map.mp hargument
    exact ⟨made_sampleId _, nofun⟩
  schemaVersion := (by decide : '\x00' ∉ kCompilerOwnedProjection.toList)
  moduleHash := (by decide : '\x00' ∉ "".toList)
  labels := by
    intro node hnode
    simp only [sampleGraph, sampleNodes, mem_cons, not_mem_nil, or_false] at hnode
    rcases hnode with rfl | rfl | rfl <;> unfold NulFree <;> decide
  provenanceRefs := forall_sampleEdges (forall_mem_nil _) (forall_mem_nil _)

theorem staged_sampleGraph (count : ℕ) : Staged sampleSha [sampleGraph count] where
  digest := isDigestHex_sampleSha
  valid graph hgraph := by
    rw [mem_singleton.mp hgraph]
    exact valid_sampleGraph count
  collisionFree graph hgraph graph' hgraph' _ := by
    rw [mem_singleton.mp hgraph, mem_singleton.mp hgraph']
  storable graph hgraph := by
    rw [mem_singleton.mp hgraph]
    exact storable_sampleGraph count

theorem indicesFit_sampleGraph : IndicesFit (sampleGraph count) ↔ count ≤ 2147483648 := by
  have hlength : (sampleBinding count).arguments.length = count := by
    rw [sampleBinding, length_map, length_range]
  constructor
  · intro h
    rw [← hlength]
    exact h (sampleBinding count) (mem_singleton_self _)
  · intro h binding hbinding
    rw [mem_singleton.mp hbinding, hlength]
    exact h

theorem not_read_sampleGraph (hcount : 2147483648 < count) :
    ¬ ∃ loaded, (tablesOf sampleSha [sampleGraph count]).loadProjection sampleSha
      ((sampleGraph count).projectionId sampleSha) = .ok loaded := by
  rintro ⟨loaded, hload⟩
  have hfit := (staged_sampleGraph count).indicesFit mem_cons_self hload
  exact absurd (indicesFit_sampleGraph.mp hfit) (by omega)

end Veritas.Cpg

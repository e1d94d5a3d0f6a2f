import Veritas.Cpg.ProjectionRows

/-! What the tables hold after a sequence of staged graphs. -/
namespace Veritas.Cpg

open SummaryDb List

def projectionRowsIn (statements : List CpgStatement) : List ProjectionRow :=
  statements.filterMap fun
    | .insertProjection row => some row
    | _ => none

def nodeRowsIn (statements : List CpgStatement) : List NodeRow :=
  statements.filterMap fun
    | .insertNode row => some row
    | _ => none

def edgeRowsIn (statements : List CpgStatement) : List EdgeRow :=
  statements.filterMap fun
    | .insertEdge row => some row
    | _ => none

def supportRowsIn (statements : List CpgStatement) : List EdgeSupportRow :=
  statements.filterMap fun
    | .insertEdgeSupport row => some row
    | _ => none

def bindingRowsIn (statements : List CpgStatement) : List CallsiteBindingRow :=
  statements.filterMap fun
    | .insertCallsiteBinding row => some row
    | _ => none

def argumentRowsIn (statements : List CpgStatement) : List CallsiteArgumentRow :=
  statements.filterMap fun
    | .insertCallsiteArgument row => some row
    | _ => none

def currentRowsIn (statements : List CpgStatement) : List CurrentProjectionRow :=
  statements.filterMap fun
    | .insertCurrentProjection row => some row
    | _ => none

/-- Each table sees its own rows only. -/
theorem foldl_execute (statements : List CpgStatement) (tables : CpgTables) :
    statements.foldl CpgTables.execute tables =
      { projections := (projectionRowsIn statements).foldl .insertOrReplace tables.projections
        nodes := (nodeRowsIn statements).foldl .insertOrReplace tables.nodes
        edges := (edgeRowsIn statements).foldl .insertOrReplace tables.edges
        edgeSupport := (supportRowsIn statements).foldl .insertOrReplace tables.edgeSupport
        callsiteBindings :=
          (bindingRowsIn statements).foldl .insertOrReplace tables.callsiteBindings
        callsiteArguments :=
          (argumentRowsIn statements).foldl .insertOrReplace tables.callsiteArguments
        currentProjections :=
          (currentRowsIn statements).foldl .insertOrReplace tables.currentProjections } := by
  induction statements generalizing tables with
  | nil => rfl
  | cons statement statements ih =>
    rw [foldl_cons, ih]
    cases statement <;> rfl

section Graph

variable (sha256 : String → String) (graph : ThinCpg)

/-- The projection id as the tables hold it. -/
def pidText : String := (graph.projectionId sha256).toString

/-- The rows of one graph, table by table. -/
theorem rowsIn_projectionStatements : projectionRowsIn (projectionStatements sha256 graph) =
      [projectionRow (pidText sha256 graph) graph.metadata] ∧
    nodeRowsIn (projectionStatements sha256 graph) =
      graph.nodes.map (nodeRow (pidText sha256 graph)) ∧
    edgeRowsIn (projectionStatements sha256 graph) =
      graph.edges.map (edgeRow (pidText sha256 graph)) ∧
    supportRowsIn (projectionStatements sha256 graph) =
      graph.edges.flatMap (edgeSupportRows (pidText sha256 graph)) ∧
    bindingRowsIn (projectionStatements sha256 graph) =
      graph.callsites.map (bindingRow (pidText sha256 graph)) ∧
    argumentRowsIn (projectionStatements sha256 graph) =
      graph.callsites.flatMap (argumentRows (pidText sha256 graph)) ∧
    currentRowsIn (projectionStatements sha256 graph) =
      [currentRow (pidText sha256 graph) graph.metadata] := by
  have hnil : ∀ {α β : Type} (l : List α), l.flatMap (fun _ => ([] : List β)) = [] := fun l =>
    flatMap_eq_nil_iff.mpr fun _ _ => rfl
  refine ⟨?_, ?_, ?_, ?_, ?_, ?_, ?_⟩ <;> cases h : graph.hasCompilerOwnership <;>
    simp [projectionRowsIn, nodeRowsIn, edgeRowsIn, supportRowsIn, bindingRowsIn, argumentRowsIn,
      currentRowsIn, projectionStatements, h, filterMap_append,
      filterMap_flatMap, map_eq_flatMap, hnil, pidText]

end Graph

def stageAll (sha256 : String → String) (graphs : List ThinCpg) : StatusOr CpgTables :=
  graphs.foldlM (stageProjection sha256) .empty

/-- The tables that hold the rows of these graphs. -/
def tablesOf (sha256 : String → String) (graphs : List ThinCpg) : CpgTables :=
  (graphs.flatMap (projectionStatements sha256)).foldl CpgTables.execute .empty

/-- Valid graphs, none of which shares its projection id with another. -/
structure Distinct (sha256 : String → String) (graphs : List ThinCpg) : Prop where
  digest : ∀ bytes, IsDigestHex (sha256 bytes)
  valid : ∀ graph ∈ graphs, graph.Valid
  collisionFree : ∀ graph ∈ graphs, ∀ graph' ∈ graphs,
    graph.projectionId sha256 = graph'.projectionId sha256 →
      graph.canonicalBytes = graph'.canonicalBytes

/-- Such graphs whose texts are stored as they are. -/
structure Staged (sha256 : String → String) (graphs : List ThinCpg) : Prop
    extends Distinct sha256 graphs where
  storable : ∀ graph ∈ graphs, graph.Storable

section Tables

variable {sha256 : String → String} {graphs : List ThinCpg} {graph : ThinCpg}

theorem stageAll_eq_ok (hvalid : ∀ graph ∈ graphs, graph.Valid) :
    stageAll sha256 graphs = .ok (tablesOf sha256 graphs) := by
  have hrun : ∀ tables, graphs.foldlM (stageProjection sha256) tables =
      .ok ((graphs.flatMap (projectionStatements sha256)).foldl CpgTables.execute tables) := by
    induction graphs with
    | nil => exact fun _ => rfl
    | cons graph graphs ih =>
      intro tables
      have hgraph : stageProjection sha256 tables graph =
          .ok ((projectionStatements sha256 graph).foldl CpgTables.execute tables) := by
        rw [stageProjection, ThinCpg.validate_eq_ok.mpr (hvalid graph mem_cons_self)]
        rfl
      rw [foldlM_cons, hgraph, flatMap_cons, foldl_append]
      exact ih (fun g hg => hvalid g (mem_cons_of_mem _ hg)) _
  exact hrun .empty

theorem Distinct.bindText_pidText (h : Distinct sha256 graphs) (graph : ThinCpg) :
    bindText (pidText sha256 graph) = pidText sha256 graph :=
  bindText_toString (h.digest _)

variable {graph' : ThinCpg} {binding : CallSiteBinding}

/-- Graphs with one projection id are the same graph. -/
theorem Distinct.sameContent (h : Distinct sha256 graphs) (hgraph : graph ∈ graphs)
    (hgraph' : graph' ∈ graphs) (hpid : pidText sha256 graph = pidText sha256 graph') :
    graph.SameContent graph' :=
  (ThinCpg.canonicalBytes_eq_iff (h.valid _ hgraph) (h.valid _ hgraph')).mp
    (h.collisionFree _ hgraph _ hgraph' (StableId.toString_injective hpid))

/-- What the rows of a table must keep for the rows of one projection to be those of its graph. -/
structure RowsOf {ρ κ : Type} (sha256 : String → String) (graphs : List ThinCpg) (key : ρ → κ)
    (pidOf : ρ → String) (rowsOf : ThinCpg → List ρ) : Prop where
  keyed : ∀ a b, key a = key b → pidOf a = pidOf b
  pid : ∀ graph ∈ graphs, ∀ row ∈ rowsOf graph, pidOf row = pidText sha256 graph
  nodup : ∀ graph ∈ graphs, ((rowsOf graph).map key).Nodup
  same : ∀ graph ∈ graphs, ∀ graph' ∈ graphs, graph.SameContent graph' →
    pidText sha256 graph = pidText sha256 graph' → ∀ row ∈ rowsOf graph, row ∈ rowsOf graph'

/-- A query for one projection gives the rows of its graph. -/
theorem RowsOf.perm_filter {ρ κ : Type} [DecidableEq κ] {key : ρ → κ} {pidOf : ρ → String}
    {rowsOf : ThinCpg → List ρ} (hrows : RowsOf sha256 graphs key pidOf rowsOf)
    (h : Distinct sha256 graphs) (hgraph : graph ∈ graphs) :
    ((((graphs.flatMap rowsOf).foldl .insertOrReplace (.empty : KeyedTable ρ key)).rows.filter
      (pidOf · = bindText (pidText sha256 graph))).Perm (rowsOf graph)) := by
  have hmem : ∀ row, row ∈ graphs.flatMap rowsOf → pidOf row = pidText sha256 graph →
      row ∈ rowsOf graph := by
    intro row hrow hpid
    obtain ⟨graph', hgraph', hrow'⟩ := mem_flatMap.mp hrow
    have heq := (hrows.pid _ hgraph' row hrow').symm.trans hpid
    exact hrows.same _ hgraph' _ hgraph (h.sameContent hgraph' hgraph heq) heq row hrow'
  have hconsistent : ∀ a ∈ graphs.flatMap rowsOf, ∀ b ∈ graphs.flatMap rowsOf,
      key a = key b → a = b := by
    intro a ha b hb hkey
    obtain ⟨graph', hgraph', hb'⟩ := mem_flatMap.mp hb
    obtain ⟨graph'', hgraph'', ha'⟩ := mem_flatMap.mp ha
    have heq : pidText sha256 graph'' = pidText sha256 graph' := by
      rw [← hrows.pid _ hgraph'' a ha', ← hrows.pid _ hgraph' b hb', hrows.keyed a b hkey]
    have ha := hrows.same _ hgraph'' _ hgraph' (h.sameContent hgraph'' hgraph' heq) heq a ha'
    exact inj_on_of_nodup_map (hrows.nodup _ hgraph') ha hb' hkey
  have hnodup := ((graphs.flatMap rowsOf).foldl .insertOrReplace
    (.empty : KeyedTable ρ key)).keyed.of_map
  rw [perm_ext_iff_of_nodup (hnodup.filter _) (hrows.nodup _ hgraph).of_map]
  intro row
  rw [mem_filter, KeyedTable.mem_foldl_insertOrReplace hconsistent, decide_eq_true_eq,
    h.bindText_pidText]
  constructor
  · exact fun hrow => hmem row hrow.1 hrow.2
  · exact fun hrow => ⟨mem_flatMap.mpr ⟨graph, hgraph, hrow⟩, hrows.pid _ hgraph row hrow⟩

/-- The tables of the graphs, each with the rows of its own. -/
theorem tablesOf_eq : tablesOf sha256 graphs =
    { projections := (graphs.flatMap fun graph =>
        [projectionRow (pidText sha256 graph) graph.metadata]).foldl .insertOrReplace .empty
      nodes := (graphs.flatMap fun graph =>
        graph.nodes.map (nodeRow (pidText sha256 graph))).foldl .insertOrReplace .empty
      edges := (graphs.flatMap fun graph =>
        graph.edges.map (edgeRow (pidText sha256 graph))).foldl .insertOrReplace .empty
      edgeSupport := (graphs.flatMap fun graph =>
        graph.edges.flatMap (edgeSupportRows (pidText sha256 graph))).foldl .insertOrReplace .empty
      callsiteBindings := (graphs.flatMap fun graph =>
        graph.callsites.map (bindingRow (pidText sha256 graph))).foldl .insertOrReplace .empty
      callsiteArguments := (graphs.flatMap fun graph =>
        graph.callsites.flatMap (argumentRows (pidText sha256 graph))).foldl .insertOrReplace .empty
      currentProjections := (graphs.flatMap fun graph =>
        [currentRow (pidText sha256 graph) graph.metadata]).foldl .insertOrReplace .empty } := by
  have hrows := rowsIn_projectionStatements sha256
  have hflat : ∀ {ρ : Type} (pick : CpgStatement → Option ρ) (rowsOf : ThinCpg → List ρ),
      (∀ graph, (projectionStatements sha256 graph).filterMap pick = rowsOf graph) →
      (graphs.flatMap (projectionStatements sha256)).filterMap pick = graphs.flatMap rowsOf := by
    intro ρ pick rowsOf hpick
    rw [filterMap_flatMap]
    simp only [hpick]
  rw [tablesOf, foldl_execute, projectionRowsIn, nodeRowsIn, edgeRowsIn, supportRowsIn,
    bindingRowsIn, argumentRowsIn, currentRowsIn, hflat _ _ fun g => (hrows g).1,
    hflat _ _ fun g => (hrows g).2.1, hflat _ _ fun g => (hrows g).2.2.1,
    hflat _ _ fun g => (hrows g).2.2.2.1, hflat _ _ fun g => (hrows g).2.2.2.2.1,
    hflat _ _ fun g => (hrows g).2.2.2.2.2.1, hflat _ _ fun g => (hrows g).2.2.2.2.2.2]
  rfl

theorem foldl_flatMap_singleton {α ρ κ : Type} [DecidableEq κ] {key : ρ → κ} (f : α → ρ) (l : List α)
    (table : KeyedTable ρ key) : (l.flatMap fun a => [f a]).foldl .insertOrReplace table =
      l.foldl (fun table a => table.insertOrReplace (f a)) table := by
  rw [← map_eq_flatMap, foldl_map]

/-- The row of a projection is that of the last graph staged under it. -/
theorem Distinct.find_projection (h : Distinct sha256 graphs) (hgraph : graph ∈ graphs) :
    ∃ graph' ∈ graphs, graph.SameContent graph' ∧
      (tablesOf sha256 graphs).projections.find? (bindText (pidText sha256 graph)) =
        some (projectionRow (pidText sha256 graph') graph'.metadata) := by
  have hfold : (tablesOf sha256 graphs).projections = graphs.foldl (fun table g =>
      table.insertOrReplace (projectionRow (pidText sha256 g) g.metadata)) .empty := by
    rw [tablesOf_eq]
    exact foldl_flatMap_singleton _ _ _
  obtain ⟨graph', hfind, hmem, hpid⟩ := Ordered.exists_find? (p := fun g =>
    (projectionRow (pidText sha256 g) g.metadata).projectionId = bindText (pidText sha256 graph))
    (mem_reverse.mpr hgraph) rfl
  rw [mem_reverse] at hmem
  rw [projectionRow, h.bindText_pidText, h.bindText_pidText] at hpid
  refine ⟨graph', hmem, h.sameContent hgraph hmem hpid.symm, ?_⟩
  rw [hfold, KeyedTable.find?_foldl_insertOrReplace, hfind]
  rfl

/-- Rows in groups, one group for a member of the graph, keyed by the projection and the member's
id. -/
theorem Distinct.rowsOf {α ρ κ : Type} (h : Distinct sha256 graphs) {members : ThinCpg → List α}
    {idOf : α → StableId} {r : String → α → List ρ} {key : ρ → κ} {g : κ → String × String}
    (hids : ∀ graph, ((members graph).map idOf).Nodup)
    (hmade : ∀ graph ∈ graphs, ∀ a ∈ members graph, bindText (idOf a).toString = (idOf a).toString)
    (hsame : ∀ graph ∈ graphs, ∀ graph', graph.SameContent graph' → members graph ⊆ members graph')
    (hnodup : ∀ graph, ∀ a ∈ members graph, ∀ pid, ((r pid a).map key).Nodup)
    (hgroup : ∀ pid a, ∀ row ∈ r pid a, g (key row) = (bindText pid, bindText (idOf a).toString)) :
    RowsOf sha256 graphs key (fun row => (g (key row)).1) fun graph =>
      (members graph).flatMap (r (pidText sha256 graph)) where
  keyed a b hkey := by rw [hkey]
  pid graph _ row hrow := by
    obtain ⟨a, -, hrow⟩ := mem_flatMap.mp hrow
    rw [hgroup _ a row hrow, h.bindText_pidText]
  nodup graph hgraph := by
    rw [map_flatMap, nodup_flatMap]
    refine ⟨fun a ha => hnodup graph a ha _,
      List.Pairwise.imp_of_mem ?_ (pairwise_map.mp (hids graph))⟩
    intro a b ha hb hne k hka hkb
    obtain ⟨row, hrow, rfl⟩ := mem_map.mp hka
    obtain ⟨row', hrow', heq⟩ := mem_map.mp hkb
    have hid := hgroup _ b row' hrow'
    rw [heq, hgroup _ a row hrow, hmade graph hgraph a ha, hmade graph hgraph b hb] at hid
    exact hne (StableId.toString_injective (Prod.mk.inj hid).2)
  same graph hgraph graph' _ hcontent hpid row hrow := by
    obtain ⟨a, ha, hrow⟩ := mem_flatMap.mp hrow
    rw [hpid] at hrow
    exact mem_flatMap.mpr ⟨a, hsame graph hgraph graph' hcontent ha, hrow⟩

section

variable (h : Staged sha256 graphs)
include h

theorem Staged.rowsOf_nodes :
    RowsOf sha256 graphs NodeRow.primaryKey NodeRow.projectionId fun graph =>
      graph.nodes.map (nodeRow (pidText sha256 graph)) := by
  simp only [map_eq_flatMap]
  refine h.toDistinct.rowsOf (r := fun pid node => [nodeRow pid node]) (g := id)
    (·.nodes_nodup) (fun graph hgraph node hnode => ?_) (fun _ _ _ hsame => hsame.nodes.subset)
    (fun _ _ _ _ => nodup_singleton _) fun _ _ row hrow => ?_
  · exact bindText_toString ((h.storable graph hgraph).nodeIds node hnode)
  · rw [mem_singleton.mp hrow]
    rfl

theorem Staged.rowsOf_edges :
    RowsOf sha256 graphs EdgeRow.primaryKey EdgeRow.projectionId fun graph =>
      graph.edges.map (edgeRow (pidText sha256 graph)) := by
  simp only [map_eq_flatMap]
  refine h.toDistinct.rowsOf (r := fun pid edge => [edgeRow pid edge]) (g := id)
    (·.edges_nodup) (fun graph hgraph edge hedge => ?_) (fun _ _ _ hsame => hsame.edges.subset)
    (fun _ _ _ _ => nodup_singleton _) fun _ _ row hrow => ?_
  · exact bindText_toString ((h.storable graph hgraph).edgeIds edge hedge).1
  · rw [mem_singleton.mp hrow]
    rfl

omit h in
theorem pairwise_position (pid : String) (edge : CpgEdge) :
    (edgeSupportRows pid edge).Pairwise fun a b => a.position < b.position := by
  rw [edgeSupportRows, pairwise_map]
  have hpositions : (edge.support.zipIdx.map Prod.snd).Pairwise (· < ·) := by
    rw [zipIdx_map_snd]
    exact pairwise_lt_range'
  exact (pairwise_map.mp hpositions).imp fun hlt => Int.ofNat_lt.mpr hlt

theorem Staged.rowsOf_edgeSupport :
    RowsOf sha256 graphs EdgeSupportRow.primaryKey EdgeSupportRow.projectionId fun graph =>
      graph.edges.flatMap (edgeSupportRows (pidText sha256 graph)) := by
  refine h.toDistinct.rowsOf (g := fun key : String × String × ℤ => (key.1, key.2.1)) (·.edges_nodup)
    (fun graph hgraph edge hedge => ?_) (fun _ _ _ hsame => hsame.edges.subset)
    (fun _ edge _ pid => ?_) fun _ _ row hrow => ?_
  · exact bindText_toString ((h.storable graph hgraph).edgeIds edge hedge).1
  · refine pairwise_map.mpr ((pairwise_position pid edge).imp fun hlt hkey => hlt.ne ?_)
    exact congrArg (·.2.2) hkey
  · obtain ⟨support, -, rfl⟩ := mem_map.mp hrow
    rfl

/-- A graph without compiler ownership has no calls, so the calls agree in either case. -/
theorem Staged.mem_callsites (hgraph : graph ∈ graphs)
    (hsame : graph.SameContent graph') (hbinding : binding ∈ graph.callsites) :
    binding ∈ graph'.callsites := by
  by_cases howned : graph.hasCompilerOwnership
  · exact (hsame.callsites howned).mem_iff.mp hbinding
  · rw [(h.valid graph hgraph).legacy howned] at hbinding
    exact absurd hbinding not_mem_nil

theorem Staged.rowsOf_callsiteBindings :
    RowsOf sha256 graphs CallsiteBindingRow.primaryKey CallsiteBindingRow.projectionId fun graph =>
      graph.callsites.map (bindingRow (pidText sha256 graph)) := by
  simp only [map_eq_flatMap]
  refine h.toDistinct.rowsOf (r := fun pid binding => [bindingRow pid binding]) (g := id)
    (·.callsites_nodup) (fun graph hgraph binding hbinding => ?_)
    (fun _ hgraph _ hsame _ => h.mem_callsites hgraph hsame)
    (fun _ _ _ _ => nodup_singleton _) fun _ _ row hrow => ?_
  · exact bindText_toString ((h.storable graph hgraph).callsiteIds binding hbinding).1
  · rw [mem_singleton.mp hrow]
    rfl

omit h in
theorem pairwise_argumentIndex (pid : String) (haccepted : binding.Accepted) :
    (argumentRows pid binding).Pairwise fun a b => a.argumentIndex < b.argumentIndex := by
  rw [argumentRows, pairwise_map]
  have hindices : (binding.arguments.map CallSiteArgument.index).Pairwise (· < ·) := by
    rw [haccepted.map_index_arguments]
    exact pairwise_lt_range
  exact (pairwise_map.mp hindices).imp fun hlt => Int.ofNat_lt.mpr hlt

theorem Staged.rowsOf_callsiteArguments :
    RowsOf sha256 graphs CallsiteArgumentRow.primaryKey CallsiteArgumentRow.projectionId
      fun graph => graph.callsites.flatMap (argumentRows (pidText sha256 graph)) := by
  refine h.toDistinct.rowsOf (g := fun key : String × String × ℤ => (key.1, key.2.1))
    (·.callsites_nodup) (fun graph hgraph binding hbinding => ?_)
    (fun _ hgraph _ hsame _ => h.mem_callsites hgraph hsame)
    (fun graph binding hbinding pid => ?_) fun _ _ row hrow => ?_
  · exact bindText_toString ((h.storable graph hgraph).callsiteIds binding hbinding).1
  · have hindices := pairwise_argumentIndex pid (graph.callsites_accepted _ hbinding)
    refine pairwise_map.mpr (hindices.imp fun hlt hkey => hlt.ne ?_)
    exact congrArg (·.2.2) hkey
  · obtain ⟨argument, -, rfl⟩ := mem_map.mp hrow
    rfl

end

end Tables

end Veritas.Cpg

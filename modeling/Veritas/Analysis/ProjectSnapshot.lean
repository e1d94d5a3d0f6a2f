import Veritas.Analysis.ProjectPublicationCoordinator

/-! When the current summaries of a revision and build variant are those of its current graph. -/
namespace Veritas.Analysis

open Cpg Summary SummaryDb StatusOr List MetadataTables

/-- The summary ids bound for a revision and build variant. -/
def boundSummaryIds (tables : MetadataTables) (revisionId buildVariantId : String) : List String :=
  (tables.summaries.summaryBindings.rows.filter fun row => row.revisionId = revisionId ∧
    row.buildVariantId = buildVariantId ∧ row.isCurrent = 1).map SummaryBindingRow.summaryId

/-- Every current projection is stored, and its summaries are the bound ones. -/
def Snapshot (tables : MetadataTables) : Prop :=
  ∀ row ∈ tables.cpg.currentProjections.rows, ∃ projection,
    tables.cpg.projections.find? row.projectionId = some projection ∧
    ∀ text, text ∈ boundSummaryIds tables row.revisionId row.buildVariantId ↔
      text ∈ (splitIds projection.summaryIds).map StableId.toString

/-- The revision and build variant of a graph, as the tables hold them. -/
def pairOf (graph : Cpg.ThinCpg) : String × String :=
  (bindText graph.metadata.revisionId.toString, bindText graph.metadata.buildVariantId.toString)

def functionText (artifact : SummaryArtifact) : String :=
  bindText artifact.identity.functionVariantId

def idText (codec : SummaryCodec) (artifact : SummaryArtifact) : String :=
  bindText (summaryIdOf codec artifact).toString

/-- The summary that is bound for a function when a call with these artifacts is done. -/
def lastOf (artifacts : List SummaryArtifact) (function : String) : Option SummaryArtifact :=
  artifacts.reverse.find? (functionText · = function)

/-- Of the summaries bound for the pair those of functions that are not published again are among
the published ones, and each published one stays bound. -/
structure Replaces (codec : SummaryCodec) (tables : MetadataTables)
    (completed : CompletedProjectAnalysis) : Prop where
  leftOver : ∀ row ∈ tables.summaries.summaryBindings.rows,
    (row.revisionId, row.buildVariantId) = pairOf completed.graph → row.isCurrent = 1 →
    lastOf completed.artifacts row.functionVariantId = none →
      ∃ artifact ∈ completed.artifacts, idText codec artifact = row.summaryId
  kept : ∀ artifact ∈ completed.artifacts,
    (∃ function last, lastOf completed.artifacts function = some last ∧
      idText codec last = idText codec artifact) ∨
    ∃ row ∈ tables.summaries.summaryBindings.rows,
      (row.revisionId, row.buildVariantId) = pairOf completed.graph ∧ row.isCurrent = 1 ∧
      lastOf completed.artifacts row.functionVariantId = none ∧
      row.summaryId = idText codec artifact

structure PublishAttempt where
  failures : Failures
  completed : CompletedProjectAnalysis

def publishAll (codec : SummaryCodec) (attempts : List PublishAttempt) : ProjectStore :=
  attempts.foldl (fun store attempt =>
    (publish codec attempt.failures store attempt.completed).1) .empty

def Succeeds (codec : SummaryCodec) (store : ProjectStore) (attempt : PublishAttempt) : Prop :=
  ∃ ids, (publish codec attempt.failures store attempt.completed).2 = .ok ids

section Publish

variable {codec : SummaryCodec} {store : ProjectStore} {attempt : PublishAttempt}
  {completed : CompletedProjectAnalysis} {tables tables' : MetadataTables}

variable {statements : List MetadataStatement} {artifacts : List SummaryArtifact}
  {pair : String × String} {text : String} {graphs : List Cpg.ThinCpg}
  {attempts : List PublishAttempt}

theorem executeAll_eq_ok {failsAt : Option ℕ}
    (h : executeAll tables failsAt statements = .ok tables') :
    tables' = statements.foldl execute tables := by
  induction statements generalizing tables failsAt with
  | nil =>
    cases failsAt <;> exact (pure_eq_ok.mp h).symm
  | cons statement statements ih =>
    rcases failsAt with _ | _ | n
    · exact ih h
    · exact absurd h throw_ne_ok
    · exact ih h

/-- A call that fails leaves the tables as they were. -/
theorem metadataStore_of_not_succeeds (h : ¬ Succeeds codec store attempt) :
    (publish codec attempt.failures store attempt.completed).1.metadataStore =
      store.metadataStore := by
  unfold Succeeds at h
  revert h
  unfold publish
  split
  · exact fun _ => rfl
  · split
    · exact fun _ => rfl
    · split
      · exact fun _ => rfl
      · exact fun h => absurd ⟨_, rfl⟩ h

/-- What a successful call did. -/
structure Published (codec : SummaryCodec) (tables tables' : MetadataTables)
    (completed : CompletedProjectAnalysis) : Prop where
  valid : completed.graph.Valid
  summaryIds : (completed.artifacts.map (summaryIdOf codec)).Perm
    completed.graph.metadata.summaryIds
  bindings : tables'.summaries.summaryBindings = completed.artifacts.foldl (fun table artifact =>
    table.insertOrReplace ((entryOf codec artifact).bindingRow artifact.identity.functionVariantId
      completed.graph.metadata.revisionId.toString
      completed.graph.metadata.buildVariantId.toString)) tables.summaries.summaryBindings
  cpg : tables'.cpg =
    (projectionStatements codec.sha256 completed.graph).foldl CpgTables.execute tables.cpg

theorem mapM_prepareArtifactMetadata {entries : List PreparedArtifact}
    (h : artifacts.mapM (prepareArtifactMetadata codec) = .ok entries) :
    entries = artifacts.map (entryOf codec) := by
  have hpairs := mapM_eq_ok.mp h
  rw [← forall₂_eq_eq_eq, forall₂_map_right_iff]
  exact (hpairs.imp fun _ _ => prepareArtifactMetadata_eq_ok).flip

theorem mapM_computeFunctionSummaryId {ids : List StableId}
    (h : artifacts.mapM codec.computeFunctionSummaryId = .ok ids) :
    ids = artifacts.map (summaryIdOf codec) := by
  have hid : ∀ artifact id, codec.computeFunctionSummaryId artifact = .ok id →
      id = summaryIdOf codec artifact := by
    intro artifact id hid
    have hentry : prepareArtifactMetadata codec artifact = .ok ⟨id, id.toString,
        artifact.schemaVersion, artifact.identity.functionVariantId⟩ :=
      bind_eq_ok.mpr ⟨id, hid, rfl⟩
    exact congrArg PreparedArtifact.id (prepareArtifactMetadata_eq_ok hentry)
  have hpairs := mapM_eq_ok.mp h
  rw [← forall₂_eq_eq_eq, forall₂_map_right_iff]
  exact (hpairs.imp fun artifact id => hid artifact id).flip

theorem foldl_cpg (statements : List CpgStatement) (tables : MetadataTables) :
    (statements.map MetadataStatement.cpg).foldl execute tables =
      { tables with cpg := statements.foldl CpgTables.execute tables.cpg } := by
  induction statements generalizing tables with
  | nil => rfl
  | cons statement statements ih => exact ih _

theorem foldl_summaries (entries : List PreparedArtifact) (revisionId buildVariantId : String)
    (tables : MetadataTables) :
    ((entries.flatMap fun entry => [MetadataStatement.insertSummaryObject entry,
        .insertSummaryBinding entry revisionId buildVariantId]).foldl execute
      tables).cpg = tables.cpg ∧
    ((entries.flatMap fun entry => [MetadataStatement.insertSummaryObject entry,
        .insertSummaryBinding entry revisionId buildVariantId]).foldl execute
      tables).summaries.summaryBindings =
      entries.foldl (fun table entry => table.insertOrReplace
        (entry.bindingRow entry.functionVariantId revisionId buildVariantId))
        tables.summaries.summaryBindings := by
  induction entries generalizing tables with
  | nil => exact ⟨rfl, rfl⟩
  | cons entry entries ih => exact ih _

theorem published_of_statements (hcheck : checkCompleted codec completed = .ok ())
    (h : publicationStatements codec completed = .ok statements) :
    Published codec tables (statements.foldl execute tables) completed := by
  obtain ⟨hvalid, hids⟩ := bind_unit_eq_ok.mp hcheck
  obtain ⟨actual, hactual, hsorted⟩ := bind_eq_ok.mp hids
  have hsorted := not_not.mp (throwIf_eq_ok.mp hsorted)
  rw [mapM_computeFunctionSummaryId hactual] at hsorted
  obtain ⟨summaries, hsummaries, h⟩ := bind_eq_ok.mp h
  obtain ⟨entries, hentries, hsummaries⟩ := bind_eq_ok.mp hsummaries
  obtain ⟨-, h⟩ := bind_unit_eq_ok.mp h
  cases pure_eq_ok.mp hsummaries
  cases pure_eq_ok.mp h
  rw [mapM_prepareArtifactMetadata hentries]
  have hfold := foldl_summaries (completed.artifacts.map (entryOf codec))
    completed.graph.metadata.revisionId.toString completed.graph.metadata.buildVariantId.toString
    tables
  refine ⟨ThinCpg.validate_eq_ok.mp hvalid, ?_, ?_, ?_⟩
  · exact (perm_insertionSort _ _).symm.trans ((Perm.of_eq hsorted).trans (perm_insertionSort _ _))
  · rw [foldl_append, foldl_append, foldl_cpg]
    refine hfold.2.trans ?_
    rw [foldl_map]
    rfl
  · rw [foldl_append, foldl_append, foldl_cpg]
    exact congrArg (List.foldl CpgTables.execute · _) hfold.1

theorem published_of_succeeds (h : Succeeds codec store attempt) :
    Published codec store.metadataStore
      (publish codec attempt.failures store attempt.completed).1.metadataStore
      attempt.completed := by
  obtain ⟨ids, h⟩ := h
  revert h
  unfold publish
  split
  · exact fun h => absurd h throw_ne_ok
  · rename_i hcheck
    split
    · exact fun h => absurd h throw_ne_ok
    · split
      · exact fun h => absurd h throw_ne_ok
      · rename_i hrun
        intro _
        obtain ⟨statements, hstatements, hrun⟩ := bind_eq_ok.mp hrun
        rw [executeAll_eq_ok hrun]
        exact published_of_statements hcheck hstatements

/-- The row that a call binds for an artifact. -/
def publishedRow (codec : SummaryCodec) (graph : Cpg.ThinCpg) (artifact : SummaryArtifact) :
    SummaryBindingRow :=
  ⟨functionText artifact, (pairOf graph).1, (pairOf graph).2, idText codec artifact, 1⟩

def pairOfRow (row : SummaryBindingRow) : String × String := (row.revisionId, row.buildVariantId)

/-- The last published artifact whose row takes a row's key. -/
theorem find?_artifact {row : SummaryBindingRow} :
    completed.artifacts.reverse.find? (fun artifact =>
      ((entryOf codec artifact).bindingRow artifact.identity.functionVariantId
        completed.graph.metadata.revisionId.toString
        completed.graph.metadata.buildVariantId.toString).primaryKey = row.primaryKey) =
      if pairOfRow row = pairOf completed.graph then lastOf completed.artifacts row.functionVariantId
      else none := by
  split_ifs with hpair
  · refine find?_congr fun artifact _ => decide_eq_decide.mpr ?_
    have hrow := Prod.mk.inj hpair
    simp [SummaryBindingRow.primaryKey, PreparedArtifact.bindingRow, hrow.1, hrow.2, functionText]
  · rw [find?_eq_none]
    intro artifact _ hkey
    have hkey := (Prod.mk.inj (of_decide_eq_true hkey)).2
    exact hpair hkey.symm

theorem mem_bindings_iff (h : Published codec tables tables' completed) {row : SummaryBindingRow} :
    row ∈ tables'.summaries.summaryBindings.rows ↔
      (pairOfRow row = pairOf completed.graph ∧
        ∃ last, lastOf completed.artifacts row.functionVariantId = some last ∧
          row = publishedRow codec completed.graph last) ∨
      row ∈ tables.summaries.summaryBindings.rows ∧
        (pairOfRow row = pairOf completed.graph →
          lastOf completed.artifacts row.functionVariantId = none) := by
  have hself : row ∈ tables'.summaries.summaryBindings.rows ↔
      tables'.summaries.summaryBindings.find? row.primaryKey = some row := by
    rw [KeyedTable.find?_eq_some]
    exact ⟨fun hrow => ⟨hrow, rfl⟩, fun hrow => hrow.1⟩
  have hold : tables.summaries.summaryBindings.find? row.primaryKey = some row ↔
      row ∈ tables.summaries.summaryBindings.rows := by
    rw [KeyedTable.find?_eq_some]
    exact ⟨fun hrow => hrow.1, fun hrow => ⟨hrow, rfl⟩⟩
  rw [hself, h.bindings, KeyedTable.find?_foldl_insertOrReplace, find?_artifact]
  by_cases hpair : pairOfRow row = pairOf completed.graph
  · rw [if_pos hpair]
    cases hfound : lastOf completed.artifacts row.functionVariantId with
    | none =>
      rw [Option.map_none, Option.none_or, hold]
      simp
    | some last =>
      rw [Option.map_some, Option.some_or, Option.some.injEq]
      constructor
      · intro hrow
        exact .inl ⟨hpair, last, rfl, hrow.symm⟩
      · rintro (⟨-, last', hlast', hrow⟩ | ⟨-, hnone⟩)
        · cases hlast'
          exact hrow.symm
        · cases hnone hpair
  · rw [if_neg hpair, Option.map_none, Option.none_or, hold]
    simp [hpair]

theorem mem_boundSummaryIds :
    text ∈ boundSummaryIds tables pair.1 pair.2 ↔
      ∃ row ∈ tables.summaries.summaryBindings.rows, pairOfRow row = pair ∧ row.isCurrent = 1 ∧
        row.summaryId = text := by
  cases pair
  simp only [boundSummaryIds, mem_map, mem_filter, decide_eq_true_eq, pairOfRow,
    Prod.mk.injEq, and_assoc]

/-- Another revision or build variant keeps its bindings. -/
theorem boundSummaryIds_of_ne (h : Published codec tables tables' completed)
    (hne : pair ≠ pairOf completed.graph) :
    text ∈ boundSummaryIds tables' pair.1 pair.2 ↔ text ∈ boundSummaryIds tables pair.1 pair.2 := by
  rw [mem_boundSummaryIds, mem_boundSummaryIds]
  refine exists_congr fun row => ?_
  rw [mem_bindings_iff h]
  constructor
  · rintro ⟨⟨hpair, -⟩ | ⟨hrow, -⟩, hrest⟩
    · exact absurd (hrest.1.symm.trans hpair) hne
    · exact ⟨hrow, hrest⟩
  · rintro ⟨hrow, hrest⟩
    exact ⟨.inr ⟨hrow, fun hpair => absurd (hrest.1.symm.trans hpair) hne⟩, hrest⟩

/-- The bindings of the published pair are its graph's summaries when the call replaces them. -/
theorem agrees_iff_replaces (h : Published codec tables tables' completed)
    (hsha : ∀ bytes, IsDigestHex (codec.sha256 bytes)) :
    (∀ text, text ∈ boundSummaryIds tables' (pairOf completed.graph).1 (pairOf completed.graph).2 ↔
      text ∈ completed.graph.metadata.summaryIds.map StableId.toString) ↔
      Replaces codec tables completed := by
  have hids : ∀ text, text ∈ completed.graph.metadata.summaryIds.map StableId.toString ↔
      ∃ artifact ∈ completed.artifacts, idText codec artifact = text := by
    intro text
    rw [← (h.summaryIds.map _).mem_iff, map_map, mem_map]
    simp only [Function.comp_apply, idText, bindText_summaryIdOf hsha]
  have hmem : ∀ function last, lastOf completed.artifacts function = some last →
      last ∈ completed.artifacts ∧ functionText last = function := fun function last hlast =>
    (Ordered.of_find? hlast).imp_left mem_reverse.mp
  have hbound : ∀ text,
      text ∈ boundSummaryIds tables' (pairOf completed.graph).1 (pairOf completed.graph).2 ↔
        (∃ function last, lastOf completed.artifacts function = some last ∧
          idText codec last = text) ∨
        ∃ row ∈ tables.summaries.summaryBindings.rows, pairOfRow row = pairOf completed.graph ∧
          row.isCurrent = 1 ∧ lastOf completed.artifacts row.functionVariantId = none ∧
          row.summaryId = text := by
    intro text
    rw [mem_boundSummaryIds]
    constructor
    · rintro ⟨row, hrow, hpair, hcurrent, rfl⟩
      rcases (mem_bindings_iff h).mp hrow with ⟨-, last, hlast, hrow⟩ | ⟨hrow, hnone⟩
      · exact .inl ⟨_, last, hlast, (congrArg SummaryBindingRow.summaryId hrow).symm⟩
      · exact .inr ⟨row, hrow, hpair, hcurrent, hnone hpair, rfl⟩
    · rintro (⟨function, last, hlast, rfl⟩ | ⟨row, hrow, hpair, hcurrent, hnone, rfl⟩)
      · have hfunction := (hmem function last hlast).2
        refine ⟨publishedRow codec completed.graph last,
          (mem_bindings_iff h).mpr (.inl ⟨rfl, last, ?_, rfl⟩), rfl, rfl, rfl⟩
        rw [publishedRow, hfunction]
        exact hlast
      · exact ⟨row, (mem_bindings_iff h).mpr (.inr ⟨hrow, fun _ => hnone⟩), hpair, hcurrent, rfl⟩
  simp only [hids, hbound]
  constructor
  · intro hagree
    refine ⟨fun row hrow hpair hcurrent hnone => ?_, fun artifact hartifact => ?_⟩
    · exact (hagree row.summaryId).mp (.inr ⟨row, hrow, hpair, hcurrent, hnone, rfl⟩)
    · exact (hagree (idText codec artifact)).mpr ⟨artifact, hartifact, rfl⟩
  · intro hreplaces text
    constructor
    · rintro (⟨function, last, hlast, rfl⟩ | ⟨row, hrow, hpair, hcurrent, hnone, rfl⟩)
      · exact ⟨last, (hmem function last hlast).1, rfl⟩
      · exact hreplaces.leftOver row hrow hpair hcurrent hnone
    · rintro ⟨artifact, hartifact, rfl⟩
      exact hreplaces.kept artifact hartifact

/-- The graph tables hold these graphs, whose summary ids were made from digests. -/
structure HoldsGraphs (codec : SummaryCodec) (graphs : List Cpg.ThinCpg) (tables : MetadataTables) :
    Prop where
  distinct : Distinct codec.sha256 graphs
  made : ∀ graph ∈ graphs, ∀ id ∈ graph.metadata.summaryIds, Made id
  cpg : tables.cpg = tablesOf codec.sha256 graphs

def currentGraph (graphs : List Cpg.ThinCpg) (pair : String × String) : Option Cpg.ThinCpg :=
  graphs.reverse.find? (pairOf · = pair)

theorem currentGraph_eq_some {graph : Cpg.ThinCpg} (h : currentGraph graphs pair = some graph) :
    graph ∈ graphs ∧ pairOf graph = pair :=
  ⟨List.mem_reverse.mp (List.mem_of_find?_eq_some h), of_decide_eq_true (List.find?_some h :)⟩

section

variable (h : HoldsGraphs codec graphs tables)
include h

theorem mem_currentProjections_iff
    {row : CurrentProjectionRow} :
    row ∈ tables.cpg.currentProjections.rows ↔
      ∃ graph, currentGraph graphs (row.revisionId, row.buildVariantId) = some graph ∧
        row = Cpg.currentRow (pidText codec.sha256 graph) graph.metadata := by
  have hfold : tables.cpg.currentProjections = graphs.foldl (fun table graph =>
      table.insertOrReplace (Cpg.currentRow (pidText codec.sha256 graph) graph.metadata)) .empty := by
    rw [h.cpg, tablesOf_eq]
    exact foldl_flatMap_singleton _ _ _
  have hself : row ∈ tables.cpg.currentProjections.rows ↔
      tables.cpg.currentProjections.find? row.primaryKey = some row := by
    rw [KeyedTable.find?_eq_some]
    exact ⟨fun hrow => ⟨hrow, rfl⟩, fun hrow => hrow.1⟩
  have hlast : (graphs.foldl (fun table graph => table.insertOrReplace
      (Cpg.currentRow (pidText codec.sha256 graph) graph.metadata))
        (.empty : KeyedTable CurrentProjectionRow CurrentProjectionRow.primaryKey)).find?
          row.primaryKey = (currentGraph graphs (row.revisionId, row.buildVariantId)).map
            fun graph => Cpg.currentRow (pidText codec.sha256 graph) graph.metadata :=
    (KeyedTable.find?_foldl_insertOrReplace _ _ _ _).trans Option.or_none
  rw [hself, hfold, hlast, Option.map_eq_some_iff]
  exact exists_congr fun graph => and_congr_right fun _ => eq_comm

/-- A snapshot, in terms of the graphs that were published. -/
theorem snapshot_iff :
    Snapshot tables ↔ ∀ pair graph, currentGraph graphs pair = some graph →
      ∀ text, text ∈ boundSummaryIds tables pair.1 pair.2 ↔
        text ∈ graph.metadata.summaryIds.map StableId.toString := by
  have hprojection : ∀ graph ∈ graphs, ∃ projection,
      tables.cpg.projections.find? (bindText (pidText codec.sha256 graph)) = some projection ∧
      ∀ text, text ∈ (splitIds projection.summaryIds).map StableId.toString ↔
        text ∈ graph.metadata.summaryIds.map StableId.toString := by
    intro graph hgraph
    obtain ⟨staged, hstaged, hsame, hfind⟩ := h.distinct.find_projection hgraph
    refine ⟨_, h.cpg ▸ hfind, fun text => ?_⟩
    have hids : splitIds (projectionRow (pidText codec.sha256 staged) staged.metadata).summaryIds =
        staged.metadata.summaryIds := by
      rw [projectionRow, bindText_of_nulFree (nulFree_joinIds (h.made staged hstaged)),
        splitIds_joinIds (h.made staged hstaged)]
    rw [hids]
    exact (hsame.summaryIds.map _).mem_iff.symm
  constructor
  · intro hsnapshot pair graph hgraph text
    obtain ⟨hmem, rfl⟩ := currentGraph_eq_some hgraph
    have hrow : Cpg.currentRow (pidText codec.sha256 graph) graph.metadata ∈
        tables.cpg.currentProjections.rows :=
      (mem_currentProjections_iff h).mpr ⟨graph, hgraph, rfl⟩
    obtain ⟨projection, hfind, hagree⟩ := hsnapshot _ hrow
    obtain ⟨projection', hfind', hids⟩ := hprojection graph hmem
    cases Option.some.inj (hfind.symm.trans hfind')
    exact (hagree text).trans (hids text)
  · intro hagree row hrow
    obtain ⟨graph, hgraph, hrowOf⟩ := (mem_currentProjections_iff h).mp hrow
    obtain ⟨hmem, -⟩ := currentGraph_eq_some hgraph
    obtain ⟨projection, hfind, hids⟩ := hprojection graph hmem
    have hpid : row.projectionId = bindText (pidText codec.sha256 graph) := by rw [hrowOf]; rfl
    refine ⟨projection, hpid ▸ hfind, fun text => ?_⟩
    exact (hagree _ graph hgraph text).trans (hids text).symm

omit h in
theorem currentGraph_append (graphs : List Cpg.ThinCpg) (graph : Cpg.ThinCpg)
    (pair : String × String) :
    currentGraph (graphs ++ [graph]) pair =
      if pairOf graph = pair then some graph else currentGraph graphs pair := by
  unfold currentGraph
  by_cases hpair : pairOf graph = pair
  · simp [hpair]
  · simp [hpair]

theorem holdsGraphs_published
    (hpublished : Published codec tables tables' completed) (hcollision : ∀ graph ∈ graphs,
      graph.projectionId codec.sha256 = completed.graph.projectionId codec.sha256 →
        graph.canonicalBytes = completed.graph.canonicalBytes) :
    HoldsGraphs codec (graphs ++ [completed.graph]) tables' where
  distinct :=
    { digest := h.distinct.digest
      valid := by
        intro graph hgraph
        rcases mem_append.mp hgraph with hgraph | hgraph
        · exact h.distinct.valid graph hgraph
        · rw [mem_singleton.mp hgraph]
          exact hpublished.valid
      collisionFree := by
        intro graph hgraph graph' hgraph' hid
        rcases mem_append.mp hgraph with hgraph | hgraph
        · rcases mem_append.mp hgraph' with hgraph' | hgraph'
          · exact h.distinct.collisionFree graph hgraph graph' hgraph' hid
          · rw [mem_singleton.mp hgraph'] at hid ⊢
            exact hcollision graph hgraph hid
        · rw [mem_singleton.mp hgraph] at hid ⊢
          rcases mem_append.mp hgraph' with hgraph' | hgraph'
          · exact (hcollision graph' hgraph' hid.symm).symm
          · rw [mem_singleton.mp hgraph'] }
  made := by
    intro graph hgraph id hid
    rcases mem_append.mp hgraph with hgraph | hgraph
    · exact h.made graph hgraph id hid
    · rw [mem_singleton.mp hgraph, ← hpublished.summaryIds.mem_iff] at hid
      obtain ⟨artifact, -, rfl⟩ := mem_map.mp hid
      exact h.distinct.digest _
  cpg := by
    rw [hpublished.cpg, h.cpg, tablesOf, tablesOf, flatMap_append, foldl_append, flatMap_singleton]

/-- A successful call keeps the snapshot just when it replaces what was bound for its pair. -/
theorem snapshot_published (hpublished : Published codec tables tables' completed)
    (h' : HoldsGraphs codec (graphs ++ [completed.graph]) tables') (hsnapshot : Snapshot tables) :
    Snapshot tables' ↔ Replaces codec tables completed := by
  rw [← agrees_iff_replaces hpublished h.distinct.digest, snapshot_iff h']
  rw [snapshot_iff h] at hsnapshot
  constructor
  · intro hall
    refine hall (pairOf completed.graph) completed.graph ?_
    rw [currentGraph_append, if_pos rfl]
  · intro hagree pair graph hgraph
    rw [currentGraph_append] at hgraph
    by_cases hpair : pairOf completed.graph = pair
    · rw [if_pos hpair] at hgraph
      cases hgraph
      rw [← hpair]
      exact hagree
    · rw [if_neg hpair] at hgraph
      intro text
      rw [boundSummaryIds_of_ne hpublished (Ne.symm hpair)]
      exact hsnapshot pair graph hgraph text

end

theorem publishAll_append (attempts : List PublishAttempt) (attempt : PublishAttempt) :
    publishAll codec (attempts ++ [attempt]) =
      (publish codec attempt.failures (publishAll codec attempts) attempt.completed).1 := by
  rw [publishAll, foldl_append]
  rfl

theorem snapshot_empty : Snapshot ProjectStore.empty.metadataStore := by
  intro row hrow
  exact absurd hrow not_mem_nil

/-- The graphs that the successful calls of a run left in the tables. -/
theorem holdsGraphs_run (hsha : ∀ bytes, IsDigestHex (codec.sha256 bytes))
    (hcollision : ∀ a ∈ attempts, ∀ b ∈ attempts,
      a.completed.graph.projectionId codec.sha256 = b.completed.graph.projectionId codec.sha256 →
        a.completed.graph.canonicalBytes = b.completed.graph.canonicalBytes) :
    ∃ graphs, HoldsGraphs codec graphs (publishAll codec attempts).metadataStore ∧
      ∀ graph ∈ graphs, ∃ a ∈ attempts, a.completed.graph = graph := by
  induction attempts using List.reverseRecOn with
  | nil =>
    exact ⟨[], ⟨⟨hsha, forall_mem_nil _, forall_mem_nil _⟩, forall_mem_nil _, rfl⟩,
      forall_mem_nil _⟩
  | append_singleton attempts attempt ih =>
    obtain ⟨graphs, hgraphs, hfrom⟩ := ih fun a ha b hb =>
      hcollision a (mem_append_left _ ha) b (mem_append_left _ hb)
    rw [publishAll_append]
    by_cases hok : Succeeds codec (publishAll codec attempts) attempt
    · refine ⟨graphs ++ [attempt.completed.graph], ?_, fun graph hgraph => ?_⟩
      · refine holdsGraphs_published hgraphs (published_of_succeeds hok) fun graph hgraph => ?_
        obtain ⟨a, ha, rfl⟩ := hfrom graph hgraph
        exact hcollision a (mem_append_left _ ha) attempt (by simp)
      · rcases mem_append.mp hgraph with hgraph | hgraph
        · obtain ⟨a, ha, rfl⟩ := hfrom graph hgraph
          exact ⟨a, mem_append_left _ ha, rfl⟩
        · exact ⟨attempt, by simp, (mem_singleton.mp hgraph).symm⟩
    · rw [metadataStore_of_not_succeeds hok]
      refine ⟨graphs, hgraphs, fun graph hgraph => ?_⟩
      obtain ⟨a, ha, rfl⟩ := hfrom graph hgraph
      exact ⟨a, mem_append_left _ ha, rfl⟩

/-- One more call keeps the snapshot unless it succeeds without replacing what was bound. -/
theorem snapshot_append (hsha : ∀ bytes, IsDigestHex (codec.sha256 bytes))
    (hcollision : ∀ a ∈ attempts ++ [attempt], ∀ b ∈ attempts ++ [attempt],
      a.completed.graph.projectionId codec.sha256 = b.completed.graph.projectionId codec.sha256 →
        a.completed.graph.canonicalBytes = b.completed.graph.canonicalBytes)
    (hsnapshot : Snapshot (publishAll codec attempts).metadataStore) :
    Snapshot (publishAll codec (attempts ++ [attempt])).metadataStore ↔
      (Succeeds codec (publishAll codec attempts) attempt →
        Replaces codec (publishAll codec attempts).metadataStore attempt.completed) := by
  obtain ⟨graphs, hgraphs, hfrom⟩ := holdsGraphs_run hsha fun a ha b hb =>
    hcollision a (mem_append_left _ ha) b (mem_append_left _ hb)
  rw [publishAll_append]
  by_cases hok : Succeeds codec (publishAll codec attempts) attempt
  · have hpublished := published_of_succeeds hok
    have hnext := holdsGraphs_published hgraphs hpublished fun graph hgraph => by
      obtain ⟨a, ha, rfl⟩ := hfrom graph hgraph
      exact hcollision a (mem_append_left _ ha) attempt (by simp)
    rw [snapshot_published hgraphs hpublished hnext hsnapshot]
    exact ⟨fun h _ => h, fun h => h hok⟩
  · rw [metadataStore_of_not_succeeds hok]
    exact ⟨fun _ h => absurd h hok, fun _ => hsnapshot⟩

end Publish

def loneSummary : V2.FunctionSummary where
  header := ⟨"summary.v2", 0⟩
  identity := ⟨"", "new", "debug", "f", ""⟩

def loneCodec : SummaryCodec :=
  { sampleCodec with
    serializeV2 := fun summary => if summary = loneSummary then some "1" else none
    parseV2 := fun bytes => if bytes = "1" then some loneSummary else none }

def summaryGraph (summaryIds : List StableId) : Cpg.ThinCpg :=
  .empty ⟨"veritas.cpg.v1", ⟨.revision, loneCodec.sha256 ""⟩, ⟨.buildVariant, loneCodec.sha256 ""⟩,
    "", summaryIds⟩

def withFunction : PublishAttempt :=
  ⟨⟨none, none⟩, [loneSummary], summaryGraph [summaryIdOf loneCodec (.v2 loneSummary)]⟩

def withoutFunction : PublishAttempt := ⟨⟨none, none⟩, [], summaryGraph []⟩

def staleRow : CurrentProjectionRow :=
  Cpg.currentRow (pidText loneCodec.sha256 withoutFunction.completed.graph)
    withoutFunction.completed.graph.metadata

end Veritas.Analysis

import Veritas.Evidence.ValueFlow

/-! When a value-flow slice that is marked complete holds every simple flow path. -/
namespace Veritas

open Ordered SimplePaths StatusOr List FactSelection

variable {cpg : ThinCpg} {src dst : StableId} {depth : ℕ} {path : FlowPath}

/-- A simple path of flow edges, of any length. -/
structure FlowTrail (cpg : ThinCpg) (src dst : StableId) (path : FlowPath) : Prop where
  walk : Walk (flowAdjacency cpg) src path.1 path.2 dst
  simple : path.1.Nodup
  edges : path.2 ≠ []

structure Covers (slice : FlowSlice) (path : FlowPath) : Prop where
  nodes : ∀ id ∈ path.1, ∃ node ∈ slice.nodes, node.nodeId = id
  edges : ∀ id ∈ path.2, ∃ edge ∈ slice.edges, edge.edgeId = id

theorem mem_flowAdjacency {node target edgeId : StableId} :
    (target, edgeId) ∈ flowAdjacency cpg node ↔ ∃ e ∈ cpg.edges, e.kind = .flowsTo ∧
      e.sourceNodeId = node ∧ e.targetNodeId = target ∧ e.edgeId = edgeId := by
  rw [flowAdjacency, mem_insertionSort, mem_map]
  simp only [mem_filter, decide_eq_true_eq, Prod.mk.injEq, and_assoc]

/-- The edges of a flow path are edges of the graph. -/
theorem FlowTrail.edge_declared (h : FlowTrail cpg src dst path) {id : StableId}
    (hid : id ∈ path.2) : ∃ edge ∈ cpg.edges, edge.edgeId = id := by
  cases path
  have hwalk := h.walk
  clear h
  dsimp only at hwalk hid
  induction hwalk with
  | nil => exact absurd hid not_mem_nil
  | cons hstep _ ih =>
    rcases mem_cons.mp hid with rfl | hid
    · obtain ⟨edge, hedge, -, -, -, rfl⟩ := mem_flowAdjacency.mp hstep
      exact ⟨edge, hedge, rfl⟩
    · exact ih hid

theorem mem_enumeratePaths :
    path ∈ enumeratePaths cpg src dst depth ↔
      FlowTrail cpg src dst path ∧ path.2.length ≤ depth := by
  by_cases heq : src = dst
  · subst heq
    rw [enumeratePaths, if_pos rfl]
    constructor
    · exact fun h => absurd h not_mem_nil
    · rintro ⟨⟨hwalk, hsimple, hedges⟩, -⟩
      -- a path back to its start repeats it
      obtain ⟨nodes, edges⟩ := path
      cases hwalk with
      | nil => exact absurd rfl hedges
      | cons hstep hrest => exact absurd hrest.target_mem (nodup_cons.mp hsimple).1
  · rw [enumeratePaths, if_neg heq, mem_search (nodup_singleton src) (by simp)]
    constructor
    · rintro ⟨nodes, edges, hwalk, hsimple, hlen, rfl⟩
      refine ⟨⟨hwalk, hsimple, ?_⟩, by simpa using hlen⟩
      intro hnil
      obtain rfl : edges = [] := by simpa using hnil
      cases hwalk
      exact heq rfl
    · rintro ⟨⟨hwalk, hsimple, -⟩, hlen⟩
      obtain ⟨nodes, edges⟩ := path
      obtain ⟨rest, rfl⟩ := hwalk.exists_tail
      exact ⟨rest, edges, hwalk, hsimple, hlen, rfl⟩

/-! The reachability search always ends, with the right answer. -/

theorem sum_length_filter_le {α β : Type*} [DecidableEq β] {f : α → β} {keys : List β} {l : List α}
    (h : keys.Nodup) : (keys.map fun k => (l.filter (f · = k)).length).sum ≤ l.length := by
  induction keys generalizing l with
  | nil => simp
  | cons k keys ih =>
    obtain ⟨hk, hkeys⟩ := nodup_cons.mp h
    -- the elements of the other keys are among those that do not have this one
    have hrest : ∀ k' ∈ keys, l.filter (f · = k') = (l.filter fun x => !decide (f x = k)).filter (f · = k') := by
      intro k' hk'
      rw [filter_filter]
      refine filter_congr fun x _ => ?_
      by_cases hx : f x = k'
      · simp [hx, ne_of_mem_of_not_mem hk' hk]
      · simp [hx]
    have hle := ih (l := l.filter fun x => !decide (f x = k)) hkeys
    rw [map_cons, sum_cons, map_congr_left fun k' hk' => congrArg length (hrest k' hk'),
      l.length_eq_length_filter_add (f · = k)]
    omega

theorem flowReachable_spec (cpg : ThinCpg) (src dst : StableId) :
    ∃ found, flowReachable cpg src dst = some found ∧ (found = true ↔
      Relation.ReflTransGen (fun a b => ∃ e, (b, e) ∈ flowAdjacency cpg a) src dst) := by
  let flowEdges := cpg.edges.filter fun e => e.kind = .flowsTo
  let sources := sortUnique (flowEdges.map CpgEdge.sourceNodeId)
  have hlength : ∀ v, (flowSuccessors cpg v).length =
      (flowEdges.filter (CpgEdge.sourceNodeId · = v)).length := by
    intro v
    rw [flowSuccessors, length_map, flowAdjacency, length_insertionSort, length_map, filter_filter]
    refine congrArg List.length (filter_congr fun e _ => ?_)
    simp [Bool.and_comm]
  have hempty : ∀ v, v ∉ sources → flowSuccessors cpg v = [] := by
    intro v hv
    refine length_eq_zero_iff.mp ?_
    rw [hlength, length_eq_zero_iff, filter_eq_nil_iff]
    intro e he hsource
    refine hv (mem_sortUnique.mpr (mem_map.mpr ⟨e, he, ?_⟩))
    simpa using hsource
  have hnodup : sources.Nodup := nodup_ascending _
  have hfuel : [src].length + pending (flowSuccessors cpg) sources ∅ ≤ cpg.edges.length + 1 := by
    have hle := sum_length_filter_le (f := CpgEdge.sourceNodeId) (l := flowEdges) hnodup
    have hflow : flowEdges.length ≤ cpg.edges.length := length_filter_le _ _
    simp only [pending, Finset.notMem_empty, not_false_eq_true, decide_true, filter_true,
      hlength, length_singleton]
    omega
  obtain ⟨found, hfound, hiff⟩ := reachLoop_spec hnodup hempty hfuel (Finset.notMem_empty dst)
    (by simp)
  refine ⟨found, hfound, hiff.trans ?_⟩
  have hsucc : (fun a b => b ∈ flowSuccessors cpg a) =
      fun a b => ∃ e, (b, e) ∈ flowAdjacency cpg a := by
    funext a b
    simp [flowSuccessors]
  rw [hsucc]
  simp

theorem pathNodes_cons (paths : List FlowPath) :
    pathNodes (path :: paths) = path.1.toFinset ∪ pathNodes paths := by
  rw [pathNodes, flatMap_cons, toFinset_append, pathNodes]

def pathEdges (paths : List FlowPath) : Finset StableId := (paths.flatMap Prod.snd).toFinset

theorem pathEdges_cons (paths : List FlowPath) :
    pathEdges (path :: paths) = path.2.toFinset ∪ pathEdges paths := by
  rw [pathEdges, flatMap_cons, toFinset_append, pathEdges]

variable {paths : List FlowPath} {taken : TakenPaths} {ids : Finset StableId}
  {readFacts : ReadFacts} {selection : FactSelection} {relation : RelationId} {ref : StableId}
  {selectors : ℕ} {sha256 : String → String} {budget : EvidenceQueryBudget}

/-- If no limit stopped the loop, everything was taken. -/
theorem takePaths_all
    (h : (takePaths budget taken paths).stopped = none) :
    (takePaths budget taken paths).resultNodes = taken.resultNodes ∪ pathNodes paths ∧
      (takePaths budget taken paths).resultEdges = taken.resultEdges ∪ pathEdges paths := by
  induction paths generalizing taken with
  | nil => simp [takePaths, pathNodes, pathEdges]
  | cons path paths ih =>
    by_cases hpaths : taken.returned = budget.maxPaths
    · rw [takePaths, if_pos hpaths] at h
      exact absurd h (by simp)
    · by_cases hnodes : (taken.resultNodes ∪ path.1.toFinset).card > budget.maxNodes
      · rw [takePaths, if_neg hpaths, if_pos hnodes] at h
        exact absurd h (by simp)
      · rw [takePaths, if_neg hpaths, if_neg hnodes] at h ⊢
        obtain ⟨hn, he⟩ := ih h
        rw [hn, he, pathNodes_cons, pathEdges_cons, Finset.union_assoc, Finset.union_assoc]
        exact ⟨rfl, rfl⟩

/-- Limits that all the paths respect together stop nothing. -/
theorem takePaths_roomy (hstart : taken.stopped = none)
    (hpaths : taken.returned + paths.length ≤ budget.maxPaths)
    (hnodes : (taken.resultNodes ∪ pathNodes paths).card ≤ budget.maxNodes) :
    (takePaths budget taken paths).stopped = none := by
  induction paths generalizing taken with
  | nil => exact hstart
  | cons path paths ih =>
    rw [pathNodes_cons, ← Finset.union_assoc] at hnodes
    rw [length_cons] at hpaths
    have hle := Finset.card_le_card
      (@Finset.subset_union_left _ _ (taken.resultNodes ∪ path.1.toFinset) (pathNodes paths))
    rw [takePaths, if_neg (by omega), if_neg (by omega)]
    exact ih rfl (by dsimp only; omega) hnodes

theorem mem_findNodes {node : CpgNode} :
    node ∈ findNodes cpg ids ↔ node ∈ cpg.nodes ∧ node.nodeId ∈ ids := by
  rw [findNodes, mem_filterMap_find? cpg.nodes_nodup, mem_ascending]

theorem mem_findEdges {edge : CpgEdge} :
    edge ∈ findEdges cpg ids ↔ edge ∈ cpg.edges ∧ edge.edgeId ∈ ids := by
  rw [findEdges, mem_filterMap_find? cpg.edges_nodup, mem_ascending]

/-- The nodes that the sweep over the path asks about. -/
def asksAbout (src node : StableId) : Bool := node ≠ src ∧ node.kind = .valueRef

/-- The reads of one flow relation. -/
def relationProbes (src dst : StableId) (nodes : Finset StableId) : ℕ :=
  (if src.kind = .valueRef then 1 else 0) + (if dst.kind = .valueRef then 1 else 0) +
    (ascending nodes).countP (asksAbout src)

variable {next : FactSelection}

/-- A read that leaves no truncation reason used up one probe. -/
theorem FactSelection.add_complete {selector : FactSelector}
    {keep : MachineFact → Bool} (h : selection.add readFacts selector keep = .ok next)
    (hreasons : next.reasons = ∅) :
    selection.reasons = ∅ ∧ selection.remainingSelectors = next.remainingSelectors + 1 ∧
      selection.canRead = true := by
  unfold add at h
  split_ifs at h with hwork hbytes
  · obtain rfl := pure_eq_ok.mp h
    exact absurd hreasons (Finset.insert_ne_empty _ _)
  · obtain rfl := pure_eq_ok.mp h
    exact absurd hreasons (Finset.insert_ne_empty _ _)
  · obtain ⟨page, -, h⟩ := bind_eq_ok.mp h
    rw [takePage, guard_eq_ok] at h
    obtain rfl := pure_eq_ok.mp h.2
    rw [Finset.union_eq_empty, Finset.union_eq_empty] at hreasons
    rw [not_or] at hwork
    refine ⟨hreasons.1.1, ?_, by simp [canRead, hwork, hbytes]⟩
    dsimp only
    omega

variable {nodes : Finset StableId}

theorem addPathFacts_complete {src : StableId}
    {ids : List StableId} (h : addPathFacts readFacts relation src nodes selection ids = .ok next)
    (hreasons : next.reasons = ∅) :
    selection.reasons = ∅ ∧
      selection.remainingSelectors = next.remainingSelectors + ids.countP (asksAbout src) := by
  induction ids generalizing selection with
  | nil =>
    obtain rfl := pure_eq_ok.mp h
    exact ⟨hreasons, by simp⟩
  | cons id ids ih =>
    by_cases hskip : id = src ∨ id.kind ≠ .valueRef
    · rw [addPathFacts, if_pos hskip] at h
      have hask : ¬ asksAbout src id = true := by
        simp only [asksAbout, decide_eq_true_eq]
        tauto
      rw [countP_cons_of_neg hask]
      exact ih h
    · have hask : asksAbout src id = true := by
        simp only [asksAbout, decide_eq_true_eq]
        tauto
      rw [addPathFacts, if_neg hskip] at h
      obtain ⟨mid, hadd, h⟩ := bind_eq_ok.mp h
      rw [countP_cons_of_pos hask]
      by_cases hread : selection.canRead = true
      · rw [if_pos hread] at h
        obtain ⟨hmid, hcount⟩ := ih h
        obtain ⟨hstart, hone, -⟩ := add_complete hadd hmid
        exact ⟨hstart, by omega⟩
      · rw [if_neg hread] at h
        obtain rfl := pure_eq_ok.mp h
        exact absurd (add_complete hadd hreasons).2.2 hread

theorem addEndpointFacts_complete {column : ℕ}
    (h : addEndpointFacts readFacts relation column ref selection = .ok next)
    (hreasons : next.reasons = ∅) :
    selection.reasons = ∅ ∧ selection.remainingSelectors =
      next.remainingSelectors + if ref.kind = .valueRef then 1 else 0 := by
  by_cases href : ref.kind = .valueRef
  · rw [addEndpointFacts, if_pos href] at h
    obtain ⟨hs, hone, -⟩ := add_complete h hreasons
    exact ⟨hs, by rw [if_pos href, hone]⟩
  · rw [addEndpointFacts, if_neg href] at h
    obtain rfl := pure_eq_ok.mp h
    exact ⟨hreasons, by rw [if_neg href, Nat.add_zero]⟩

theorem addRelationFacts_complete
    (h : addRelationFacts readFacts src dst nodes selection relation = .ok next)
    (hreasons : next.reasons = ∅) :
    selection.reasons = ∅ ∧
      selection.remainingSelectors = next.remainingSelectors + relationProbes src dst nodes := by
  obtain ⟨first, hfirst, h⟩ := bind_eq_ok.mp h
  obtain ⟨second, hsecond, h⟩ := bind_eq_ok.mp h
  obtain ⟨h2, hc2⟩ := addPathFacts_complete h hreasons
  obtain ⟨h1, hc1⟩ := addEndpointFacts_complete hsecond h2
  obtain ⟨h0, hc0⟩ := addEndpointFacts_complete hfirst h1
  exact ⟨h0, by rw [relationProbes]; omega⟩

/-- Reads that find everything need no more probes than there are. -/
theorem selectFlowFacts_complete
    (h : selectFlowFacts readFacts src dst budget nodes = .ok selection)
    (hreasons : selection.reasons = ∅) : 2 * relationProbes src dst nodes ≤ maxFactPageRows := by
  obtain ⟨mid, hmid, h⟩ := bind_eq_ok.mp h
  obtain ⟨last, hlast, h⟩ := bind_eq_ok.mp h
  obtain rfl := pure_eq_ok.mp h
  obtain ⟨hm, hc⟩ := addRelationFacts_complete hlast hreasons
  obtain ⟨-, hc'⟩ := addRelationFacts_complete hmid hm
  have hstart : (start budget).remainingSelectors = maxFactPageRows := rfl
  omega

/-! A snapshot with no flow facts: every read finds the end. -/

def noFacts : ReadFacts := fun _ _ => .ok ⟨[], 0, 0, none, true, false, none⟩

/-- A selection that has only used up probes. -/
def probed (budget : EvidenceQueryBudget) (selectors : ℕ) : FactSelection :=
  { start budget with remainingSelectors := selectors }

theorem add_noFacts (budget : EvidenceQueryBudget) (selectors : ℕ) (selector : FactSelector)
    (keep : MachineFact → Bool) :
    (probed budget (selectors + 1)).add noFacts selector keep = .ok (probed budget selectors) := by
  simp [add, noFacts, takePage, pageReason, probed,
    start, maxWork, pure, Except.pure, bind, Except.bind]

theorem addPathFacts_noFacts
    {ids : List StableId} (h : ids.countP (asksAbout src) ≤ selectors) :
    addPathFacts noFacts relation src nodes (probed budget selectors) ids =
      .ok (probed budget (selectors - ids.countP (asksAbout src))) := by
  induction ids generalizing selectors with
  | nil => rfl
  | cons id ids ih =>
    by_cases hskip : id = src ∨ id.kind ≠ .valueRef
    · have hask : ¬ asksAbout src id = true := by
        simp only [asksAbout, decide_eq_true_eq]
        tauto
      rw [countP_cons_of_neg hask] at h ⊢
      rw [addPathFacts, if_pos hskip]
      exact ih h
    · have hask : asksAbout src id = true := by
        simp only [asksAbout, decide_eq_true_eq]
        tauto
      rw [countP_cons_of_pos hask] at h ⊢
      obtain ⟨k, rfl⟩ : ∃ k, selectors = k + 1 := ⟨selectors - 1, by omega⟩
      rw [addPathFacts, if_neg hskip]
      refine bind_eq_ok.mpr ⟨_, add_noFacts budget k _ _, ?_⟩
      have hread : (probed budget (k + 1)).canRead = true := by
        simp [probed, canRead, start, maxWork]
      rw [if_pos hread, ih (by omega), Nat.add_sub_add_right]

theorem addEndpointFacts_noFacts {column : ℕ}
    (h : (if ref.kind = .valueRef then 1 else 0) ≤ selectors) :
    addEndpointFacts noFacts relation column ref (probed budget selectors) =
      .ok (probed budget (selectors - if ref.kind = .valueRef then 1 else 0)) := by
  by_cases href : ref.kind = .valueRef
  · rw [if_pos href] at h
    obtain ⟨k, rfl⟩ : ∃ k, selectors = k + 1 := ⟨selectors - 1, by omega⟩
    rw [addEndpointFacts, if_pos href, if_pos href]
    exact add_noFacts budget k _ _
  · rw [addEndpointFacts, if_neg href, if_neg href]
    rfl

theorem addRelationFacts_noFacts
    (h : relationProbes src dst nodes ≤ selectors) :
    addRelationFacts noFacts src dst nodes (probed budget selectors) relation =
      .ok (probed budget (selectors - relationProbes src dst nodes)) := by
  rw [relationProbes] at h ⊢
  refine bind_eq_ok.mpr ⟨_, addEndpointFacts_noFacts (by omega), ?_⟩
  refine bind_eq_ok.mpr ⟨_, addEndpointFacts_noFacts (by omega), ?_⟩
  rw [addPathFacts_noFacts (by omega), Nat.sub_sub, Nat.sub_sub, Nat.add_assoc]

theorem selectFlowFacts_noFacts
    (h : 2 * relationProbes src dst nodes ≤ maxFactPageRows) :
    ∃ selectors, selectFlowFacts noFacts src dst budget nodes = .ok (probed budget selectors) := by
  refine ⟨maxFactPageRows - relationProbes src dst nodes - relationProbes src dst nodes, ?_⟩
  have hstart : start budget = probed budget maxFactPageRows := rfl
  refine bind_eq_ok.mpr ⟨_, addRelationFacts_noFacts (by omega), ?_⟩
  exact bind_eq_ok.mpr ⟨_, addRelationFacts_noFacts (by omega), rfl⟩

theorem mem_pathNodes {id : StableId} : id ∈ pathNodes paths ↔ ∃ path ∈ paths, id ∈ path.1 := by
  simp [pathNodes]

theorem mem_pathEdges {id : StableId} : id ∈ pathEdges paths ↔ ∃ path ∈ paths, id ∈ path.2 := by
  simp [pathEdges]

/-- A complete graph part holds all the paths within the depth, or there is no path at all. -/
theorem flowPart_complete {part : FlowPart}
    (h : flowPart cpg src dst budget = some part) (hcomplete : part.completeness = .complete) :
    (∀ path, ¬ FlowTrail cpg src dst path) ∨
      ((∃ path, path ∈ enumeratePaths cpg src dst budget.maxDepth) ∧
        part.nodes = findNodes cpg (pathNodes (enumeratePaths cpg src dst budget.maxDepth)) ∧
        part.edges = findEdges cpg (pathEdges (enumeratePaths cpg src dst budget.maxDepth))) := by
  unfold flowPart at h
  split at h
  case h_1 =>
    obtain ⟨found, hfound, hiff⟩ := flowReachable_spec cpg src dst
    rw [hfound, Option.map_some, Option.some.injEq] at h
    subst h
    cases found with
    | true => exact absurd hcomplete (by simp)
    | false =>
      refine .inl fun path htrail => ?_
      exact absurd (hiff.mpr htrail.walk.reach) (by simp)
  case h_2 first rest hpaths =>
    rw [hpaths]
    refine .inr ⟨⟨first, mem_cons_self⟩, ?_⟩
    rw [Option.some.injEq] at h
    cases hstop : (takePaths budget ⟨∅, ∅, 0, none⟩ (first :: rest)).stopped with
    | none =>
      rw [hstop] at h
      obtain ⟨hnodes, hedges⟩ := takePaths_all hstop
      rw [← h, hnodes, hedges]
      exact ⟨rfl, rfl⟩
    | some stop =>
      rw [hstop] at h
      rw [← h] at hcomplete
      exact absurd hcomplete (by simp)

/-- With room for every path the graph part is complete. -/
theorem flowPart_roomy
    (hsome : ∃ path, path ∈ enumeratePaths cpg src dst budget.maxDepth)
    (hpaths : (enumeratePaths cpg src dst budget.maxDepth).length ≤ budget.maxPaths)
    (hnodes : (pathNodes (enumeratePaths cpg src dst budget.maxDepth)).card ≤ budget.maxNodes) :
    ∃ part, flowPart cpg src dst budget = some part ∧ part.completeness = .complete ∧
      part.reasons = [] := by
  unfold flowPart
  split
  case h_1 hnil =>
    obtain ⟨path, hpath⟩ := hsome
    rw [hnil] at hpath
    exact absurd hpath not_mem_nil
  case h_2 first rest hlist =>
    rw [hlist] at hpaths hnodes
    have hstop : (takePaths budget ⟨∅, ∅, 0, none⟩ (first :: rest)).stopped = none :=
      takePaths_roomy rfl (by simpa using hpaths) (by rwa [Finset.empty_union])
    dsimp only
    rw [hstop]
    exact ⟨_, rfl, rfl, rfl⟩

/-- What a successful query went through. -/
theorem runValueFlow_eq_ok {fingerprint : String} {runId : StableId}
    {outcome : FlowQueryOutcome}
    (h : runValueFlow sha256 cpg readFacts src dst budget fingerprint runId = some (.ok outcome)) :
    ∃ part selection, flowPart cpg src dst budget = some part ∧
      selectFlowFacts readFacts src dst budget
        (pathNodes (enumeratePaths cpg src dst budget.maxDepth)) = .ok selection ∧
      outcome.result.nodes = part.nodes ∧ outcome.result.edges = part.edges ∧
      outcome.result.metadata.completeness =
        if selection.reasons = ∅ then part.completeness else .truncated := by
  rw [runValueFlow, Option.map_eq_some_iff] at h
  obtain ⟨part, hpart, h⟩ := h
  obtain ⟨selection, hselection, h⟩ := bind_eq_ok.mp h
  obtain ⟨certificate, -, h⟩ := bind_eq_ok.mp h
  obtain rfl := pure_eq_ok.mp h
  refine ⟨part, selection, hpart, hselection, rfl, rfl, ?_⟩
  by_cases hreasons : selection.reasons = ∅
  · simp [flowSlice, finish, hreasons]
  · simp [flowSlice, finish, hreasons]

/-- A query whose reads find no facts succeeds on a complete graph part. -/
theorem runValueFlow_noFacts {fingerprint : String}
    {runId : StableId} {part : FlowPart} (hbudget : validateEvidenceQueryBudget budget = .ok ())
    (hpart : flowPart cpg src dst budget = some part) (hcomplete : part.completeness = .complete)
    (hreasons : part.reasons = [])
    (hprobes : 2 * relationProbes src dst (pathNodes (enumeratePaths cpg src dst budget.maxDepth)) ≤
      maxFactPageRows) :
    ∃ outcome, runValueFlow sha256 cpg noFacts src dst budget fingerprint runId =
      some (.ok outcome) ∧ outcome.result.metadata.completeness = .complete := by
  obtain ⟨selectors, hselect⟩ := @selectFlowFacts_noFacts src dst budget _ hprobes
  let slice := flowSlice part ((probed budget selectors).finish runId) runId
  have hslice : slice.metadata.completeness = .complete ∧ slice.metadata.truncationReasons = [] := by
    simp [slice, flowSlice, finish, probed, start, hcomplete, hreasons]
  have hdescriptor : validateDescriptor (completionDescriptor "value_flow" [src, dst] budget
      fingerprint slice.metadata.completeness slice.metadata.truncationReasons
      slice.metadata.examinedItems (flowMemberDigest sha256 slice)) = .ok () := by
    rw [hslice.1, hslice.2]
    simp [validateDescriptor, completionDescriptor, hbudget, bind, Except.bind, pure, Except.pure]
  obtain ⟨fact, hfact⟩ := @makeQueryCompletionFact_isOk sha256 _ hdescriptor
  have hcertificate : makeQueryCertificate sha256 "value_flow" [src, dst] budget fingerprint
      slice.metadata.completeness slice.metadata.truncationReasons slice.metadata.examinedItems
      (flowMemberDigest sha256 slice) runId = .ok (certificateOf "value_flow" runId fact) := by
    rw [makeQueryCertificate, hfact]
    rfl
  refine ⟨⟨{ slice with metadata := { slice.metadata with queryProvenanceId := fact.factId } },
    certificateOf "value_flow" runId fact⟩, ?_, hslice.1⟩
  rw [runValueFlow, hpart, Option.map_some, Option.some.injEq]
  refine bind_eq_ok.mpr ⟨_, hselect, ?_⟩
  exact bind_eq_ok.mpr ⟨_, hcertificate, rfl⟩

/-! The condition under which "complete" means complete. -/

/-- Where a short path exists, nothing on a longer one is new: every node and edge of every simple
path is on a path within the depth, and its nodes are declared. Above the limit of selector probes
no query of these endpoints is marked complete. -/
def DepthSuffices (cpg : ThinCpg) (src dst : StableId) (depth : ℕ) : Prop :=
  (∃ short, FlowTrail cpg src dst short ∧ short.2.length ≤ depth) →
    2 * relationProbes src dst (pathNodes (enumeratePaths cpg src dst depth)) ≤ maxFactPageRows →
      ∀ path, FlowTrail cpg src dst path →
        (∀ id ∈ path.1, (∃ node ∈ cpg.nodes, node.nodeId = id) ∧
          ∃ short, FlowTrail cpg src dst short ∧ short.2.length ≤ depth ∧ id ∈ short.1) ∧
        ∀ id ∈ path.2, ∃ short, FlowTrail cpg src dst short ∧ short.2.length ≤ depth ∧ id ∈ short.2

def sampleValue (name : String) : StableId := ⟨.valueRef, name⟩

def sampleFlow (id : String) (source target : StableId) : CpgEdge :=
  ⟨⟨.cpgEdge, id⟩, .flowsTo, source, target, none, false, []⟩

def sampleNodes : List CpgNode :=
  ["a", "b", "c"].map fun name => ⟨sampleValue name, .parameter, name⟩

def directFlow : ThinCpg :=
  ⟨sampleNodes, [sampleFlow "ac" (sampleValue "a") (sampleValue "c")], by decide, by decide⟩

def forkedFlow : ThinCpg :=
  ⟨sampleNodes, [sampleFlow "ac" (sampleValue "a") (sampleValue "c"),
    sampleFlow "ab" (sampleValue "a") (sampleValue "b"),
    sampleFlow "bc" (sampleValue "b") (sampleValue "c")], by decide, by decide⟩

end Veritas

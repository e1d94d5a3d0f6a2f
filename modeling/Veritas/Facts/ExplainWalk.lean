import Veritas.Facts.ProvenanceStore
import Veritas.Facts.PublicationEffect

/-! The walk of an explanation: with one matching node for each fact it always ends. -/
namespace Veritas

open List

variable {ctx : StoreContext} {s : FactTables} {run : String} {budget : ExplainBudget}

/-- Every witness of a run is selected and the only one of its fact, and the current binding of the
fact names it. -/
structure OneProofEach (s : FactTables) : Prop where
  unique : s.UniqueCurrent
  keys : (s.nodes.map fun n => (n.runId, n.outputFactId, n.witnessId)).Nodup
  selected : ∀ n ∈ s.nodes, n.selected = true
  bound : ∀ n ∈ s.nodes, ∃ b ∈ s.currentBindings, b.key = (n.runId, n.outputFactId) ∧
    b.selectedWitnessId = n.witnessId

theorem mem_nodeRows {factId : String} {selectedOnly : Bool} {n : ProvenanceNode} :
    n ∈ nodeRows s run factId selectedOnly ↔ n ∈ s.nodes ∧ n.runId = columnText run ∧
      n.outputFactId = columnText factId ∧ (selectedOnly = true → n.selected = true) := by
  rw [nodeRows, mem_insertionSort, mem_filter, decide_eq_true_eq]

/-- What a visit finds: nothing, or the one node that the binding names. -/
theorem OneProofEach.visit (hs : OneProofEach s) (run factId : String) (selectedOnly : Bool) :
    nodeRows s run factId selectedOnly = [] ∨ ∃ n ∈ s.nodes,
      nodeRows s run factId selectedOnly = [n] ∧ n.runId = columnText run ∧
        n.outputFactId = columnText factId ∧ selectedMatches s run factId n = true := by
  cases hrows : nodeRows s run factId selectedOnly with
  | nil => exact .inl rfl
  | cons n rest =>
    have hmem : ∀ m ∈ n :: rest, m ∈ s.nodes ∧ m.runId = columnText run ∧
        m.outputFactId = columnText factId := by
      intro m hm
      rw [← hrows, mem_nodeRows] at hm
      exact ⟨hm.1, hm.2.1, hm.2.2.1⟩
    obtain ⟨hn, hrun, hfact⟩ := hmem n mem_cons_self
    obtain ⟨b, hb, hkey, hwitness⟩ := hs.bound n hn
    have hsingle : rest = [] := by
      cases rest with
      | nil => rfl
      | cons m rest =>
        -- a second node would have the same binding, so the same witness and the same key
        obtain ⟨hm, hmrun, hmfact⟩ := hmem m (by simp)
        obtain ⟨b', hb', hkey', hwitness'⟩ := hs.bound m hm
        have hsame : b' = b := hs.unique.eq hb' hb (by
          rw [hkey, hkey', hrun, hmrun, hfact, hmfact])
        have heq : m = n := inj_on_of_nodup_map hs.keys hm hn (by
          rw [hmrun, hrun, hmfact, hfact, ← hwitness', ← hwitness, hsame])
        have hnodup : (nodeRows s run factId selectedOnly).Nodup :=
          (perm_insertionSort _ _).nodup_iff.mpr ((Nodup.of_map _ hs.keys).filter _)
        rw [hrows, heq] at hnodup
        simp at hnodup
    refine .inr ⟨n, hn, by rw [hsingle], hrun, hfact, ?_⟩
    have hbindings : s.bindings.filter (fun b => b.runId = columnText run ∧
        b.factId = columnText factId ∧ b.isCurrent) = [b] := by
      have hfilter : s.bindings.filter (fun b => b.runId = columnText run ∧
          b.factId = columnText factId ∧ b.isCurrent) = s.currentBindings.filter fun b =>
            b.key = (columnText run, columnText factId) := by
        rw [FactTables.currentBindings, filter_filter]
        refine filter_congr fun b _ => ?_
        simp only [FactBinding.key, Prod.mk.injEq, Bool.decide_and, Bool.decide_eq_true]
        exact (Bool.and_assoc _ _ _).symm
      rw [hfilter, Ordered.filter_eq_of_nodup (x := b) (Nodup.of_map _ hs.unique), if_pos hb]
      intro b' hb'
      rw [decide_eq_true_eq, ← hrun, ← hfact, ← hkey]
      exact ⟨fun h => hs.unique.eq hb' hb h, fun h => h ▸ rfl⟩
    rw [selectedMatches, hbindings]
    exact decide_eq_true ⟨hs.selected n hn, hwitness⟩

/-- The inputs that are not yet in the queue. -/
def unqueued (s : FactTables) (enqueued : List String) : Finset String :=
  (s.edges.map (·.inputId)).toFinset \ enqueued.toFinset

variable {e : ProvenanceEdge} {task : ExplainTask} {walk : ExplainWalk} {b : FactBinding}

theorem mem_edgeRows {factId witnessId : String} {maxEdges : ℕ}
    (h : e ∈ edgeRows s run factId witnessId maxEdges) : e ∈ s.edges := by
  exact (mem_filter.mp ((mem_insertionSort _).mp (mem_of_mem_take h))).1

theorem length_edgeRows (factId witnessId : String) (maxEdges : ℕ) :
    (edgeRows s run factId witnessId maxEdges).length ≤ s.edges.length := by
  refine (length_take_le' _ _).trans ?_
  rw [length_insertionSort]
  exact length_filter_le _ _

/-- The edges of a task: the graph grows by them, and what is queued was not queued before. -/
structure EdgesEmitted (s : FactTables) (task : ExplainTask) (rows : List ProvenanceEdge)
    (walk walk' : ExplainWalk) : Prop where
  open_ : walk'.graph.truncated = walk.graph.truncated
  nodes : walk'.graph.nodes = walk.graph.nodes
  binding : walk'.graph.binding = walk.graph.binding
  edges : walk'.graph.edges.length = walk.graph.edges.length + rows.length
  pending : ∀ t ∈ walk'.pending, t ∈ walk.pending ∨ t.distance = task.distance + 1
  kept : ∀ t ∈ walk.pending, t ∈ walk'.pending
  measure : walk'.pending.length + (unqueued s walk'.enqueued).card ≤
    walk.pending.length + (unqueued s walk.enqueued).card

theorem EdgesEmitted.trans {row : ProvenanceEdge} {rest : List ProvenanceEdge}
    {mid walk' : ExplainWalk} (h : EdgesEmitted s task [row] walk mid)
    (h' : EdgesEmitted s task rest mid walk') : EdgesEmitted s task (row :: rest) walk walk' := by
  refine ⟨h'.open_.trans h.open_, h'.nodes.trans h.nodes, h'.binding.trans h.binding, ?_,
    fun t ht => ?_, fun t ht => h'.kept t (h.kept t ht), h'.measure.trans h.measure⟩
  · rw [h'.edges, h.edges, length_singleton, length_cons]
    omega
  · rcases h'.pending t ht with ht | ht
    · exact h.pending t ht
    · exact .inr ht

/-- An input that is queued for the first time leaves the unqueued ones. -/
theorem card_unqueued_append {enqueued : List String} (he : e ∈ s.edges)
    (hnew : e.inputId ∉ enqueued) :
    (unqueued s (enqueued ++ [e.inputId])).card + 1 ≤ (unqueued s enqueued).card := by
  have hfresh : e.inputId ∈ unqueued s enqueued := by
    rw [unqueued, Finset.mem_sdiff, mem_toFinset, mem_toFinset]
    exact ⟨mem_map_of_mem he, hnew⟩
  have hsmaller : unqueued s (enqueued ++ [e.inputId]) ⊆ (unqueued s enqueued).erase e.inputId := by
    intro id hid
    rw [unqueued, Finset.mem_sdiff, mem_toFinset, mem_toFinset,
      mem_append, mem_singleton, not_or] at hid
    rw [Finset.mem_erase, unqueued, Finset.mem_sdiff, mem_toFinset, mem_toFinset]
    exact ⟨hid.2.2, hid.1, hid.2.1⟩
  have hcard := Finset.card_le_card hsmaller
  have hpos := Finset.card_pos.mpr ⟨_, hfresh⟩
  rw [Finset.card_erase_of_mem hfresh] at hcard
  omega

theorem emitEdges_spec {rows : List ProvenanceEdge} (hrows : ∀ e ∈ rows, e ∈ s.edges)
    (hroom : walk.graph.edges.length + rows.length ≤ budget.maxEdges) :
    EdgesEmitted s task rows walk (emitEdges budget run task walk rows) := by
  induction rows generalizing walk with
  | nil => exact ⟨rfl, rfl, rfl, rfl, fun t ht => .inl ht, fun t ht => ht, le_rfl⟩
  | cons row rest ih =>
    rw [length_cons] at hroom
    rw [emitEdges, if_neg (by omega)]
    have hrest : ∀ e ∈ rest, e ∈ s.edges := fun e he => hrows e (mem_cons_of_mem _ he)
    by_cases hnew : row.inputKind = .derived ∧ row.inputId ∉ walk.enqueued
    · rw [if_pos hnew]
      refine EdgesEmitted.trans ?_ (ih hrest ?_)
      · refine ⟨rfl, rfl, rfl, length_append, fun t ht => ?_,
          fun t ht => mem_append_left _ ht, ?_⟩
        · rcases mem_append.mp ht with ht | ht
          · exact .inl ht
          · rw [mem_singleton.mp ht]
            exact .inr rfl
        · have hcard := card_unqueued_append (hrows row mem_cons_self) hnew.2
          simp only [length_append, length_singleton]
          omega
      · rw [length_append, length_singleton]
        omega
    · simp only
      rw [if_neg hnew]
      refine EdgesEmitted.trans ?_ (ih hrest ?_)
      · exact ⟨rfl, rfl, rfl, length_append, fun t ht => .inl ht, fun t ht => ht, le_rfl⟩
      · rw [length_append, length_singleton]
        omega

/-- A node of the graph is the one its fact has in the tables. -/
def Reported (s : FactTables) (run : String) (node : ProvenanceNode) : Prop :=
  ∃ n ∈ s.nodes, n.runId = columnText run ∧ n.outputFactId = columnText node.outputFactId ∧
    n.witnessId = node.witnessId ∧ n.selected = node.selected

/-- A walk with `fuel` tasks left out of `total`: there is room in every part of the budget. -/
structure WalkRoom (s : FactTables) (run : String) (total fuel : ℕ) (walk : ExplainWalk) :
    Prop where
  open_ : walk.graph.truncated = false
  measure : walk.pending.length + (unqueued s walk.enqueued).card ≤ fuel
  depth : ∀ task ∈ walk.pending, task.distance + fuel ≤ total
  nodes : walk.graph.nodes.length + fuel ≤ total
  edges : walk.graph.edges.length + fuel * s.edges.length ≤ total * s.edges.length
  reported : ∀ node ∈ walk.graph.nodes, Reported s run node

/-- Where every fact has one proof, a walk within its budget ends with a complete graph. -/
theorem explainLoop_complete (hs : OneProofEach s) {total fuel : ℕ}
    (hdepth : total ≤ budget.maxDepth) (hnodes : total ≤ budget.maxNodes)
    (hedges : total * s.edges.length ≤ budget.maxEdges) (hwalk : WalkRoom s run total fuel walk) :
    ∃ graph, explainLoop s run budget fuel walk = some (.ok graph) ∧ graph.truncated = false ∧
      graph.binding = walk.graph.binding ∧ (∀ node ∈ graph.nodes, Reported s run node) ∧
      (∀ node ∈ walk.graph.nodes, node ∈ graph.nodes) ∧
        ∀ task ∈ walk.pending, ∀ n ∈ nodeRows s run task.factId budget.selectedOnly,
          explainNode budget run task.factId n ∈ graph.nodes := by
  induction fuel generalizing walk with
  | zero =>
    obtain ⟨graph, enqueued, _ | ⟨task, rest⟩⟩ := walk
    · exact ⟨graph, rfl, hwalk.open_, rfl, hwalk.reported, fun _ h => h, by simp⟩
    · have hempty := hwalk.measure
      simp at hempty
  | succ fuel ih =>
    obtain ⟨graph, enqueued, pending⟩ := walk
    cases pending with
    | nil => exact ⟨graph, rfl, hwalk.open_, rfl, hwalk.reported, fun _ h => h, by simp⟩
    | cons task rest =>
      have htask := hwalk.depth task mem_cons_self
      have hfuel := hwalk.measure
      have hnode := hwalk.nodes
      have hedge := hwalk.edges
      simp only [length_cons] at hfuel
      simp only [Nat.succ_mul] at hedge
      simp only at hnode
      rw [explainLoop, if_neg (by omega)]
      rcases hs.visit run task.factId budget.selectedOnly with hrows | ⟨n, hn, hrows, hrun, hfact,
        hmatch⟩
      · have hnext : WalkRoom s run total fuel ⟨graph, enqueued, rest⟩ := by
          refine ⟨hwalk.open_, by simp only; omega, fun t ht => ?_, by simp only; omega,
            by simp only; omega, hwalk.reported⟩
          have hd := hwalk.depth t (mem_cons_of_mem _ ht)
          omega
        obtain ⟨final, hfinal, hclosed, hbinding, hreported, hkept, hemitted⟩ := ih hnext
        rw [hrows]
        refine ⟨final, hfinal, hclosed, hbinding, hreported, hkept, fun t ht m hm => ?_⟩
        rcases mem_cons.mp ht with rfl | ht
        · rw [hrows] at hm
          cases hm
        · exact hemitted t ht m hm
      · rw [hrows]
        have hemitted : emitNodes budget run task.factId graph [n] =
            { graph with nodes := graph.nodes ++ [explainNode budget run task.factId n] } := by
          rw [emitNodes, if_neg (by omega), emitNodes]
        have hopen : graph.truncated = false := hwalk.open_
        simp only [hmatch, not_true_eq_false, if_false, hemitted]
        rw [if_neg (by rw [hopen]; exact Bool.false_ne_true)]
        -- the node and the edges of the task are in, and the new tasks are one step further
        generalize hstart : ExplainWalk.mk { graph with
          nodes := graph.nodes ++ [explainNode budget run task.factId n] } enqueued rest = start
        generalize hfound : edgeRows s run task.factId n.witnessId budget.maxEdges = found
        have hfoundMem : ∀ e ∈ found, e ∈ s.edges := fun e he => mem_edgeRows (hfound ▸ he)
        have hfoundLength : found.length ≤ s.edges.length := hfound ▸ length_edgeRows _ _ _
        have hstartEdges : start.graph.edges = graph.edges := by rw [← hstart]
        have hstartNodes : start.graph.nodes =
            graph.nodes ++ [explainNode budget run task.factId n] := by rw [← hstart]
        have hemit : EdgesEmitted s task found start (emitEdges budget run task start found) := by
          refine emitEdges_spec hfoundMem ?_
          rw [hstartEdges]
          omega
        have hnext : WalkRoom s run total fuel (emitEdges budget run task start found) := by
          refine ⟨?_, ?_, fun t ht => ?_, ?_, ?_, fun node hnode => ?_⟩
          · rw [hemit.open_, ← hstart, hopen]
          · have hmeasure := hemit.measure
            rw [← hstart] at hmeasure ⊢
            simp only at hmeasure
            omega
          · rcases hemit.pending t ht with ht | ht
            · rw [← hstart] at ht
              have hd := hwalk.depth t (mem_cons_of_mem _ ht)
              omega
            · omega
          · rw [hemit.nodes, hstartNodes, length_append, length_singleton]
            omega
          · rw [hemit.edges, hstartEdges]
            omega
          · rw [hemit.nodes, hstartNodes, mem_append, mem_singleton] at hnode
            rcases hnode with hnode | rfl
            · exact hwalk.reported node hnode
            · exact ⟨n, hn, hrun, hfact, rfl, rfl⟩
        rw [if_neg (by rw [hnext.open_]; exact Bool.false_ne_true)]
        obtain ⟨final, hfinal, hclosed, hbinding, hreported, hkept, hdone⟩ := ih hnext
        rw [hemit.nodes, hstartNodes] at hkept
        refine ⟨final, hfinal, hclosed, ?_, hreported, fun node hnode => ?_, fun t ht m hm => ?_⟩
        · rw [hbinding, hemit.binding, ← hstart]
        · exact hkept node (mem_append_left _ hnode)
        · rcases mem_cons.mp ht with rfl | ht
          · rw [hrows, mem_singleton] at hm
            exact hkept _ (by simp [hm])
          · exact hdone t (hemit.kept t (by rwa [← hstart])) m hm

/-- What an explanation starts from: a stored message that parses and a current binding. -/
structure Startable (ctx : StoreContext) (s : FactTables) (runId factId : StableId)
    (b : FactBinding) : Prop where
  bound : s.currentBinding runId.column factId.column = some b
  parse : ∃ row text proto, s.facts factId.column = some row ∧
    hexDecode row.cellsHex = .ok text ∧ ctx.wire.parse text = some proto

theorem Startable.start {runId factId : StableId} (h : Startable ctx s runId factId b) :
    ∃ proto, explainStart ctx s runId factId =
      .ok ⟨runId.toString, factId.toString, proto, b, [], [], [], false, ""⟩ := by
  obtain ⟨row, text, proto, hrow, htext, hproto⟩ := h.parse
  refine ⟨proto, ?_⟩
  rw [explainStart, hrow]
  refine StatusOr.bind_eq_ok.mpr ⟨text, htext, ?_⟩
  rw [hproto, h.bound]
  rfl

/-- A bound fact whose binding names its only proof is explained, and the proof reported as
selected is the one the binding names. -/
theorem explain_complete (hs : OneProofEach s) {runId factId : StableId}
    (hstart : Startable ctx s runId factId b)
    (hnode : ∃ n ∈ s.nodes, (n.runId, n.outputFactId) = b.key)
    (hdepth : s.edges.length + 1 ≤ budget.maxDepth) (hnodes : s.edges.length + 1 ≤ budget.maxNodes)
    (hedges : (s.edges.length + 1) * s.edges.length ≤ budget.maxEdges) :
    ∃ graph, explain ctx s runId factId budget = some (.ok graph) ∧ graph.truncated = false ∧
      graph.binding = b ∧
      (∃ node ∈ graph.nodes, node.outputFactId = factId.toString ∧ node.selected = true) ∧
      ∀ node ∈ graph.nodes, node.outputFactId = factId.toString → node.selected = true →
        node.witnessId = b.selectedWitnessId := by
  obtain ⟨hcurrent, hbound⟩ := currentBinding_spec hstart.bound
  obtain ⟨proto, hproto⟩ := hstart.start
  have hwalk : WalkRoom s runId.toString (s.edges.length + 1) (s.edges.length + 1)
      ⟨⟨runId.toString, factId.toString, proto, b, [], [], [], false, ""⟩, [factId.toString],
        [⟨factId.toString, 0⟩]⟩ := by
    have hcard : (unqueued s [factId.toString]).card ≤ s.edges.length := by
      refine (Finset.card_le_card Finset.sdiff_subset).trans ?_
      refine (toFinset_card_le _).trans ?_
      rw [length_map]
    refine ⟨rfl, ?_, by simp, by simp, by simp, by simp⟩
    simp only [length_singleton]
    omega
  obtain ⟨graph, hgraph, hopen, hbinding, hreported, -, hemitted⟩ :=
    explainLoop_complete hs hdepth hnodes hedges hwalk
  refine ⟨graph, by rw [explain, hproto]; exact hgraph, hopen, hbinding, ?_, ?_⟩
  · obtain ⟨n, hn, hkey⟩ := hnode
    obtain ⟨hrun, hfact⟩ := Prod.mk.inj (hkey.trans hbound)
    exact ⟨_, hemitted _ mem_cons_self n (mem_nodeRows.mpr ⟨hn, hrun, hfact, fun _ =>
      hs.selected n hn⟩), rfl, hs.selected n hn⟩
  · intro node hmem hfact _
    obtain ⟨n, hn, hrun, hout, hwitness, -⟩ := hreported node hmem
    obtain ⟨b', hb', hkey, hselected⟩ := hs.bound n hn
    have hsame : b' = b := by
      refine hs.unique.eq hb' hcurrent ((hkey.trans (Prod.ext hrun ?_)).trans hbound.symm)
      rw [hfact] at hout
      exact hout
    rw [← hwitness, ← hselected, hsame]

end Veritas

import Mathlib.Data.Finset.Card
import Mathlib.Data.List.Chain
import Veritas.Cpg.CpgTypes

/-! The path search of a projection: its paths are sound, its "no path" is final, and where the
reasons for a truncation mislead. -/
namespace Veritas.Cpg

open List Relation

inductive TruncationReason
  | maxDepth | maxNodes | maxPaths
  deriving DecidableEq

structure QueryBudget where
  maxDepth : ℕ
  maxNodes : ℕ
  maxPaths : ℕ

abbrev CpgPath := List StableId

structure TraversalResult where
  items : List CpgPath
  truncationReasons : List TruncationReason
  exploredNodes : ℕ
  exploredPaths : ℕ
  deriving DecidableEq

/-- The arguments of a traversal, and the edges of the projection. -/
structure Traversal where
  edges : List CpgEdge
  src : StableId
  dst : StableId
  budget : QueryBudget
  callEdges : Bool

/-- What the recursive calls share; the ids stand for their texts. -/
structure Search where
  explored : Finset StableId
  reasons : Finset TruncationReason
  items : List CpgPath
  exploredPaths : ℕ

def Search.truncate (s : Search) (reason : TruncationReason) : Search :=
  { s with reasons := insert reason s.reasons }

def Search.result (s : Search) : TraversalResult :=
  ⟨s.items, [.maxDepth, .maxNodes, .maxPaths].filter (· ∈ s.reasons), s.explored.card,
    s.exploredPaths⟩

namespace Traversal

variable (q : Traversal)

def relevant (edge : CpgEdge) : Bool :=
  if q.callEdges then edge.kind = .calls ∨ edge.kind = .mayCall else edge.kind = .flowsTo

/-- The ends of the relevant edges of a node, in the order of the projection. -/
def targets (node : StableId) : List StableId :=
  (q.edges.filter fun edge => edge.sourceNodeId = node ∧ q.relevant edge).map (·.targetNodeId)

/-- One edge of the loop; `visit` searches one level deeper, if the depth allows it. -/
def follow (visit : Option (StableId → Search → Search)) (s : Search) (target : StableId) : Search :=
  match visit with
  | none => s.truncate .maxDepth
  | some visit =>
    if target ∈ s.explored then s
    else if s.explored.card ≥ q.budget.maxNodes then s.truncate .maxNodes
    else visit target s

/-- The body of the recursion, at the end of a path. -/
def enter (visit : Option (StableId → Search → Search)) (node : StableId) (path : CpgPath)
    (s : Search) : Search :=
  let s := { s with explored := insert node s.explored }
  if node = q.dst then
    if s.items.length ≥ q.budget.maxPaths then s.truncate .maxPaths
    else { s with items := s.items ++ [path ++ [node]], exploredPaths := s.exploredPaths + 1 }
  else (q.targets node).foldl (q.follow visit) s

/-- The recursion, by the depth that is left. -/
def dfs : ℕ → StableId → CpgPath → Search → Search
  | 0, node, path, s => q.enter none node path s
  | left + 1, node, path, s =>
    q.enter (some fun target s => dfs left target (path ++ [node]) s) node path s

def search : Search := q.dfs q.budget.maxDepth q.src [] ⟨∅, ∅, [], 0⟩

def traverse : TraversalResult := q.search.result

def getValueFlow (edges : List CpgEdge) (src dst : StableId) (budget : QueryBudget) :
    TraversalResult := traverse ⟨edges, src, dst, budget, false⟩

def getCallPaths (edges : List CpgEdge) (src dst : StableId) (budget : QueryBudget) :
    TraversalResult := traverse ⟨edges, src, dst, budget, true⟩

/-- A relevant edge leads from one node to the other. -/
def Step (a b : StableId) : Prop :=
  ∃ edge ∈ q.edges, edge.sourceNodeId = a ∧ edge.targetNodeId = b ∧ q.relevant edge

structure SimplePath (path : CpgPath) : Prop where
  start : path.head? = some q.src
  finish : path.getLast? = some q.dst
  simple : path.Nodup
  steps : path.IsChain q.Step

/-- What holds of the shared state between the calls. -/
structure Searching (s : Search) : Prop where
  sound : ∀ path ∈ s.items, q.SimplePath path ∧ path.length ≤ q.budget.maxDepth + 1
  atMostOne : s.items.length ≤ 1
  found : q.dst ∈ s.explored ↔ s.items ≠ [] ∨ .maxPaths ∈ s.reasons
  card : s.explored.card ≤ max 1 q.budget.maxNodes
  nodes : .maxNodes ∈ s.reasons → q.budget.maxNodes ≤ s.explored.card ∧
    ∃ node, ReflTransGen q.Step q.src node ∧ node ∉ s.explored
  paths : .maxPaths ∈ s.reasons → s.items = [] ∧ ∃ path, q.SimplePath path

/-- The node needs no more search. -/
def Settled (s : Search) (node : StableId) : Prop :=
  node = q.dst ∨ s.reasons.Nonempty ∨ ∀ next, q.Step node next → next ∈ s.explored

structure Grows (s s' : Search) : Prop where
  explored : s.explored ⊆ s'.explored
  reasons : s.reasons ⊆ s'.reasons
  settled : ∀ node ∈ s'.explored, node ∈ s.explored ∨ q.Settled s' node

/-- The path to a node, with the depth left there. -/
structure Trail (left : ℕ) (node : StableId) (path : CpgPath) : Prop where
  start : (path ++ [node]).head? = some q.src
  simple : (path ++ [node]).Nodup
  steps : (path ++ [node]).IsChain q.Step
  reaches : ReflTransGen q.Step q.src node
  length : path.length + left = q.budget.maxDepth

variable {q} {s s' t : Search} {node target : StableId} {path : CpgPath} {left : ℕ}
  {reason : TruncationReason} {visit : Option (StableId → Search → Search)}

theorem mem_targets : target ∈ q.targets node ↔ q.Step node target := by
  simp [targets, Step, and_comm, and_left_comm]

theorem mem_truncationReasons : reason ∈ s.result.truncationReasons ↔ reason ∈ s.reasons := by
  cases reason <;> simp [Search.result]

theorem truncationReasons_eq_nil : s.result.truncationReasons = [] ↔ s.reasons = ∅ := by
  simp only [eq_nil_iff_forall_not_mem, mem_truncationReasons, Finset.eq_empty_iff_forall_notMem]

theorem Settled.mono (h : q.Settled s node) (hexplored : s.explored ⊆ s'.explored)
    (hreasons : s.reasons ⊆ s'.reasons) : q.Settled s' node := by
  rcases h with h | h | h
  · exact .inl h
  · exact .inr (.inl (h.mono hreasons))
  · exact .inr (.inr fun next hnext => hexplored (h next hnext))

theorem Grows.of_explored (hexplored : s'.explored = s.explored) (hreasons : s.reasons ⊆ s'.reasons) :
    q.Grows s s' :=
  ⟨hexplored ▸ Finset.Subset.refl _, hreasons, fun _ h => .inl (hexplored ▸ h)⟩

theorem Grows.trans (h : q.Grows s s') (h' : q.Grows s' t) : q.Grows s t := by
  refine ⟨h.explored.trans h'.explored, h.reasons.trans h'.reasons, fun node hnode => ?_⟩
  rcases h'.settled node hnode with hold | hsettled
  · rcases h.settled node hold with hold | hsettled
    · exact .inl hold
    · exact .inr (hsettled.mono h'.explored h'.reasons)
  · exact .inr hsettled

/-- A reason other than the number of paths is added without harm. -/
theorem Searching.truncate (h : q.Searching s) (hreason : reason ≠ .maxPaths)
    (hnodes : reason = .maxNodes → q.budget.maxNodes ≤ s.explored.card ∧
      ∃ node, ReflTransGen q.Step q.src node ∧ node ∉ s.explored) :
    q.Searching (s.truncate reason) := by
  have hpaths : .maxPaths ∈ (s.truncate reason).reasons ↔ .maxPaths ∈ s.reasons := by
    simp [Search.truncate, hreason.symm]
  refine ⟨h.sound, h.atMostOne, by rw [hpaths]; exact h.found, h.card, fun hmem => ?_, fun hmem => ?_⟩
  · rcases Finset.mem_insert.mp hmem with heq | hmem
    · exact hnodes heq.symm
    · exact h.nodes hmem
  · exact h.paths (hpaths.mp hmem)

theorem Trail.extend (h : q.Trail (left + 1) node path) (hstep : q.Step node target)
    (hnew : target ∉ path ++ [node]) : q.Trail left target (path ++ [node]) := by
  refine ⟨?_, ?_, ?_, h.reaches.tail hstep, ?_⟩
  · rw [head?_append, h.start]
    rfl
  · exact nodup_append'.mpr ⟨h.simple, nodup_singleton _, disjoint_singleton.mpr hnew⟩
  · refine isChain_append.mpr ⟨h.steps, isChain_singleton _, ?_⟩
    simpa using hstep
  · have hlength := h.length
    rw [length_append, length_singleton]
    omega

/-- What a search from a node leaves: the node is explored, or the search is cut. -/
def Explores (q : Traversal) (s s' : Search) (node : StableId) : Prop :=
  q.Searching s' ∧ q.Grows s s' ∧ (node ∈ s'.explored ∨ s'.reasons.Nonempty)

theorem follow_spec (hs : q.Searching s) (hreaches : ReflTransGen q.Step q.src target)
    (hvisit : ∀ deeper ∈ visit, target ∉ s.explored → s.explored.card < q.budget.maxNodes →
      q.Explores s (deeper target s) target) : q.Explores s (q.follow visit s target) target := by
  have hmore : ∀ reason, q.Grows s (s.truncate reason) ∧ (s.truncate reason).reasons.Nonempty :=
    fun reason => ⟨.of_explored rfl (Finset.subset_insert _ _), Finset.insert_nonempty _ _⟩
  cases visit with
  | none => exact ⟨hs.truncate (by decide) (by simp), (hmore _).1, .inr (hmore _).2⟩
  | some deeper =>
    simp only [follow]
    split_ifs with hold hfull
    · exact ⟨hs, .of_explored rfl (Finset.Subset.refl _), .inl hold⟩
    · exact ⟨hs.truncate (by decide) fun _ => ⟨hfull, target, hreaches, hold⟩, (hmore _).1,
        .inr (hmore _).2⟩
    · exact hvisit deeper rfl hold (not_le.mp hfull)

/-- The loop over the edges of a node keeps the path to it explored. -/
theorem foldl_follow_spec {trail : CpgPath} {ts : List StableId} (hs : q.Searching s)
    (hpath : ∀ x ∈ trail, x ∈ s.explored)
    (hts : ∀ target ∈ ts, ReflTransGen q.Step q.src target)
    (hvisit : ∀ deeper ∈ visit, ∀ s, ∀ target ∈ ts, q.Searching s → (∀ x ∈ trail, x ∈ s.explored) →
      target ∉ s.explored → s.explored.card < q.budget.maxNodes →
        q.Explores s (deeper target s) target) :
    q.Searching (ts.foldl (q.follow visit) s) ∧ q.Grows s (ts.foldl (q.follow visit) s) ∧
      ∀ target ∈ ts, target ∈ (ts.foldl (q.follow visit) s).explored ∨
        (ts.foldl (q.follow visit) s).reasons.Nonempty := by
  induction ts generalizing s with
  | nil => exact ⟨hs, .of_explored rfl (Finset.Subset.refl _), forall_mem_nil _⟩
  | cons target ts ih =>
    obtain ⟨hreaches, hts⟩ := forall_mem_cons.mp hts
    obtain ⟨hs₁, hgrows₁, htarget⟩ := follow_spec hs hreaches fun deeper hdeeper =>
      hvisit deeper hdeeper s target mem_cons_self hs hpath
    obtain ⟨hs₂, hgrows₂, hrest⟩ := ih hs₁ (fun x hx => hgrows₁.explored (hpath x hx)) hts
      fun deeper hdeeper s target htarget => hvisit deeper hdeeper s target (mem_cons_of_mem _ htarget)
    refine ⟨hs₂, hgrows₁.trans hgrows₂, forall_mem_cons.mpr ⟨?_, hrest⟩⟩
    exact htarget.imp (fun h => hgrows₂.explored h) fun h => h.mono hgrows₂.reasons

theorem enter_spec (hs : q.Searching s) (htrail : q.Trail left node path)
    (hpath : ∀ x ∈ path, x ∈ s.explored) (hnew : node ∉ s.explored)
    (hroom : s.explored.card < max 1 q.budget.maxNodes ∧ .maxNodes ∉ s.reasons)
    (hvisit : ∀ deeper ∈ visit, ∀ s target, q.Step node target → q.Searching s →
      (∀ x ∈ path ++ [node], x ∈ s.explored) → target ∉ s.explored →
        s.explored.card < q.budget.maxNodes → q.Explores s (deeper target s) target) :
    q.Explores s (q.enter visit node path s) node := by
  have hcard : (insert node s.explored).card ≤ max 1 q.budget.maxNodes := by
    rw [Finset.card_insert_of_notMem hnew]
    exact hroom.1
  have hmem := Finset.mem_insert_self node s.explored
  simp only [enter]
  by_cases hdst : node = q.dst
  · -- the destination is entered once, so nothing was listed before
    have hnone : ¬ (s.items ≠ [] ∨ .maxPaths ∈ s.reasons) := fun h => hnew (hdst ▸ hs.found.mpr h)
    obtain ⟨hitems, hreason⟩ := not_or.mp hnone
    have hitems := not_not.mp hitems
    have hsimple : q.SimplePath (path ++ [node]) :=
      ⟨htrail.start, by rw [getLast?_concat, hdst], htrail.simple, htrail.steps⟩
    have hsettled : ∀ s', s'.explored = insert node s.explored → ∀ x ∈ s'.explored,
        x ∈ s.explored ∨ q.Settled s' x := by
      intro s' hs' x hx
      rw [hs'] at hx
      rcases Finset.mem_insert.mp hx with rfl | hx
      · exact .inr (.inl hdst)
      · exact .inl hx
    split_ifs with hfull
    · refine ⟨⟨by simp [hitems, Search.truncate], by simp [hitems, Search.truncate], ?_, hcard, ?_, ?_⟩,
        ⟨Finset.subset_insert _ _, Finset.subset_insert _ _, hsettled _ rfl⟩, .inl hmem⟩
      · exact iff_of_true (hdst ▸ hmem) (.inr (Finset.mem_insert_self _ _))
      · intro h
        exact absurd ((Finset.mem_insert.mp h).resolve_left (by decide)) hroom.2
      · exact fun _ => ⟨hitems, _, hsimple⟩
    · have hlength := htrail.length
      refine ⟨⟨?_, by simp [hitems], ?_, hcard, fun h => absurd h hroom.2, fun h => absurd h hreason⟩,
        ⟨Finset.subset_insert _ _, Finset.Subset.refl _, hsettled _ rfl⟩, .inl hmem⟩
      · intro found hfound
        rw [hitems, nil_append, mem_singleton] at hfound
        rw [hfound, length_append, length_singleton]
        exact ⟨hsimple, by omega⟩
      · exact iff_of_true (hdst ▸ hmem) (.inl (by simp))
  · rw [if_neg hdst]
    have hs₁ : q.Searching { s with explored := insert node s.explored } := by
      refine ⟨hs.sound, hs.atMostOne, ?_, hcard, fun h => absurd h hroom.2, hs.paths⟩
      rw [← hs.found, Finset.mem_insert, or_iff_right (Ne.symm hdst)]
    have hpath₁ : ∀ x ∈ path ++ [node], x ∈ insert node s.explored := by
      intro x hx
      rcases mem_append.mp hx with hx | hx
      · exact Finset.mem_insert_of_mem (hpath x hx)
      · exact mem_singleton.mp hx ▸ hmem
    obtain ⟨hs₂, hgrows, hall⟩ := foldl_follow_spec hs₁ hpath₁
      (fun target htarget => htrail.reaches.tail (mem_targets.mp htarget))
      fun deeper hdeeper s target htarget => hvisit deeper hdeeper s target (mem_targets.mp htarget)
    have hinto := hgrows.explored hmem
    refine ⟨hs₂, ⟨(Finset.subset_insert _ _).trans hgrows.explored, hgrows.reasons, ?_⟩, .inl hinto⟩
    intro x hx
    rcases hgrows.settled x hx with hold | hsettled
    · rcases Finset.mem_insert.mp hold with rfl | hold
      · refine .inr (.inr ?_)
        by_cases hcut : (foldl (q.follow visit) { s with explored := insert x s.explored }
            (q.targets x)).reasons.Nonempty
        · exact .inl hcut
        · exact .inr fun next hnext => (hall next (mem_targets.mpr hnext)).resolve_right hcut
      · exact .inl hold
    · exact .inr hsettled

theorem dfs_spec (hs : q.Searching s) (htrail : q.Trail left node path)
    (hpath : ∀ x ∈ path, x ∈ s.explored) (hnew : node ∉ s.explored)
    (hroom : s.explored.card < max 1 q.budget.maxNodes ∧ .maxNodes ∉ s.reasons) :
    q.Explores s (q.dfs left node path s) node := by
  induction left generalizing s node path with
  | zero => exact enter_spec hs htrail hpath hnew hroom (by simp)
  | succ left ih =>
    refine enter_spec hs htrail hpath hnew hroom ?_
    rintro _ ⟨rfl⟩ s target hstep hs hpath hnew hroom
    refine ih hs (htrail.extend hstep fun h => hnew (hpath _ h)) hpath hnew ⟨by omega, fun h => ?_⟩
    exact absurd (hs.nodes h).1 (not_le.mpr hroom)

variable (q)

theorem search_spec : q.Explores ⟨∅, ∅, [], 0⟩ q.search q.src := by
  refine dfs_spec ⟨by simp, Nat.zero_le 1, by simp, Nat.zero_le _, by simp, by simp⟩
    ⟨rfl, nodup_singleton _, isChain_singleton _, .refl, Nat.zero_add _⟩ (forall_mem_nil _)
    (Finset.notMem_empty _) ⟨by simp, Finset.notMem_empty _⟩

/-- A search that is not cut finds the destination if it can be reached. -/
theorem items_ne_nil (hnone : q.search.reasons = ∅) (h : ReflTransGen q.Step q.src q.dst) :
    q.search.items ≠ [] := by
  obtain ⟨hs, hgrows, hsrc⟩ := q.search_spec
  have hcut : ¬ q.search.reasons.Nonempty := Finset.not_nonempty_iff_eq_empty.mpr hnone
  intro hitems
  have hdst : q.dst ∉ q.search.explored := by
    rw [hs.found, hitems, hnone]
    simp
  refine hdst ?_
  -- what is explored is closed under the steps
  generalize hx : q.dst = x at h ⊢
  clear hx
  induction h with
  | refl => exact hsrc.resolve_right hcut
  | tail _ hstep ih =>
    rcases hgrows.settled _ ih with hold | rfl | hcut' | hnext
    · exact absurd hold (Finset.notMem_empty _)
    · exact absurd ih hdst
    · exact absurd hcut' hcut
    · exact hnext _ hstep

/-- The paths are simple paths within the depth, no more nodes than allowed are explored, and where
no path is found and no reason given there is none. -/
theorem paths_sound_and_final :
    (∀ path ∈ q.traverse.items, q.SimplePath path ∧ path.length ≤ q.budget.maxDepth + 1) ∧
    (1 ≤ q.budget.maxNodes → q.traverse.exploredNodes ≤ q.budget.maxNodes) ∧
    (q.traverse.truncationReasons = [] → q.traverse.items = [] →
      ¬ ReflTransGen q.Step q.src q.dst) := by
  have hs := q.search_spec.1
  refine ⟨hs.sound, fun hpos => ?_, fun hnone hitems hreaches => ?_⟩
  · exact hs.card.trans (max_le hpos le_rfl)
  · exact q.items_ne_nil (truncationReasons_eq_nil.mp hnone) hreaches hitems

/-- A query lists one path at most, and none when it reports that there are too many. -/
theorem one_path_at_most : q.traverse.items.length ≤ 1 ∧
    (.maxPaths ∈ q.traverse.truncationReasons → q.traverse.items = []) :=
  ⟨q.search_spec.1.atMostOne, fun h => (q.search_spec.1.paths (mem_truncationReasons.mp h)).1⟩

/-- Without a reason the items are all simple paths; with one, a path or a node was left out. -/
structure ExactReasons : Prop where
  complete : q.traverse.truncationReasons = [] → q.traverse.items.Nodup ∧
    ∀ path, path ∈ q.traverse.items ↔ q.SimplePath path
  genuine : q.traverse.truncationReasons ≠ [] →
    (∃ path, q.SimplePath path ∧ path ∉ q.traverse.items) ∨
      ∃ node, ReflTransGen q.Step q.src node ∧ node ∉ q.search.explored

def AtMostOnePath : Prop := ∀ path path', q.SimplePath path → q.SimplePath path' → path = path'

variable {q} in
theorem SimplePath.reaches (h : q.SimplePath path) : ReflTransGen q.Step q.src q.dst := by
  obtain ⟨rest, rfl⟩ := head?_eq_some_iff.mp h.start
  exact relationReflTransGen_of_exists_isChain_cons rest h.steps
    (getLast_of_getLast?_eq_some h.finish)

def sampleNode (text : String) : StableId := ⟨.valueRef, text⟩

/-- Two ways from `a` to `d`. -/
def diamond : Traversal where
  edges := [("a", "b"), ("a", "c"), ("b", "d"), ("c", "d")].map fun ends =>
    ⟨⟨.cpgEdge, ends.1 ++ ends.2⟩, .flowsTo, sampleNode ends.1, sampleNode ends.2, none, false, []⟩
  src := sampleNode "a"
  dst := sampleNode "d"
  budget := ⟨9, 9, 9⟩
  callEdges := false

end Traversal

end Veritas.Cpg

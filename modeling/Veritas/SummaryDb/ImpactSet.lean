import Veritas.Facts.FactProto
import Veritas.SummaryDb.DependencyIndex

/-! What the impact set of a delta holds, against the edges the consumers last published. -/
namespace Veritas.SummaryDb

open FieldCode Matching Ordered Relation StatusOr List OrderedMap KeyedTable

/-- A component of a summary. -/
abbrev ComponentRef := StableId × ComponentKind

/-- One call that publishes a consumer's edges. -/
abbrev Replacement := StableId × List DependencyEdge

def ConsumerRef.ref (consumer : ConsumerRef) : ComponentRef :=
  (consumer.consumerId, consumer.consumerComponent)

def FrontierItem.ref (item : FrontierItem) : ComponentRef := (item.id, item.component)

def refKey (ref : ComponentRef) : String := componentKey ref.1 ref.2

/-- The edges of the last call for a consumer. -/
def lastEdges (calls : List Replacement) (consumer : StableId) : List DependencyEdge :=
  ((calls.reverse.find? (·.1 = consumer)).map Prod.snd).getD []

/-- What the stored row of an edge is found by, beside its consumer. -/
def edgeKey (edge : DependencyEdge) : ComponentKind × ComponentRef :=
  (edge.consumerComponent, edge.producerId, edge.producerComponent)

/-- The consumer's last call has this edge. -/
def CurrentEdge (calls : List Replacement) (scope : Sensitivity) (producer consumer : ComponentRef) :
    Prop :=
  ∃ edge ∈ lastEdges calls consumer.1, edgeKey edge = (consumer.2, producer) ∧ edge.sensitivity = scope

/-- It is the last of the call's edges between these two components. -/
def KeptEdge (calls : List Replacement) (scope : Sensitivity) (producer consumer : ComponentRef) :
    Prop :=
  ∃ edge, (lastEdges calls consumer.1).reverse.find? (edgeKey · = (consumer.2, producer)) = some edge ∧
    edge.sensitivity = scope

/-- A chain of current edges of the component's own scope leads from a changed component here. -/
def Impacted (calls : List Replacement) (delta : SummaryDelta) (ref : ComponentRef) : Prop :=
  ∃ component ∈ delta.changedComponents,
    TransGen (CurrentEdge calls (scopeOf component)) (delta.oldSummaryId, component.componentKind) ref

/-- The components at one distance from the change, each in the scope of the first component in
key order that has a kept edge of its own scope to it. -/
def Wave (calls : List Replacement) (delta : SummaryDelta) : ℕ → ComponentRef → Sensitivity → Prop
  | 0, ref, scope => ref.1 = delta.oldSummaryId ∧
      ∃ component, delta.changedComponents.find? (·.componentKind = ref.2) = some component ∧
        scopeOf component = scope
  | distance + 1, ref, scope => ∃ producer, Wave calls delta distance producer scope ∧
      KeptEdge calls scope producer ref ∧
      ∀ other scope', Wave calls delta distance other scope' → KeptEdge calls scope' other ref →
        refKey producer ≤ refKey other

/-- The reported pairs are the impacted ones, each once. -/
def ReportsImpact (calls : List Replacement) (delta : SummaryDelta) (graph : ImpactGraph) : Prop :=
  (graph.consumers.map ConsumerRef.ref).Nodup ∧
    ∀ ref, ref ∈ graph.consumers.map ConsumerRef.ref ↔ Impacted calls delta ref

variable {calls : List Replacement} {delta : SummaryDelta} {budget : ImpactBudget}
  {scope scope' : Sensitivity} {producer consumer ref : ComponentRef}

theorem refKey_injective : Function.Injective refKey := by
  rintro ⟨id, kind⟩ ⟨id', kind'⟩ h
  have hlist := congrArg (fun text => text.toList.reverse) h
  simp only [refKey, componentKey, String.toList_append, reverse_append] at hlist
  have hsep : ∀ kind : ℤ, '\x1f' ∉ kind.repr.toList.reverse := fun kind hmem =>
    notMem_intRepr (by decide) (by decide) kind (mem_reverse.mp hmem)
  obtain ⟨hkind, hid⟩ := append_cons_inj (hsep kind) (hsep kind') hlist
  have hkind := intRepr_injective (String.toList_injective (reverse_injective hkind))
  have hid := StableId.toString_injective (String.toList_injective (reverse_injective hid))
  rw [hid, hkind]

def replay (calls : List Replacement) : DependencyIndex :=
  calls.foldl (fun index call => index.replaceCurrentDependencies call.1 call.2) .empty

/-- The primary key of the row of an edge between two components. -/
def rowKey (producer consumer : ComponentRef) : String × ℤ × String × ℤ :=
  (consumer.1.toString, consumer.2, producer.1.toString, producer.2)

variable {edge : DependencyEdge} {user : ConsumerRef} {users : List ConsumerRef}
  {item : FrontierItem} {walk walk' : Walk} {index : DependencyIndex} {distance remaining : ℕ}
  {frontier : Frontier}

theorem primaryKey_currentRow_iff {id : StableId} :
    (currentRow id.toString edge).primaryKey = rowKey producer consumer ↔
      id = consumer.1 ∧ edgeKey edge = (consumer.2, producer) := by
  cases producer
  cases consumer
  simp only [ReverseDependencyRow.primaryKey, currentRow, rowKey, edgeKey, Prod.mk.injEq,
    StableId.toString_injective.eq_iff]

theorem reverseIndex_insertAll (id : String) (edges : List DependencyEdge) (index : DependencyIndex) :
    (edges.foldl (DependencyIndex.insertEdge id) index).reverseDependencyIndex =
      edges.foldl (fun table edge => table.insertOrReplace (currentRow id edge))
        index.reverseDependencyIndex := by
  induction edges generalizing index with
  | nil => rfl
  | cons edge edges ih => exact ih _

theorem find?_replaceCurrentDependencies (index : DependencyIndex) (id : StableId)
    (edges : List DependencyEdge) (producer consumer : ComponentRef) :
    (index.replaceCurrentDependencies id edges).reverseDependencyIndex.find?
        (rowKey producer consumer) =
      if id = consumer.1 then
        (edges.reverse.find? (edgeKey · = (consumer.2, producer))).map (currentRow id.toString)
      else index.reverseDependencyIndex.find? (rowKey producer consumer) := by
  rw [DependencyIndex.replaceCurrentDependencies, reverseIndex_insertAll,
    find?_foldl_insertOrReplace]
  by_cases hid : id = consumer.1
  · -- the rows of the consumer were deleted before the inserts
    have hdeleted : (index.reverseDependencyIndex.deleteWhere
        (·.consumerId = id.toString)).find? (rowKey producer consumer) = none := by
      refine Option.eq_none_iff_forall_ne_some.mpr fun row hrow => ?_
      obtain ⟨hfound, hother⟩ := find?_deleteWhere.mp hrow
      have hkey := congrArg Prod.fst (find?_eq_some.mp hfound).2
      simp only [decide_eq_false_iff_not] at hother
      exact hother (hkey.trans (congrArg StableId.toString hid.symm))
    rw [if_pos hid, hdeleted, Option.or_none]
    congr 1
    refine congrArg (fun p => edges.reverse.find? p) (funext fun edge => ?_)
    rw [decide_eq_decide, primaryKey_currentRow_iff]
    exact and_iff_right hid
  · have hnone : edges.reverse.find? (fun edge =>
        (currentRow id.toString edge).primaryKey = rowKey producer consumer) = none := by
      refine find?_eq_none.mpr fun edge _ hkey => ?_
      exact hid (primaryKey_currentRow_iff.mp (of_decide_eq_true hkey)).1
    rw [if_neg hid, hnone, Option.map_none, Option.none_or]
    refine Option.ext fun row => ?_
    rw [find?_deleteWhere, and_iff_left_iff_imp]
    intro hfound
    have hkey := congrArg Prod.fst (find?_eq_some.mp hfound).2
    refine decide_eq_false fun hsame => hid ?_
    exact StableId.toString_injective (hsame.symm.trans hkey)

theorem find?_replay (calls : List Replacement) (producer consumer : ComponentRef) :
    (replay calls).reverseDependencyIndex.find? (rowKey producer consumer) =
      ((lastEdges calls consumer.1).reverse.find? (edgeKey · = (consumer.2, producer))).map
        (currentRow consumer.1.toString) := by
  induction calls using List.reverseRecOn with
  | nil => rfl
  | append_singleton calls call ih =>
    rw [replay, foldl_append, foldl_cons, foldl_nil, find?_replaceCurrentDependencies, lastEdges,
      reverse_append, reverse_singleton, singleton_append, find?_cons]
    by_cases hid : call.1 = consumer.1
    · simp [hid]
    · simp only [hid, if_false, decide_false]
      exact ih

theorem find?_replay_eq_some {row : ReverseDependencyRow} :
    (replay calls).reverseDependencyIndex.find? (rowKey producer consumer) = some row ↔
      ∃ edge, (lastEdges calls consumer.1).reverse.find? (edgeKey · = (consumer.2, producer)) =
        some edge ∧ currentRow consumer.1.toString edge = row := by
  rw [find?_replay, Option.map_eq_some_iff]

/-- The stored rows that name a producer are its kept edges. -/
theorem mem_usersOf (h : (replay calls).usersOf producer.1 producer.2 = .ok users) :
    user ∈ users ↔ KeptEdge calls user.sensitivity producer user.ref := by
  rw [mem_of_mapM h]
  simp only [(sortOn_perm _ _).mem_iff, mem_filter, decide_eq_true_eq]
  constructor
  · rintro ⟨row, ⟨hmem, hproducer, hcomponent⟩, hread⟩
    obtain ⟨id, hid, hread⟩ := bind_eq_ok.mp hread
    obtain rfl := pure_eq_ok.mp hread
    have hkey : row.primaryKey = rowKey producer (id, row.consumerComponent) := by
      simp only [ReverseDependencyRow.primaryKey, rowKey, hproducer, hcomponent,
        toString_of_parseStableId hid]
    obtain ⟨edge, hlast, hrow⟩ :=
      find?_replay_eq_some.mp (find?_eq_some.mpr ⟨hmem, hkey⟩)
    refine ⟨edge, hlast, ?_⟩
    rw [← hrow, currentRow, sensitivityFromInt_toInt]
  · rintro ⟨edge, hlast, hscope⟩
    have hrow := find?_replay_eq_some.mpr ⟨edge, hlast, rfl⟩
    obtain ⟨hmem, hkey⟩ := find?_eq_some.mp hrow
    obtain ⟨-, hedge⟩ := primaryKey_currentRow_iff.mp hkey
    have hproducer := congrArg Prod.snd hedge
    have hrows : currentRow user.consumerId.toString edge ∈
        (replay calls).reverseDependencyIndex.rows.filter (fun row =>
          row.producerId = producer.1.toString ∧ row.producerComponent = producer.2) := by
      refine mem_filter.mpr ⟨hmem, decide_eq_true ⟨?_, ?_⟩⟩
      · exact congrArg (fun ref : ComponentRef => ref.1.toString) hproducer
      · exact congrArg Prod.snd hproducer
    -- the query succeeded, so the row of the edge was read
    obtain ⟨read, -, hread⟩ :=
      forall_of_mapM h _ ((sortOn_perm _ _).mem_iff.mpr hrows)
    refine ⟨_, ⟨hmem, of_decide_eq_true (mem_filter.mp hrows).2⟩, ?_⟩
    obtain ⟨id, hid, -⟩ := bind_eq_ok.mp hread
    obtain rfl := StableId.toString_injective (toString_of_parseStableId hid)
    refine bind_eq_ok.mpr ⟨_, hid, pure_eq_ok.mpr ?_⟩
    obtain ⟨uid, ukind, uscope⟩ := user
    obtain rfl : edge.sensitivity = uscope := hscope
    obtain rfl : edge.consumerComponent = ukind := congrArg Prod.fst hedge
    rw [currentRow, sensitivityFromInt_toInt]

/-- The consumers an item of the frontier schedules. -/
def arrivals (index : DependencyIndex) (item : FrontierItem) : List ConsumerRef :=
  match index.usersOf item.id item.component with
  | .ok users => users.filter (·.sensitivity = item.scope)
  | .error _ => []

/-- The item a scheduled consumer becomes. -/
def arrivalItem (arrival : FrontierItem × ConsumerRef) : FrontierItem :=
  ⟨arrival.2.consumerId, arrival.2.consumerComponent, arrival.1.scope⟩

def frontierArrivals (index : DependencyIndex) (items : List FrontierItem) :
    List (FrontierItem × ConsumerRef) :=
  items.flatMap fun item => (arrivals index item).map (item, ·)

/-- The walk with some consumers scheduled. -/
def Walk.schedule (walk : Walk) (scheduled : List (FrontierItem × ConsumerRef)) : Walk where
  collected := scheduled.foldl (fun m x => m.emplace (consumerKey x.2) x.2) walk.collected
  nextFrontier :=
    scheduled.foldl (fun m x => m.emplace (consumerKey x.2) (arrivalItem x)) walk.nextFrontier
  exploredEdges := walk.exploredEdges
  truncated := walk.truncated

/-- Two walks that differ at most in the count of edges. -/
def Walk.SameFound (walk walk' : Walk) : Prop :=
  walk.collected = walk'.collected ∧ walk.nextFrontier = walk'.nextFrontier ∧
    walk.truncated = walk'.truncated

theorem truncated_followEdges (h : walk.truncated = true) :
    (users.foldl (followEdge budget item) walk).truncated = true := by
  induction users generalizing walk with
  | nil => exact h
  | cons user users ih =>
    refine ih ?_
    rw [followEdge, if_pos h]
    exact h

theorem Walk.SameFound.trans {a b c : Walk} (h : a.SameFound b) (h' : b.SameFound c) :
    a.SameFound c :=
  ⟨h.1.trans h'.1, h.2.1.trans h'.2.1, h.2.2.trans h'.2.2⟩

theorem Walk.SameFound.schedule {a b : Walk} (h : a.SameFound b)
    (scheduled : List (FrontierItem × ConsumerRef)) :
    (a.schedule scheduled).SameFound (b.schedule scheduled) := by
  obtain ⟨hcollected, hfrontier, htruncated⟩ := h
  simp only [Walk.SameFound, Walk.schedule, hcollected, hfrontier, htruncated, and_self]

theorem Walk.schedule_append (walk : Walk) (first rest : List (FrontierItem × ConsumerRef)) :
    walk.schedule (first ++ rest) = (walk.schedule first).schedule rest := by
  simp only [Walk.schedule, foldl_append]

/-- One user of the item, when the walk goes on. -/
theorem followEdge_found (h : (followEdge budget item walk user).truncated = false) :
    (followEdge budget item walk user).SameFound
      (walk.schedule (([user].filter (·.sensitivity = item.scope)).map (item, ·))) := by
  rw [followEdge] at h ⊢
  by_cases hwalk : walk.truncated = true
  · rw [if_pos hwalk, hwalk] at h
    cases h
  · rw [if_neg hwalk] at h ⊢
    by_cases hscope : user.sensitivity = item.scope
    · have hmatch : [user].filter (·.sensitivity = item.scope) = [user] := by simp [hscope]
      rw [if_neg (not_not.mpr hscope)] at h ⊢
      rw [hmatch]
      by_cases hfull : (walk.collected.find? (consumerKey user)).isNone ∧
          budget.maxConsumers ≤ walk.collected.entries.length
      · simp only [if_pos hfull] at h
        cases h
      · simp only [if_neg hfull]
        exact ⟨rfl, rfl, rfl⟩
    · have hskip : [user].filter (·.sensitivity = item.scope) = [] := by simp [hscope]
      rw [if_pos hscope, hskip]
      exact ⟨rfl, rfl, rfl⟩

theorem followEdges_found (h : (users.foldl (followEdge budget item) walk).truncated = false) :
    (users.foldl (followEdge budget item) walk).SameFound
      (walk.schedule ((users.filter (·.sensitivity = item.scope)).map (item, ·))) := by
  induction users generalizing walk with
  | nil => exact ⟨rfl, rfl, rfl⟩
  | cons user users ih =>
    have hopen : (followEdge budget item walk user).truncated = false := by
      by_contra htruncated
      rw [foldl_cons, truncated_followEdges (by simpa using htruncated)] at h
      cases h
    rw [← singleton_append, filter_append, map_append, Walk.schedule_append]
    exact (ih h).trans ((followEdge_found hopen).schedule _)

theorem expandItem_found (h : expandItem index budget walk item = .ok walk')
    (hopen : walk'.truncated = false) :
    (∃ users, index.usersOf item.id item.component = .ok users) ∧
      walk'.SameFound (walk.schedule ((arrivals index item).map (item, ·))) := by
  rw [expandItem] at h
  split_ifs at h with htruncated
  · rw [pure_eq_ok.mp h, hopen] at htruncated
    cases htruncated
  · obtain ⟨users, husers, h⟩ := bind_eq_ok.mp h
    obtain rfl := pure_eq_ok.mp h
    refine ⟨⟨users, husers⟩, ?_⟩
    rw [arrivals, husers]
    exact followEdges_found hopen

/-- An item that leaves the walk open found it open. -/
theorem truncated_expandItem (h : expandItem index budget walk item = .ok walk')
    (hopen : walk'.truncated = false) : walk.truncated = false := by
  have hsame := (expandItem_found h hopen).2.2.2
  exact hsame.symm.trans hopen

theorem expandItems_found {items : List FrontierItem}
    (h : items.foldlM (expandItem index budget) walk = .ok walk') (hopen : walk'.truncated = false) :
    (∀ item ∈ items, ∃ users, index.usersOf item.id item.component = .ok users) ∧
      walk'.SameFound (walk.schedule (frontierArrivals index items)) := by
  induction items using List.reverseRecOn generalizing walk' with
  | nil =>
    rw [← pure_eq_ok.mp h]
    exact ⟨nofun, rfl, rfl, rfl⟩
  | append_singleton items item ih =>
    rw [foldlM_append] at h
    obtain ⟨mid, hmid, h⟩ := bind_eq_ok.mp h
    obtain ⟨last, hlast, h⟩ := bind_eq_ok.mp h
    obtain rfl := pure_eq_ok.mp h
    obtain ⟨husers, hfound⟩ := expandItem_found hlast hopen
    obtain ⟨hbefore, hmidFound⟩ := ih hmid (truncated_expandItem hlast hopen)
    refine ⟨fun other hother => ?_, ?_⟩
    · rcases mem_append.mp hother with hother | hother
      · exact hbefore other hother
      · rw [mem_singleton.mp hother]
        exact husers
    · have hsplit : frontierArrivals index (items ++ [item]) =
          frontierArrivals index items ++ (arrivals index item).map (item, ·) := by
        simp [frontierArrivals]
      rw [hsplit, Walk.schedule_append]
      exact hfound.trans (hmidFound.schedule _)

/-- The frontier lists a wave under the keys of its components. -/
structure HoldsWave (calls : List Replacement) (delta : SummaryDelta) (distance : ℕ)
    (frontier : Frontier) : Prop where
  keyed : ∀ key item, frontier.find? key = some item → key = refKey item.ref
  wave : ∀ ref scope, frontier.find? (refKey ref) = some ⟨ref.1, ref.2, scope⟩ ↔
    Wave calls delta distance ref scope

theorem HoldsWave.of_entry (h : HoldsWave calls delta distance frontier) {key : String}
    (hentry : (key, item) ∈ frontier.entries) :
    key = refKey item.ref ∧ Wave calls delta distance item.ref item.scope := by
  have hfound := find?_eq_some.mpr hentry
  obtain rfl := h.keyed _ _ hfound
  exact ⟨rfl, (h.wave _ _).mp hfound⟩

theorem HoldsWave.isSome_iff (h : HoldsWave calls delta distance frontier) :
    (frontier.find? (refKey ref)).isSome ↔ ∃ scope, Wave calls delta distance ref scope := by
  rw [Option.isSome_iff_exists]
  constructor
  · rintro ⟨item, hitem⟩
    have hkey : ref = item.ref := refKey_injective (h.keyed _ _ hitem)
    subst hkey
    exact ⟨item.scope, (h.wave _ _).mp hitem⟩
  · rintro ⟨scope, hwave⟩
    exact ⟨_, (h.wave _ _).mpr hwave⟩

theorem holdsWave_seedFrontier (calls : List Replacement) (delta : SummaryDelta) :
    HoldsWave calls delta 0 (seedFrontier delta) := by
  have hfind : ∀ key, (seedFrontier delta).find? key = (delta.changedComponents.find? fun component =>
      componentKey delta.oldSummaryId component.componentKind = key).map fun component =>
        ⟨delta.oldSummaryId, component.componentKind, scopeOf component⟩ := by
    intro key
    rw [seedFrontier, find?_foldl_emplace, find?_empty, Option.none_or]
  refine ⟨fun key item hitem => ?_, fun ref scope => ?_⟩
  · rw [hfind, Option.map_eq_some_iff] at hitem
    obtain ⟨component, hcomponent, rfl⟩ := hitem
    exact (of_find? hcomponent).2.symm
  · obtain ⟨id, kind⟩ := ref
    have hkey : ∀ component : ComponentDelta,
        componentKey delta.oldSummaryId component.componentKind = refKey (id, kind) ↔
          delta.oldSummaryId = id ∧ component.componentKind = kind := by
      intro component
      have hpair := refKey_injective.eq_iff (a := (delta.oldSummaryId, component.componentKind))
        (b := (id, kind))
      rwa [Prod.mk.injEq] at hpair
    rw [hfind, Wave]
    simp only [hkey]
    by_cases hid : id = delta.oldSummaryId
    · subst hid
      simp only [true_and, Option.map_eq_some_iff, FrontierItem.mk.injEq]
      refine exists_congr fun component => and_congr_right fun hcomponent => ?_
      exact and_iff_right (of_find? hcomponent).2
    · simp [hid, Ne.symm hid]

theorem exists_arrival_iff
    (husers : ∃ users, (replay calls).usersOf item.id item.component = .ok users) :
    (∃ user ∈ arrivals (replay calls) item, user.ref = ref) ↔
      KeptEdge calls item.scope item.ref ref := by
  obtain ⟨users, husers⟩ := husers
  have hread : (replay calls).usersOf item.ref.1 item.ref.2 = .ok users := husers
  have hmem : ∀ user, user ∈ users ↔ KeptEdge calls user.sensitivity item.ref user.ref :=
    fun user => mem_usersOf hread
  simp only [arrivals, husers, mem_filter, hmem, decide_eq_true_eq]
  constructor
  · rintro ⟨user, ⟨hkept, hscope⟩, rfl⟩
    rwa [← hscope]
  · intro hkept
    exact ⟨⟨ref.1, ref.2, item.scope⟩, ⟨hkept, rfl⟩, rfl⟩

/-- The first arrival at a component is that of the first item in key order that schedules it. -/
theorem find?_frontierArrivals (husers : ∀ item ∈ frontier.entries.map Prod.snd,
      ∃ users, (replay calls).usersOf item.id item.component = .ok users) :
    (∃ user, (frontierArrivals (replay calls) (frontier.entries.map Prod.snd)).find?
        (consumerKey ·.2 = refKey ref) = some (item, user)) ↔
      ∃ key, (key, item) ∈ frontier.entries ∧ KeptEdge calls item.scope item.ref ref ∧
        ∀ other ∈ frontier.entries, KeptEdge calls other.2.scope other.2.ref ref → key ≤ other.1 := by
  let first := fun entry : String × FrontierItem =>
    ((arrivals (replay calls) entry.2).map (entry.2, ·)).find? (consumerKey ·.2 = refKey ref)
  have hkept : ∀ entry ∈ frontier.entries,
      (first entry).isSome ↔ KeptEdge calls entry.2.scope entry.2.ref ref := by
    intro entry hentry
    rw [← exists_arrival_iff (husers _ (mem_map_of_mem hentry)), find?_isSome]
    simp only [mem_map, decide_eq_true_eq]
    constructor
    · rintro ⟨_, ⟨user, huser, rfl⟩, hkey⟩
      exact ⟨user, huser, refKey_injective hkey⟩
    · rintro ⟨user, huser, rfl⟩
      exact ⟨_, ⟨user, huser, rfl⟩, rfl⟩
  have hitem : ∀ entry x, first entry = some x → x.1 = entry.2 := by
    intro entry x hx
    obtain ⟨user, -, rfl⟩ := mem_map.mp (mem_of_find?_eq_some hx)
    rfl
  have hsearch : (frontierArrivals (replay calls) (frontier.entries.map Prod.snd)).find?
      (consumerKey ·.2 = refKey ref) = frontier.entries.findSome? first := by
    rw [frontierArrivals, find?_flatMap, findSome?_map]
    rfl
  rw [hsearch]
  simp only [findSome?_eq_some_iff_least frontier.sorted]
  constructor
  · rintro ⟨user, entry, hentry, hfirst, hleast⟩
    obtain rfl := hitem _ _ hfirst
    refine ⟨entry.1, hentry, (hkept _ hentry).mp (by rw [hfirst, Option.isSome_some]), ?_⟩
    exact fun other hother hedge => hleast other hother ((hkept _ hother).mpr hedge)
  · rintro ⟨key, hentry, hedge, hleast⟩
    obtain ⟨x, hx⟩ := Option.isSome_iff_exists.mp ((hkept _ hentry).mpr hedge)
    obtain rfl : x.1 = item := hitem _ _ hx
    refine ⟨x.2, _, hentry, hx, fun other hother hsome => ?_⟩
    exact hleast other hother ((hkept _ hother).mp hsome)

/-- Scheduling from one wave gives the next. -/
theorem holdsWave_schedule (hwave : HoldsWave calls delta distance frontier)
    (husers : ∀ item ∈ frontier.entries.map Prod.snd,
      ∃ users, (replay calls).usersOf item.id item.component = .ok users)
    (hempty : walk.nextFrontier = .empty) :
    HoldsWave calls delta (distance + 1) (walk.schedule
      (frontierArrivals (replay calls) (frontier.entries.map Prod.snd))).nextFrontier := by
  have hfind : ∀ key, (walk.schedule
      (frontierArrivals (replay calls) (frontier.entries.map Prod.snd))).nextFrontier.find? key =
        ((frontierArrivals (replay calls) (frontier.entries.map Prod.snd)).find?
          (consumerKey ·.2 = key)).map arrivalItem := by
    intro key
    rw [Walk.schedule, find?_foldl_emplace, hempty, find?_empty, Option.none_or]
  refine ⟨fun key item hitem => ?_, fun ref scope => ?_⟩
  · rw [hfind, Option.map_eq_some_iff] at hitem
    obtain ⟨x, hx, rfl⟩ := hitem
    exact (of_find? hx).2.symm
  · rw [hfind, Option.map_eq_some_iff, Wave]
    constructor
    · rintro ⟨⟨item, user⟩, hx, harrival⟩
      obtain rfl : item.scope = scope := congrArg FrontierItem.scope harrival
      obtain ⟨key, hentry, hedge, hleast⟩ := (find?_frontierArrivals husers).mp ⟨user, hx⟩
      obtain ⟨rfl, hitem⟩ := hwave.of_entry hentry
      refine ⟨item.ref, hitem, hedge, fun other scope' hother hedge' => ?_⟩
      exact hleast _ (find?_eq_some.mp ((hwave.wave _ _).mpr hother)) hedge'
    · rintro ⟨producer, hproducer, hedge, hleast⟩
      have hentry := find?_eq_some.mp ((hwave.wave _ _).mpr hproducer)
      have harrival : ∃ user, (frontierArrivals (replay calls) (frontier.entries.map Prod.snd)).find?
          (consumerKey ·.2 = refKey ref) = some (⟨producer.1, producer.2, scope⟩, user) := by
        refine (find?_frontierArrivals husers).mpr ⟨refKey producer, hentry, hedge, ?_⟩
        intro other hother hedge'
        obtain ⟨hkey, hwave'⟩ := hwave.of_entry hother
        exact hkey ▸ hleast _ _ hwave' hedge'
      obtain ⟨user, hx⟩ := harrival
      have huser : user.ref = ref := refKey_injective (of_find? hx).2
      subst huser
      exact ⟨_, hx, rfl⟩

theorem KeptEdge.current (h : KeptEdge calls scope producer consumer) :
    CurrentEdge calls scope producer consumer := by
  obtain ⟨edge, hlast, hscope⟩ := h
  exact ⟨edge, mem_reverse.mp (of_find? hlast).1, (of_find? hlast).2, hscope⟩

/-- A component that a wave schedules is in the next one, in some scope. -/
theorem exists_wave_succ (hwave : Wave calls delta distance producer scope)
    (hedge : KeptEdge calls scope producer consumer) :
    ∃ scope', Wave calls delta (distance + 1) consumer scope' := by
  classical
  let producers := ((lastEdges calls consumer.1).map fun edge =>
    (edge.producerId, edge.producerComponent)).toFinset.filter fun other =>
      ∃ scope', Wave calls delta distance other scope' ∧ KeptEdge calls scope' other consumer
  have hmem : ∀ {other scope'}, Wave calls delta distance other scope' →
      KeptEdge calls scope' other consumer → other ∈ producers := by
    intro other scope' hother hedge'
    obtain ⟨edge, hlisted, hkey, -⟩ := hedge'.current
    refine Finset.mem_filter.mpr ⟨mem_toFinset.mpr (mem_map.mpr ⟨edge, hlisted, ?_⟩),
      scope', hother, hedge'⟩
    exact congrArg Prod.snd hkey
  obtain ⟨least, hleast, hmin⟩ := producers.exists_min_image refKey ⟨_, hmem hwave hedge⟩
  obtain ⟨scope', hwave', hedge'⟩ := (Finset.mem_filter.mp hleast).2
  exact ⟨scope', least, hwave', hedge', fun other _ hother h => hmin other (hmem hother h)⟩

/-- No wave follows an empty one. -/
theorem not_wave_of_le (h : ∀ ref scope, ¬Wave calls delta distance ref scope) {n : ℕ}
    (hn : distance ≤ n) : ∀ ref scope, ¬Wave calls delta n ref scope := by
  induction hn with
  | refl => exact h
  | step _ ih =>
    rintro ref scope ⟨producer, hproducer, -⟩
    exact ih producer scope hproducer

/-- Every collected consumer stands under its own key. -/
def Walk.Keyed (walk : Walk) : Prop :=
  ∀ key user, walk.collected.find? key = some user → key = refKey user.ref

/-- What is collected at one depth is what the next frontier holds. -/
theorem isSome_collected_schedule (walk : Walk) (hempty : walk.nextFrontier = .empty)
    (scheduled : List (FrontierItem × ConsumerRef)) (key : String) :
    ((walk.schedule scheduled).collected.find? key).isSome ↔
      (walk.collected.find? key).isSome ∨
        ((walk.schedule scheduled).nextFrontier.find? key).isSome := by
  simp only [Walk.schedule, find?_foldl_emplace, hempty, find?_empty,
    Option.none_or, Option.isSome_or, Option.isSome_map, Bool.or_eq_true]

theorem walkDepths_of_truncated (h : walk.truncated = true) :
    walkDepths index budget remaining frontier walk = pure walk := by
  cases remaining <;> rw [walkDepths, if_pos (.inr h)]

/-- A component on one of the first waves after the change. -/
def Reached (calls : List Replacement) (delta : SummaryDelta) (distance : ℕ) (ref : ComponentRef) :
    Prop :=
  ∃ n < distance, ∃ scope, Wave calls delta (n + 1) ref scope

/-- The walk holds components with a property only, each under its key, and not too many. -/
structure Walk.Bounded (budget : ImpactBudget) (S : ComponentRef → Prop) (walk : Walk) : Prop where
  held : ∀ key user, walk.collected.find? key = some user → key = refKey user.ref ∧ S user.ref
  size : walk.collected.entries.length ≤ budget.maxConsumers

/-- A component with the property found no room. -/
def Walk.Overflows (budget : ImpactBudget) (S : ComponentRef → Prop) (walk : Walk) : Prop :=
  walk.truncated = true ∧ budget.maxConsumers ≤ walk.collected.entries.length ∧
    ∃ ref, S ref ∧ walk.collected.find? (refKey ref) = none

/-- The walk keeps to its bounds, and is cut short only when it overflows. -/
def Walk.Fits (budget : ImpactBudget) (S : ComponentRef → Prop) (walk : Walk) : Prop :=
  walk.Bounded budget S ∧ (walk.truncated = true → walk.Overflows budget S)

section Budget

variable {S S' : ComponentRef → Prop}

theorem Walk.Bounded.mono (h : walk.Bounded budget S) (hS : ∀ ref, S ref → S' ref) :
    walk.Bounded budget S' :=
  ⟨fun key user huser => (h.held key user huser).imp_right (hS _), h.size⟩

theorem Walk.Bounded.reached (h : walk.Bounded budget S)
    (href : (walk.collected.find? (refKey ref)).isSome) : S ref := by
  obtain ⟨user, huser⟩ := Option.isSome_iff_exists.mp href
  obtain ⟨hkey, huser⟩ := h.held _ _ huser
  rwa [refKey_injective hkey]

/-- Only a walk without room is cut short while it follows edges. -/
theorem followEdge_bounded (hS : user.sensitivity = item.scope → S user.ref)
    (h : walk.Fits budget S) : (followEdge budget item walk user).Fits budget S := by
  obtain ⟨hbounded, hover⟩ := h
  simp only [followEdge]
  split_ifs with htruncated hscope hfull
  · exact ⟨hbounded, hover⟩
  · exact ⟨⟨hbounded.held, hbounded.size⟩, fun h => absurd h htruncated⟩
  · refine ⟨⟨hbounded.held, hbounded.size⟩, fun _ => ⟨rfl, hfull.2, user.ref, ?_, ?_⟩⟩
    · exact hS (not_not.mp hscope)
    · exact Option.isNone_iff_eq_none.mp hfull.1
  · refine ⟨⟨fun key u hu => ?_, ?_⟩, fun h => absurd h htruncated⟩
    · rw [find?_emplace] at hu
      split_ifs at hu with hkey
      · cases hfind : walk.collected.find? (consumerKey user) with
        | none =>
          rw [hfind] at hu
          obtain rfl := Option.some.inj hu
          exact ⟨hkey, hS (not_not.mp hscope)⟩
        | some v =>
          rw [hfind] at hu
          obtain rfl := Option.some.inj hu
          exact hkey ▸ hbounded.held _ _ hfind
      · exact hbounded.held key u hu
    · have hsize := hbounded.size
      have hassign := walk.collected.length_assign_le (consumerKey user) user
      rw [emplace]
      split_ifs with hsome
      · exact hsize
      · have hroom : ¬budget.maxConsumers ≤ walk.collected.entries.length := fun hle =>
          hfull ⟨by simpa using hsome, hle⟩
        exact hassign.trans (by omega)

theorem followEdges_bounded (hS : ∀ user ∈ users, user.sensitivity = item.scope → S user.ref)
    (h : walk.Fits budget S) : (users.foldl (followEdge budget item) walk).Fits budget S := by
  induction users generalizing walk with
  | nil => exact h
  | cons user users ih =>
    exact ih (fun other hother => hS other (mem_cons_of_mem _ hother))
      (followEdge_bounded (hS user mem_cons_self) h)

theorem expandItems_bounded {items : List FrontierItem}
    (hS : ∀ item ∈ items, ∀ users, index.usersOf item.id item.component = .ok users →
      ∀ user ∈ users, user.sensitivity = item.scope → S user.ref)
    (hwalk : walk.Fits budget S) (h : items.foldlM (expandItem index budget) walk = .ok walk') :
    walk'.Fits budget S := by
  induction items generalizing walk with
  | nil => rwa [← pure_eq_ok.mp h]
  | cons item items ih =>
    obtain ⟨mid, hmid, h⟩ := bind_eq_ok.mp h
    refine ih (fun other hother => hS other (mem_cons_of_mem _ hother)) ?_ h
    rw [expandItem] at hmid
    split_ifs at hmid
    · rwa [← pure_eq_ok.mp hmid]
    · obtain ⟨users, husers, hmid⟩ := bind_eq_ok.mp hmid
      rw [← pure_eq_ok.mp hmid]
      exact followEdges_bounded (hS item mem_cons_self users husers) hwalk

end Budget

theorem HoldsWave.empty (hwave : HoldsWave calls delta distance frontier)
    (hempty : frontier.entries.isEmpty) (ref : ComponentRef) (scope : Sensitivity) :
    ¬Wave calls delta distance ref scope := by
  intro hother
  have hfound := find?_eq_some.mp ((hwave.wave ref scope).mpr hother)
  rw [List.isEmpty_iff.mp hempty] at hfound
  exact absurd hfound not_mem_nil

theorem Reached.mono {n : ℕ} (hn : distance ≤ n) (ref : ComponentRef)
    (h : Reached calls delta distance ref) : Reached calls delta n ref := by
  obtain ⟨m, hm, hreached⟩ := h
  exact ⟨m, hm.trans_le hn, hreached⟩

/-- One depth of the walk reaches the next wave. -/
theorem expandFrontier_bounded (hwave : HoldsWave calls delta distance frontier)
    (hopen : walk.truncated = false) (hbounded : walk.Bounded budget (Reached calls delta distance))
    (h : expandFrontier (replay calls) budget frontier walk = .ok walk') :
    walk'.Fits budget (Reached calls delta (distance + 1)) := by
  have hnext := hbounded.mono (Reached.mono (Nat.le_succ distance))
  refine expandItems_bounded ?_ ⟨⟨?_, ?_⟩, ?_⟩ h
  · intro item hitem users husers user huser hscope
    obtain ⟨⟨key, item⟩, hentry, rfl⟩ := mem_map.mp hitem
    have hkept := (@mem_usersOf _ item.ref _ _ husers).mp huser
    obtain ⟨scope, hnext⟩ := exists_wave_succ (hwave.of_entry hentry).2 (hscope ▸ hkept)
    exact ⟨distance, Nat.lt_succ_self _, scope, hnext⟩
  · exact hnext.held
  · exact hnext.size
  · exact fun h => absurd (hopen.symm.trans h) (by decide)

/-- A walk ends without room, or with the first waves collected; then it is cut short if there is a
wave at the last distance. -/
theorem walkDepths_reached {last : ℕ} (hlast : distance + remaining = last)
    (hwave : HoldsWave calls delta distance frontier) (hopen : walk.truncated = false)
    (hbounded : walk.Bounded budget (Reached calls delta distance))
    (hall : ∀ ref, Reached calls delta distance ref → (walk.collected.find? (refKey ref)).isSome)
    (h : walkDepths (replay calls) budget remaining frontier walk = .ok walk') :
    walk'.Bounded budget (Reached calls delta last) ∧
      (walk'.Overflows budget (Reached calls delta last) ∨
        (∀ ref, Reached calls delta last ref → (walk'.collected.find? (refKey ref)).isSome) ∧
        (walk'.truncated = true ↔ ∃ ref scope, Wave calls delta last ref scope)) := by
  induction remaining generalizing distance frontier walk with
  | zero =>
    obtain rfl : distance = last := hlast
    rw [walkDepths] at h
    split_ifs at h with hdone
    · obtain rfl := pure_eq_ok.mp h
      refine ⟨hbounded, .inr ⟨hall, ?_⟩⟩
      rw [hopen] at hdone ⊢
      simpa using hwave.empty (hdone.resolve_right (by decide))
    · obtain rfl := pure_eq_ok.mp h
      refine ⟨⟨hbounded.held, hbounded.size⟩, .inr ⟨hall, iff_of_true rfl ?_⟩⟩
      obtain ⟨⟨key, item⟩, hentry⟩ := exists_mem_of_ne_nil frontier.entries fun hnil =>
        hdone (.inl (by rw [hnil]; rfl))
      exact ⟨_, _, (hwave.of_entry hentry).2⟩
  | succ remaining ih =>
    rw [walkDepths] at h
    split_ifs at h with hdone
    · obtain rfl := pure_eq_ok.mp h
      have hempty := hwave.empty (hdone.resolve_right (by rw [hopen]; decide))
      refine ⟨hbounded.mono (Reached.mono (by omega)), .inr ⟨fun ref href => ?_, ?_⟩⟩
      · obtain ⟨n, hn, scope, hn'⟩ := href
        refine hall ref ⟨n, ?_, scope, hn'⟩
        by_contra hle
        exact not_wave_of_le hempty (by omega) ref scope hn'
      · rw [hopen]
        simpa using not_wave_of_le hempty (by omega)
    · obtain ⟨mid, hmid, h⟩ := bind_eq_ok.mp h
      obtain ⟨hmidBounded, hover⟩ := expandFrontier_bounded hwave hopen hbounded hmid
      by_cases htruncated : mid.truncated = true
      · rw [walkDepths_of_truncated htruncated] at h
        obtain rfl := pure_eq_ok.mp h
        obtain ⟨-, hfull, ref, href, hnone⟩ := hover htruncated
        have hmono := @Reached.mono calls delta (distance + 1) last (by omega)
        exact ⟨hmidBounded.mono hmono, .inl ⟨htruncated, hfull, ref, hmono ref href, hnone⟩⟩
      · obtain ⟨husers, hcollected, hfrontier, -⟩ := expandItems_found hmid (by simpa using htruncated)
        have hnext : HoldsWave calls delta (distance + 1) mid.nextFrontier := by
          rw [hfrontier]
          exact holdsWave_schedule hwave husers rfl
        refine ih (by omega) hnext (by simpa using htruncated) hmidBounded ?_ h
        rintro ref ⟨n, hn, scope, hn'⟩
        rw [hcollected, isSome_collected_schedule _ rfl, ← hfrontier, hnext.isSome_iff]
        by_cases hlt : n < distance
        · exact .inl (hall ref ⟨n, hlt, scope, hn'⟩)
        · obtain rfl : n = distance := by omega
          exact .inr ⟨scope, hn'⟩

theorem mem_consumers_iff (hkeyed : walk.Keyed) :
    ref ∈ (walk.collected.entries.map Prod.snd).map ConsumerRef.ref ↔
      (walk.collected.find? (refKey ref)).isSome := by
  rw [Option.isSome_iff_exists]
  simp only [mem_map, Prod.exists, exists_eq_right]
  constructor
  · rintro ⟨user, ⟨key, hentry⟩, rfl⟩
    have hfound := find?_eq_some.mpr hentry
    rw [hkeyed key user hfound] at hfound
    exact ⟨user, hfound⟩
  · rintro ⟨user, hfound⟩
    refine ⟨user, ⟨_, find?_eq_some.mp hfound⟩, ?_⟩
    exact (refKey_injective (hkeyed _ _ hfound)).symm

theorem nodup_consumers (hkeyed : walk.Keyed) :
    ((walk.collected.entries.map Prod.snd).map ConsumerRef.ref).Nodup := by
  have hkeys : (((walk.collected.entries.map Prod.snd).map ConsumerRef.ref).map refKey) =
      walk.collected.entries.map Prod.fst := by
    rw [List.map_map, List.map_map]
    refine map_congr_left fun entry hentry => ?_
    exact (hkeyed _ _ (find?_eq_some.mpr hentry)).symm
  refine Nodup.of_map refKey ?_
  rw [hkeys, List.Nodup, pairwise_map]
  exact walk.collected.sorted.imp fun hlt => ne_of_lt hlt

theorem Walk.Bounded.keyed {S : ComponentRef → Prop} (h : walk.Bounded budget S) : walk.Keyed :=
  fun key user huser => (h.held key user huser).1

/-- How the walk of an impact set ends. -/
theorem getImpactSet_reached {graph : ImpactGraph}
    (h : (replay calls).getImpactSet delta budget = .ok graph) :
    ∃ walk : Walk, graph = ⟨walk.collected.entries.map Prod.snd, walk.exploredEdges, walk.truncated⟩ ∧
      walk.Bounded budget (Reached calls delta budget.maxDepth) ∧
      (walk.Overflows budget (Reached calls delta budget.maxDepth) ∨
        (∀ ref, Reached calls delta budget.maxDepth ref →
          (walk.collected.find? (refKey ref)).isSome) ∧
        (walk.truncated = true ↔ ∃ ref scope, Wave calls delta budget.maxDepth ref scope)) := by
  obtain ⟨walk, hwalk, h⟩ := bind_eq_ok.mp h
  refine ⟨walk, (pure_eq_ok.mp h).symm, ?_⟩
  refine walkDepths_reached (Nat.zero_add _) (holdsWave_seedFrontier calls delta) rfl ?_ ?_ hwalk
  · refine ⟨fun key user huser => ?_, Nat.zero_le _⟩
    cases huser
  · rintro ref ⟨n, hn, -⟩
    exact absurd hn (Nat.not_lt_zero n)

/-- An untruncated impact set is the union of the waves, each component once. -/
theorem getImpactSet_waves {graph : ImpactGraph}
    (h : (replay calls).getImpactSet delta budget = .ok graph) (hopen : graph.truncated = false) :
    (graph.consumers.map ConsumerRef.ref).Nodup ∧
      ∀ ref, ref ∈ graph.consumers.map ConsumerRef.ref ↔
        ∃ n scope, Wave calls delta (n + 1) ref scope := by
  obtain ⟨walk, rfl, hbounded, hend⟩ := getImpactSet_reached h
  refine ⟨nodup_consumers hbounded.keyed, fun ref => ?_⟩
  rw [mem_consumers_iff hbounded.keyed]
  constructor
  · intro href
    obtain ⟨n, -, hn⟩ := hbounded.reached href
    exact ⟨n, hn⟩
  · rintro ⟨n, scope, hn⟩
    rcases hend with ⟨htruncated, -⟩ | ⟨hall, hiff⟩
    · exact absurd (hopen.symm.trans htruncated) (by decide)
    refine hall ref ⟨n, ?_, scope, hn⟩
    by_contra hle
    have hempty : ∀ ref scope, ¬Wave calls delta budget.maxDepth ref scope := fun ref scope hw =>
      absurd (hopen.symm.trans (hiff.mpr ⟨ref, scope, hw⟩)) (by decide)
    exact not_wave_of_le hempty (by omega) ref scope hn

/-- A wave is made of chains of current edges. -/
theorem Wave.chain (h : Wave calls delta distance ref scope) :
    ∃ component ∈ delta.changedComponents, scopeOf component = scope ∧
      ReflTransGen (CurrentEdge calls scope) (delta.oldSummaryId, component.componentKind) ref := by
  induction distance generalizing ref with
  | zero =>
    obtain ⟨id, kind⟩ := ref
    obtain ⟨hid, component, hfirst, hscope⟩ := h
    obtain rfl : id = delta.oldSummaryId := hid
    refine ⟨component, (of_find? hfirst).1, hscope, ?_⟩
    rw [(of_find? hfirst).2]
  | succ distance ih =>
    obtain ⟨producer, hproducer, hedge, -⟩ := h
    obtain ⟨component, hmem, hscope, hchain⟩ := ih hproducer
    exact ⟨component, hmem, hscope, hchain.tail hedge.current⟩

theorem Wave.impacted (h : Wave calls delta (distance + 1) ref scope) :
    Impacted calls delta ref := by
  obtain ⟨producer, hproducer, hedge, -⟩ := h
  obtain ⟨component, hmem, rfl, hchain⟩ := hproducer.chain
  exact ⟨component, hmem, TransGen.tail' hchain hedge.current⟩

/-- No two edges of a consumer's last call differ only in kind and sensitivity. -/
def NoTwinEdges (calls : List Replacement) : Prop :=
  ∀ consumer, ∀ edge ∈ lastEdges calls consumer, ∀ edge' ∈ lastEdges calls consumer,
    edgeKey edge = edgeKey edge' → edge.sensitivity = edge'.sensitivity

/-- All changed components changed semantically, or none did. -/
def OneScope (delta : SummaryDelta) : Prop :=
  ∀ component ∈ delta.changedComponents, ∀ component' ∈ delta.changedComponents,
    scopeOf component = scopeOf component'

theorem CurrentEdge.kept (htwin : NoTwinEdges calls) (h : CurrentEdge calls scope producer consumer) :
    KeptEdge calls scope producer consumer := by
  obtain ⟨edge, hmem, hkey, rfl⟩ := h
  obtain ⟨last, hlast, hlastMem, hlastKey⟩ :=
    exists_find? (p := (edgeKey · = (consumer.2, producer))) (mem_reverse.mpr hmem) hkey
  exact ⟨last, hlast, htwin consumer.1 last (mem_reverse.mp hlastMem) edge hmem
    (hlastKey.trans hkey.symm)⟩

theorem Wave.scope_eq (hone : OneScope delta) (h : Wave calls delta distance ref scope) :
    ∀ component ∈ delta.changedComponents, scopeOf component = scope := by
  obtain ⟨component, hmem, rfl, -⟩ := h.chain
  exact fun other hother => hone other hother component hmem

/-- Without twins and with one scope, the waves follow every chain. -/
theorem Impacted.wave (htwin : NoTwinEdges calls) (hone : OneScope delta)
    (h : Impacted calls delta ref) : ∃ n scope, Wave calls delta (n + 1) ref scope := by
  obtain ⟨component, hmem, hchain⟩ := h
  have hnext : ∀ {distance producer consumer}, Wave calls delta distance producer (scopeOf component) →
      CurrentEdge calls (scopeOf component) producer consumer →
        Wave calls delta (distance + 1) consumer (scopeOf component) := by
    intro distance producer consumer hwave hedge
    obtain ⟨scope, hscope⟩ := exists_wave_succ hwave (hedge.kept htwin)
    rwa [hscope.scope_eq hone component hmem]
  have hwave : ∃ n, Wave calls delta (n + 1) ref (scopeOf component) := by
    induction hchain with
    | single hedge =>
      obtain ⟨first, hfirst, hfirstMem, -⟩ :=
        exists_find? (p := (·.componentKind = component.componentKind)) hmem rfl
      have hseed : Wave calls delta 0 (delta.oldSummaryId, component.componentKind)
          (scopeOf component) :=
        ⟨rfl, first, hfirst, hone first hfirstMem component hmem⟩
      exact ⟨0, hnext hseed hedge⟩
    | tail _ hedge ih =>
      obtain ⟨n, hn⟩ := ih
      exact ⟨n + 1, hnext hn hedge⟩
  obtain ⟨n, hn⟩ := hwave
  exact ⟨n, _, hn⟩

/-- An untruncated impact set is exact when, and only when, the waves pass no impacted component
by. They pass none by when one scope changed and no two edges differ only in sensitivity. -/
theorem reportsImpact_iff {graph : ImpactGraph}
    (h : (replay calls).getImpactSet delta budget = .ok graph) (hopen : graph.truncated = false) :
    (ReportsImpact calls delta graph ↔
      ∀ ref, Impacted calls delta ref → ∃ n scope, Wave calls delta (n + 1) ref scope) ∧
    (NoTwinEdges calls → OneScope delta → ReportsImpact calls delta graph) := by
  obtain ⟨hnodup, hmem⟩ := getImpactSet_waves h hopen
  have hexact : (∀ ref, Impacted calls delta ref → ∃ n scope, Wave calls delta (n + 1) ref scope) →
      ReportsImpact calls delta graph := by
    intro hreached
    refine ⟨hnodup, fun ref => (hmem ref).trans ⟨?_, hreached ref⟩⟩
    rintro ⟨n, scope, hwave⟩
    exact hwave.impacted
  refine ⟨⟨?_, hexact⟩, fun htwin hone => hexact fun ref himpacted => himpacted.wave htwin hone⟩
  rintro ⟨-, hreports⟩ ref himpacted
  exact (hmem ref).mp ((hreports ref).mpr himpacted)

def sampleId (digit : Char) : StableId := ⟨.functionSummary, String.ofList (List.replicate 64 digit)⟩

def sampleEdge (producer : StableId) (component : ComponentKind) (sensitivity : Sensitivity) :
    DependencyEdge :=
  ⟨1, producer, component, .call, sensitivity⟩

def sampleChange (kind : ComponentKind) (semantic : Bool) : ComponentDelta :=
  ⟨kind, "a", if semantic then "b" else "a", "c", "d"⟩

def sampleDelta (changed : List ComponentDelta) : SummaryDelta :=
  ⟨sampleId '0', sampleId '1', changed, true, true⟩

theorem exists_call_of_mem_lastEdges {id : StableId} (h : edge ∈ lastEdges calls id) :
    ∃ call ∈ calls, call.1 = id ∧ lastEdges calls id = call.2 := by
  rw [lastEdges] at h ⊢
  cases hcall : calls.reverse.find? (·.1 = id) with
  | none => simp [hcall] at h
  | some call =>
    exact ⟨call, mem_reverse.mp (of_find? hcall).1, (of_find? hcall).2, rfl⟩

/-- A consumer of the changed component and a consumer of that one. -/
def chainCalls : List Replacement :=
  [(sampleId '2', [sampleEdge (sampleId '0') 1 .semantic]),
    (sampleId '3', [sampleEdge (sampleId '2') 1 .semantic])]

theorem reportsImpact_chain :
    (replay chainCalls).getImpactSet (sampleDelta [sampleChange 1 true]) {} =
      .ok ⟨[⟨sampleId '2', 1, .semantic⟩, ⟨sampleId '3', 1, .semantic⟩], 2, false⟩ ∧
    ReportsImpact chainCalls (sampleDelta [sampleChange 1 true])
      ⟨[⟨sampleId '2', 1, .semantic⟩, ⟨sampleId '3', 1, .semantic⟩], 2, false⟩ := by
  have hrun : (replay chainCalls).getImpactSet (sampleDelta [sampleChange 1 true]) {} =
      .ok ⟨[⟨sampleId '2', 1, .semantic⟩, ⟨sampleId '3', 1, .semantic⟩], 2, false⟩ :=
    toOption_eq_some.mp (by decide +kernel)
  refine ⟨hrun, (reportsImpact_iff hrun rfl).2 ?_ ?_⟩
  · intro consumer edge hedge edge' hedge' _
    obtain ⟨call, hcall, -, hlast⟩ := exists_call_of_mem_lastEdges hedge
    rw [hlast] at hedge hedge'
    have hsingle : ∀ call ∈ chainCalls, call.2.length = 1 := by decide +kernel
    obtain ⟨only, honly⟩ := length_eq_one_iff.mp (hsingle call hcall)
    rw [honly] at hedge hedge'
    rw [mem_singleton.mp hedge, mem_singleton.mp hedge']
  · intro component hcomponent component' hcomponent'
    rw [mem_singleton.mp hcomponent, mem_singleton.mp hcomponent']

/-- One consumer with a semantic edge and then an evidence-only one to the changed component. -/
def twinCalls : List Replacement :=
  [(sampleId '2', [sampleEdge (sampleId '0') 1 .semantic, sampleEdge (sampleId '0') 1 .evidenceOnly])]

/-- A consumer of two changed components, one by each kind of edge, and a consumer of that one. -/
def mixedCalls : List Replacement :=
  [(sampleId '2', [sampleEdge (sampleId '0') 1 .evidenceOnly, sampleEdge (sampleId '0') 2 .semantic]),
    (sampleId '3', [sampleEdge (sampleId '2') 1 .semantic])]

/-- The later twin replaces the row of the first, and the consumer of two kinds of change passes on
one of them only. -/
theorem impact_passed_by :
    ((replay twinCalls).getImpactSet (sampleDelta [sampleChange 1 true]) {} = .ok ⟨[], 1, false⟩ ∧
      ¬ReportsImpact twinCalls (sampleDelta [sampleChange 1 true]) ⟨[], 1, false⟩) ∧
    ((replay mixedCalls).getImpactSet (sampleDelta [sampleChange 1 false, sampleChange 2 true]) {} =
        .ok ⟨[⟨sampleId '2', 1, .evidenceOnly⟩], 3, false⟩ ∧
      ¬ReportsImpact mixedCalls (sampleDelta [sampleChange 1 false, sampleChange 2 true])
        ⟨[⟨sampleId '2', 1, .evidenceOnly⟩], 3, false⟩) := by
  refine ⟨⟨toOption_eq_some.mp (by decide +kernel), ?_⟩,
    toOption_eq_some.mp (by decide +kernel), ?_⟩
  · rintro ⟨-, hreports⟩
    have hedge : CurrentEdge twinCalls .semantic (sampleId '0', 1) (sampleId '2', 1) :=
      ⟨sampleEdge (sampleId '0') 1 .semantic, by decide +kernel, rfl, rfl⟩
    have himpacted : Impacted twinCalls (sampleDelta [sampleChange 1 true]) (sampleId '2', 1) :=
      ⟨sampleChange 1 true, mem_cons_self, .single hedge⟩
    exact absurd ((hreports _).mpr himpacted) not_mem_nil
  · rintro ⟨-, hreports⟩
    have hfirst : CurrentEdge mixedCalls .semantic (sampleId '0', 2) (sampleId '2', 1) :=
      ⟨sampleEdge (sampleId '0') 2 .semantic, by decide +kernel, rfl, rfl⟩
    have hsecond : CurrentEdge mixedCalls .semantic (sampleId '2', 1) (sampleId '3', 1) :=
      ⟨sampleEdge (sampleId '2') 1 .semantic, by decide +kernel, rfl, rfl⟩
    have himpacted : Impacted mixedCalls (sampleDelta [sampleChange 1 false, sampleChange 2 true])
        (sampleId '3', 1) :=
      ⟨sampleChange 2 true, mem_cons_of_mem _ mem_cons_self, .tail (.single hfirst) hsecond⟩
    have hmem := (hreports _).mpr himpacted
    have habsent : (sampleId '3', (1 : ℤ)) ∉
        [(⟨sampleId '2', 1, .evidenceOnly⟩ : ConsumerRef)].map ConsumerRef.ref := by decide +kernel
    exact habsent hmem

end Veritas.SummaryDb

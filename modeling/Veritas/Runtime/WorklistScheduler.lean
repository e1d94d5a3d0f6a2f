import Mathlib.Data.Finset.Max
import Veritas.Core.Ids
import Veritas.Library.FieldCode

/-! The incremental worklist: one pending item for each joined key, popped by priority. -/
namespace Veritas

open FieldCode List
open Std.ExtTreeMap (mem_toList_iff_getElem?_eq_some)

inductive WorkItemKind
  | localSummary | sccRecompute | wpaComponent | factDerivation | evidenceInvalidation
  deriving DecidableEq

def WorkItemKind.ordinal (kind : WorkItemKind) : ℕ := kind.ctorIdx

theorem WorkItemKind.ordinal_injective : Function.Injective WorkItemKind.ordinal :=
  Function.LeftInverse.injective (g := WorkItemKind.ofNat) WorkItemKind.ofNat_ctorIdx

/-- The summary components a work item may be consumed by. -/
inductive ComponentKind
  | unspecified | calls | memoryEffects | valueFlow | controlFlow | rangeFacts | aliasFacts
  | taint | ownership | locks | state | unknowns | assumptions | dependencies | provenance
  deriving DecidableEq

def ComponentKind.ordinal (component : ComponentKind) : ℕ := component.ctorIdx

theorem ComponentKind.ordinal_injective : Function.Injective ComponentKind.ordinal :=
  Function.LeftInverse.injective (g := ComponentKind.ofNat) ComponentKind.ofNat_ctorIdx

structure WorkItem where
  kind : WorkItemKind
  targetId : StableId
  revisionId : String
  buildVariantId : String
  consumerComponent : ComponentKind
  triggeringDeltaIds : List StableId
  priority : ℤ
  attemptCount : ℤ

/-- The five fields that are meant to tell work items apart. -/
structure WorkIdentity where
  kind : WorkItemKind
  targetId : StableId
  revisionId : String
  buildVariantId : String
  consumerComponent : ComponentKind
  deriving DecidableEq

def WorkItem.identity (item : WorkItem) : WorkIdentity :=
  ⟨item.kind, item.targetId, item.revisionId, item.buildVariantId, item.consumerComponent⟩

def workItemKey (item : WorkItem) : String :=
  item.kind.ordinal.repr ++ "\x1f" ++ item.targetId.toString ++ "\x1f" ++ item.revisionId ++
    "\x1f" ++ item.buildVariantId ++ "\x1f" ++ item.consumerComponent.ordinal.repr

/-- The pending items by key, in key order. -/
abbrev WorklistScheduler := Std.ExtTreeMap String WorkItem

/-- Appends the delta ids the item does not carry yet. -/
def mergeDeltaIds (existing incoming : List StableId) : List StableId :=
  incoming.foldl (fun ids deltaId => if deltaId ∈ ids then ids else ids ++ [deltaId]) existing

/-- The duplicate branch of `Enqueue`: the existing item keeps its identity fields. -/
def WorkItem.absorb (existing item : WorkItem) : WorkItem :=
  { existing with
    triggeringDeltaIds := mergeDeltaIds existing.triggeringDeltaIds item.triggeringDeltaIds
    priority := min existing.priority item.priority
    attemptCount := max existing.attemptCount item.attemptCount }

def WorklistScheduler.enqueue (scheduler : WorklistScheduler) (item : WorkItem) :
    WorklistScheduler :=
  match scheduler[workItemKey item]? with
  | none => scheduler.insert (workItemKey item) item
  | some existing => scheduler.insert (workItemKey item) (existing.absorb item)

/-- Lowest priority first; ties broken by the key. -/
def popsBefore (a b : String × WorkItem) : Prop :=
  a.2.priority < b.2.priority ∨ (a.2.priority = b.2.priority ∧ a.1 < b.1)

instance : DecidableRel popsBefore := fun a b => by unfold popsBefore; infer_instance

def bestEntry (first : String × WorkItem) (rest : List (String × WorkItem)) : String × WorkItem :=
  rest.foldl (fun best entry => if popsBefore entry best then entry else best) first

def WorklistScheduler.popNext (scheduler : WorklistScheduler) :
    Option (WorkItem × WorklistScheduler) :=
  match scheduler.toList with
  | [] => none
  | first :: rest =>
    let best := bestEntry first rest
    some (best.2, scheduler.erase best.1)

inductive WorklistOp
  | enqueue (item : WorkItem)
  | popNext

/-- A scheduler beside its history: the enqueues whose identity was not popped since. -/
structure WorklistRun where
  scheduler : WorklistScheduler
  ledger : List WorkItem

def WorklistRun.step (run : WorklistRun) : WorklistOp → WorklistRun
  | .enqueue item => ⟨run.scheduler.enqueue item, run.ledger ++ [item]⟩
  | .popNext =>
    match run.scheduler.popNext with
    | none => run
    | some (item, scheduler) => ⟨scheduler, run.ledger.filter (·.identity ≠ item.identity)⟩

def worklistRun (ops : List WorklistOp) : WorklistRun := ops.foldl WorklistRun.step ⟨∅, []⟩

/-- What one item owes to the enqueues merged into it. -/
structure Carries (item : WorkItem) (merged : List WorkItem) : Prop where
  identity : item.identity ∈ merged.map WorkItem.identity
  deltaIds : ∀ d, d ∈ item.triggeringDeltaIds ↔ ∃ e ∈ merged, d ∈ e.triggeringDeltaIds
  nodup : item.triggeringDeltaIds.Nodup
  priority : IsLeast {p | ∃ e ∈ merged, e.priority = p} item.priority
  attemptCount : IsGreatest {n | ∃ e ∈ merged, e.attemptCount = n} item.attemptCount

/-- The worklist loses and invents nothing against its history. -/
structure WorklistExact (scheduler : WorklistScheduler) (ledger : List WorkItem) : Prop where
  /-- Exactly the identities of the history are pending. -/
  pending : ∀ identity, identity ∈ ledger.map WorkItem.identity ↔
    ∃ (key : String) (item : WorkItem), scheduler[key]? = some item ∧ item.identity = identity
  /-- Enqueues share an item exactly when their identities are equal. -/
  merged : scheduler.size = (ledger.map WorkItem.identity).toFinset.card
  /-- A pop fails only on an empty worklist. -/
  popNext_none : scheduler.popNext = none ↔ ledger = []
  popNext_carries : ∀ item rest, scheduler.popNext = some (item, rest) →
    Carries item (ledger.filter (·.identity = item.identity))
  popNext_least : ∀ item rest, scheduler.popNext = some (item, rest) →
    ∀ e ∈ ledger, item.priority ≤ e.priority

/-- The three free texts of an item as they stand between the fixed fields of its key. -/
def WorkItem.freeText (item : WorkItem) : String :=
  item.targetId.digestHex ++ "\x1f" ++ item.revisionId ++ "\x1f" ++ item.buildVariantId

variable {a item : WorkItem} {scheduler : WorklistScheduler} {run : WorklistRun}

theorem workItemKey_eq_of_identity {b : WorkItem} (h : a.identity = b.identity) :
    workItemKey a = workItemKey b := by
  obtain ⟨hkind, htarget, hrevision, hvariant, hcomponent⟩ := WorkIdentity.mk.inj h
  simp only [workItemKey, hkind, htarget, hrevision, hvariant, hcomponent]

/-- The key's fixed fields are read off its two ends; only the free texts run together. -/
theorem workItemKey_eq_iff {b : WorkItem} :
    workItemKey a = workItemKey b ↔ a.kind = b.kind ∧ a.targetId.kind = b.targetId.kind ∧
      a.consumerComponent = b.consumerComponent ∧ a.freeText = b.freeText := by
  have hkey : ∀ item : WorkItem, (workItemKey item).toList = item.kind.ordinal.repr.toList ++
      '\x1f' :: ((idKindToString item.targetId.kind).toList ++ ':' :: ("sha256:".toList ++
        (item.freeText.toList ++ '\x1f' :: item.consumerComponent.ordinal.repr.toList))) := by
    intro item
    simp [workItemKey, StableId.toString, WorkItem.freeText]
  rw [← String.toList_inj, hkey, hkey]
  constructor
  · intro h
    obtain ⟨hkind, h⟩ := append_cons_inj (notMem_repr (by decide) _) (notMem_repr (by decide) _) h
    obtain ⟨htarget, h⟩ := append_cons_inj (colon_notMem_idKindToString _)
      (colon_notMem_idKindToString _) h
    -- the component ends the key, so it is cut off from the back
    have hback := congrArg List.reverse (append_cancel_left h)
    simp only [reverse_append, reverse_cons, append_assoc, cons_append, nil_append] at hback
    obtain ⟨hcomponent, hfree⟩ := append_cons_inj
      (fun hmem => notMem_repr (by decide) _ (mem_reverse.mp hmem))
      (fun hmem => notMem_repr (by decide) _ (mem_reverse.mp hmem)) hback
    refine ⟨?_, ?_, ?_, ?_⟩
    · exact WorkItemKind.ordinal_injective (repr_injective (String.toList_inj.mp hkind))
    · exact idKindToString_injective (String.toList_inj.mp htarget)
    · exact ComponentKind.ordinal_injective
        (repr_injective (String.toList_inj.mp (reverse_inj.mp hcomponent)))
    · exact String.toList_inj.mp (reverse_inj.mp hfree)
  · rintro ⟨hkind, htarget, hcomponent, hfree⟩
    rw [hkind, htarget, hcomponent, hfree]

theorem mergeDeltaIds_nodup {existing incoming : List StableId} (h : existing.Nodup) :
    (mergeDeltaIds existing incoming).Nodup := by
  induction incoming generalizing existing with
  | nil => exact h
  | cons d incoming ih =>
    rw [mergeDeltaIds, foldl_cons]
    split_ifs with hd
    · exact ih h
    · exact ih (h.append (nodup_singleton d) (disjoint_singleton.mpr hd))

theorem mem_mergeDeltaIds {existing incoming : List StableId} {d : StableId} :
    d ∈ mergeDeltaIds existing incoming ↔ d ∈ existing ∨ d ∈ incoming := by
  induction incoming generalizing existing with
  | nil => simp [mergeDeltaIds]
  | cons x incoming ih =>
    rw [mergeDeltaIds, foldl_cons, ← mergeDeltaIds, ih]
    split_ifs with hx
    · rw [mem_cons]
      constructor
      · rintro (h | h)
        · exact .inl h
        · exact .inr (.inr h)
      · rintro (h | rfl | h)
        · exact .inl h
        · exact .inl hx
        · exact .inr h
    · rw [mem_append, mem_singleton, mem_cons, or_assoc]

theorem carries_single (h : item.triggeringDeltaIds.Nodup) : Carries item [item] where
  identity := by simp
  deltaIds := by simp
  nodup := h
  priority := ⟨⟨item, by simp⟩, by simp [lowerBounds]⟩
  attemptCount := ⟨⟨item, by simp⟩, by simp [upperBounds]⟩

theorem Carries.absorb {existing : WorkItem} {merged : List WorkItem} (h : Carries existing merged) :
    Carries (existing.absorb item) (merged ++ [item]) := by
  have hunion : ∀ {ν : Type} (f : WorkItem → ν), {p | ∃ e ∈ merged ++ [item], f e = p} =
      {p | ∃ e ∈ merged, f e = p} ∪ {f item} := by
    intro ν f
    ext p
    simp [or_and_right, exists_or, eq_comm, or_comm]
  refine ⟨?_, fun d => ?_, mergeDeltaIds_nodup h.nodup, ?_, ?_⟩
  · exact map_append ▸ mem_append_left _ h.identity
  · rw [WorkItem.absorb, mem_mergeDeltaIds, h.deltaIds d]
    simp only [mem_append, mem_singleton, or_and_right, exists_or, exists_eq_left]
  · rw [hunion WorkItem.priority]
    exact h.priority.union isLeast_singleton
  · rw [hunion WorkItem.attemptCount]
    exact h.attemptCount.union isGreatest_singleton

theorem bestEntry_mem (first : String × WorkItem) (rest : List (String × WorkItem)) :
    bestEntry first rest ∈ first :: rest := by
  induction rest generalizing first with
  | nil => exact mem_cons_self
  | cons entry rest ih =>
    rw [bestEntry, foldl_cons, ← bestEntry]
    split_ifs with h
    · exact mem_cons_of_mem _ (ih entry)
    · rcases mem_cons.mp (ih first) with heq | hmem
      · rw [heq]
        exact mem_cons_self
      · exact mem_cons_of_mem _ (mem_cons_of_mem _ hmem)

theorem bestEntry_le (first : String × WorkItem) (rest : List (String × WorkItem)) :
    ∀ entry ∈ first :: rest, (bestEntry first rest).2.priority ≤ entry.2.priority := by
  induction rest generalizing first with
  | nil => simp [bestEntry]
  | cons entry rest ih =>
    rw [bestEntry, foldl_cons, ← bestEntry]
    intro other hother
    split_ifs with h
    · rcases mem_cons.mp hother with rfl | hother
      · have hle : entry.2.priority ≤ other.2.priority := by
          rcases h with h | h
          · exact h.le
          · exact h.1.le
        exact (ih entry entry mem_cons_self).trans hle
      · exact ih entry other hother
    · rcases mem_cons.mp hother with rfl | hother
      · exact ih other other mem_cons_self
      · rcases mem_cons.mp hother with rfl | hother
        · have hle : first.2.priority ≤ other.2.priority := by
            by_contra hlt
            exact h (.inl (not_le.mp hlt))
          exact (ih first first mem_cons_self).trans hle
        · exact ih first other (mem_cons_of_mem _ hother)

/-- What a pop takes: a stored entry of least priority, and nothing else. -/
theorem popNext_eq_some {rest : WorklistScheduler} (h : scheduler.popNext = some (item, rest)) :
    ∃ key, scheduler[key]? = some item ∧ rest = scheduler.erase key ∧
      ∀ (key' : String) (other : WorkItem), scheduler[key']? = some other →
        item.priority ≤ other.priority := by
  unfold WorklistScheduler.popNext at h
  split at h
  · cases h
  · rename_i first tail hlist
    obtain ⟨rfl, rfl⟩ := Prod.mk.inj (Option.some.inj h)
    have hmem := bestEntry_mem first tail
    rw [← hlist] at hmem
    refine ⟨_, mem_toList_iff_getElem?_eq_some.mp hmem, rfl, ?_⟩
    intro key' other hother
    have hother := mem_toList_iff_getElem?_eq_some.mpr hother
    rw [hlist] at hother
    exact bestEntry_le first tail (key', other) hother

theorem popNext_eq_none : scheduler.popNext = none ↔ ∀ key : String, scheduler[key]? = none := by
  have hempty : scheduler.popNext = none ↔ scheduler.toList = [] := by
    unfold WorklistScheduler.popNext
    split <;> simp [*]
  rw [hempty, eq_nil_iff_forall_not_mem]
  constructor
  · intro h key
    by_contra hsome
    obtain ⟨item, hitem⟩ := Option.ne_none_iff_exists'.mp hsome
    exact h (key, item) (mem_toList_iff_getElem?_eq_some.mpr hitem)
  · rintro h ⟨key, item⟩ hmem
    have hitem := mem_toList_iff_getElem?_eq_some.mp hmem
    rw [h key] at hitem
    cases hitem

/-! Whole runs over items whose keys tell identities apart. -/

/-- The stored items against the history, key by key. -/
structure WorklistInvariant (run : WorklistRun) : Prop where
  stored : ∀ (key : String) (item : WorkItem), run.scheduler[key]? = some item →
    workItemKey item = key ∧ Carries item (run.ledger.filter (workItemKey · = key))
  kept : ∀ e ∈ run.ledger, run.scheduler[workItemKey e]? ≠ none

theorem worklistInvariant_initial : WorklistInvariant ⟨∅, []⟩ := by
  refine ⟨?_, ?_⟩
  · intro key item h
    simp at h
  · simp

theorem worklistInvariant_enqueue (h : WorklistInvariant run)
    (hnodup : item.triggeringDeltaIds.Nodup) : WorklistInvariant (run.step (.enqueue item)) := by
  -- the entry the enqueue leaves under the item's key, and that no other key is touched
  obtain ⟨merged, hlookup, hkey, hcarries⟩ : ∃ merged : WorkItem,
      (∀ key : String, (run.scheduler.enqueue item)[key]? =
        if workItemKey item = key then some merged else run.scheduler[key]?) ∧
      workItemKey merged = workItemKey item ∧
        Carries merged ((run.ledger.filter (workItemKey · = workItemKey item)) ++ [item]) := by
    cases hfind : run.scheduler[workItemKey item]? with
    | none =>
      refine ⟨item, ?_, rfl, ?_⟩
      · intro key
        simp [WorklistScheduler.enqueue, hfind, Std.ExtTreeMap.getElem?_insert]
      · have hnone : run.ledger.filter (workItemKey · = workItemKey item) = [] := by
          rw [filter_eq_nil_iff]
          intro e he heq
          have heq : workItemKey e = workItemKey item := by simpa using heq
          exact h.kept e he (heq ▸ hfind)
        rw [hnone]
        exact carries_single hnodup
    | some existing =>
      obtain ⟨hkey, hcarries⟩ := h.stored _ existing hfind
      refine ⟨existing.absorb item, ?_, hkey, hcarries.absorb⟩
      intro key
      simp [WorklistScheduler.enqueue, hfind, Std.ExtTreeMap.getElem?_insert]
  refine ⟨?_, ?_⟩
  · intro key stored hstored
    simp only [WorklistRun.step, hlookup] at hstored ⊢
    split_ifs at hstored with heq
    · cases hstored
      subst heq
      refine ⟨hkey, ?_⟩
      rw [filter_append, filter_cons_of_pos (by simp), filter_nil]
      exact hcarries
    · rw [filter_append, filter_cons_of_neg (by simpa using heq), filter_nil, append_nil]
      exact h.stored key stored hstored
  · intro e he
    simp only [WorklistRun.step, mem_append, mem_singleton] at he ⊢
    rw [hlookup]
    split_ifs with heq
    · simp
    · rcases he with he | rfl
      · exact h.kept e he
      · exact absurd rfl heq

/-- A stored item stands for the enqueues of its own identity. -/
theorem stored_identity_iff {key : String} {e : WorkItem} (h : WorklistInvariant run)
    (hinj : ∀ a ∈ run.ledger, ∀ b ∈ run.ledger,
      workItemKey a = workItemKey b → a.identity = b.identity)
    (hitem : run.scheduler[key]? = some item) (he : e ∈ run.ledger) :
    e.identity = item.identity ↔ workItemKey e = key := by
  obtain ⟨hkey, hcarries⟩ := h.stored key item hitem
  obtain ⟨e₀, he₀, hidentity⟩ := mem_map.mp hcarries.identity
  obtain ⟨he₀, hkey₀⟩ := mem_filter.mp he₀
  have hkey₀ : workItemKey e₀ = key := by simpa using hkey₀
  constructor
  · intro heq
    exact (workItemKey_eq_of_identity heq).trans hkey
  · intro heq
    exact (hinj e he e₀ he₀ (heq.trans hkey₀.symm)).trans hidentity

theorem worklistInvariant_popNext (h : WorklistInvariant run)
    (hinj : ∀ a ∈ run.ledger, ∀ b ∈ run.ledger,
      workItemKey a = workItemKey b → a.identity = b.identity) :
    WorklistInvariant (run.step .popNext) := by
  cases hpop : run.scheduler.popNext with
  | none => simpa only [WorklistRun.step, hpop] using h
  | some popped =>
    obtain ⟨item, rest⟩ := popped
    obtain ⟨key, hitem, rfl, -⟩ := popNext_eq_some hpop
    have hledger : ∀ e ∈ run.ledger, e.identity ≠ item.identity ↔ workItemKey e ≠ key := by
      intro e he
      exact not_congr (stored_identity_iff h hinj hitem he)
    simp only [WorklistRun.step, hpop]
    refine ⟨?_, ?_⟩
    · intro key' stored hstored
      rw [Std.ExtTreeMap.getElem?_erase] at hstored
      split_ifs at hstored with heq
      have hne : key ≠ key' := by simpa using heq
      obtain ⟨hkey, hcarries⟩ := h.stored key' stored hstored
      refine ⟨hkey, ?_⟩
      have hfilter : (run.ledger.filter (·.identity ≠ item.identity)).filter
          (workItemKey · = key') = run.ledger.filter (workItemKey · = key') := by
        rw [filter_filter]
        apply filter_congr
        intro e he
        by_cases hk : workItemKey e = key'
        · have hother := (hledger e he).mpr fun hbad => hne (hbad.symm.trans hk)
          simp [hk, hother]
        · simp [hk]
      rw [hfilter]
      exact hcarries
    · intro e he
      obtain ⟨he, hother⟩ := mem_filter.mp he
      have hne := (hledger e he).mp (by simpa using hother)
      rw [Std.ExtTreeMap.getElem?_erase, if_neg (by simpa using Ne.symm hne)]
      exact h.kept e he

/-- The items a sequence of operations enqueues. -/
def enqueued (ops : List WorklistOp) : List WorkItem :=
  ops.filterMap fun op => match op with
    | .enqueue item => some item
    | .popNext => none

/-- The history only ever holds items that were enqueued. -/
theorem ledger_subset (ops : List WorklistOp) : (worklistRun ops).ledger ⊆ enqueued ops := by
  induction ops using List.reverseRecOn with
  | nil => simp [worklistRun]
  | append_singleton ops op ih =>
    intro e he
    rw [worklistRun, foldl_concat, ← worklistRun] at he
    rw [enqueued, filterMap_append, ← enqueued, mem_append]
    cases op with
    | enqueue item =>
      rcases mem_append.mp he with he | he
      · exact .inl (ih he)
      · exact .inr (by simpa using he)
    | popNext =>
      simp only [WorklistRun.step] at he
      split at he
      · exact .inl (ih he)
      · exact .inl (ih (mem_filter.mp he).1)

theorem worklistInvariant_run {ops : List WorklistOp}
    (hinj : ∀ a ∈ enqueued ops, ∀ b ∈ enqueued ops,
      workItemKey a = workItemKey b → a.identity = b.identity)
    (hnodup : ∀ a ∈ enqueued ops, a.triggeringDeltaIds.Nodup) :
    WorklistInvariant (worklistRun ops) := by
  induction ops using List.reverseRecOn with
  | nil => exact worklistInvariant_initial
  | append_singleton ops op ih =>
    have hsub : enqueued ops ⊆ enqueued (ops ++ [op]) := by
      rw [enqueued, enqueued, filterMap_append]
      exact subset_append_left _ _
    have hprev := ih (fun a ha b hb => hinj a (hsub ha) b (hsub hb))
      (fun a ha => hnodup a (hsub ha))
    rw [worklistRun, foldl_concat, ← worklistRun]
    cases op with
    | enqueue item =>
      exact worklistInvariant_enqueue hprev (hnodup item (by simp [enqueued]))
    | popNext =>
      exact worklistInvariant_popNext hprev fun a ha b hb =>
        hinj a (hsub (ledger_subset ops ha)) b (hsub (ledger_subset ops hb))

theorem worklistExact_of_invariant (h : WorklistInvariant run)
    (hinj : ∀ a ∈ run.ledger, ∀ b ∈ run.ledger,
      workItemKey a = workItemKey b → a.identity = b.identity) :
    WorklistExact run.scheduler run.ledger := by
  have hstored : ∀ e ∈ run.ledger, ∃ item : WorkItem,
      run.scheduler[workItemKey e]? = some item ∧ item.identity = e.identity := by
    intro e he
    obtain ⟨item, hitem⟩ := Option.ne_none_iff_exists'.mp (h.kept e he)
    exact ⟨item, hitem, ((stored_identity_iff h hinj hitem he).mpr rfl).symm⟩
  have horigin : ∀ (key : String) (item : WorkItem), run.scheduler[key]? = some item →
      ∃ e ∈ run.ledger, e.identity = item.identity ∧ workItemKey e = key := by
    intro key item hitem
    obtain ⟨e, he, hidentity⟩ := mem_map.mp (h.stored key item hitem).2.identity
    obtain ⟨he, hkey⟩ := mem_filter.mp he
    exact ⟨e, he, hidentity, by simpa using hkey⟩
  refine ⟨?_, ?_, ?_, ?_, ?_⟩
  · intro identity
    rw [mem_map]
    constructor
    · rintro ⟨e, he, rfl⟩
      obtain ⟨item, hitem, hidentity⟩ := hstored e he
      exact ⟨_, item, hitem, hidentity⟩
    · rintro ⟨key, item, hitem, rfl⟩
      obtain ⟨e, he, hidentity, -⟩ := horigin key item hitem
      exact ⟨e, he, hidentity⟩
  · -- the pending entries and the distinct identities of the history are in bijection
    rw [← Std.ExtTreeMap.length_toList, ← length_map (f := fun p => p.2.identity),
      ← toFinset_card_of_nodup]
    · congr 1
      ext identity
      simp only [mem_toFinset, mem_map, Prod.exists, mem_toList_iff_getElem?_eq_some]
      constructor
      · rintro ⟨key, item, hitem, rfl⟩
        obtain ⟨e, he, hidentity, -⟩ := horigin key item hitem
        exact ⟨e, he, hidentity⟩
      · rintro ⟨e, he, rfl⟩
        obtain ⟨item, hitem, hidentity⟩ := hstored e he
        exact ⟨_, item, hitem, hidentity⟩
    · rw [List.Nodup, pairwise_map]
      refine Std.ExtTreeMap.distinct_keys_toList.imp_of_mem ?_
      rintro ⟨key, item⟩ ⟨key', item'⟩ hmem hmem' hne hidentity
      have hkey := (h.stored _ _ (mem_toList_iff_getElem?_eq_some.mp hmem)).1
      have hkey' := (h.stored _ _ (mem_toList_iff_getElem?_eq_some.mp hmem')).1
      have heq := hkey.symm.trans ((workItemKey_eq_of_identity hidentity).trans hkey')
      exact hne (by simp [heq])
  · rw [popNext_eq_none]
    constructor
    · intro hnone
      rw [eq_nil_iff_forall_not_mem]
      intro e he
      exact h.kept e he (hnone _)
    · intro hnil key
      by_contra hsome
      obtain ⟨item, hitem⟩ := Option.ne_none_iff_exists'.mp hsome
      obtain ⟨e, he, -⟩ := horigin key item hitem
      rw [hnil] at he
      cases he
  · intro item rest hpop
    obtain ⟨key, hitem, -, -⟩ := popNext_eq_some hpop
    have hfilter : run.ledger.filter (·.identity = item.identity) =
        run.ledger.filter (workItemKey · = key) := by
      apply filter_congr
      intro e he
      simp only [stored_identity_iff h hinj hitem he]
    rw [hfilter]
    exact (h.stored key item hitem).2
  · intro item rest hpop e he
    obtain ⟨key, -, -, hleast⟩ := popNext_eq_some hpop
    obtain ⟨other, hother⟩ := Option.ne_none_iff_exists'.mp (h.kept e he)
    have hcarries := (h.stored _ other hother).2
    exact (hleast _ other hother).trans (hcarries.priority.2 ⟨e, mem_filter.mpr ⟨he, by simp⟩, rfl⟩)

/-- Two enqueues that share a key leave one entry, whatever their identities. -/
theorem identity_eq_of_worklistExact {b : WorkItem} (hkey : workItemKey a = workItemKey b)
    (h : WorklistExact (worklistRun [.enqueue a, .enqueue b]).scheduler
      (worklistRun [.enqueue a, .enqueue b]).ledger) : a.identity = b.identity := by
  have hfirst : (∅ : WorklistScheduler).enqueue a =
      (∅ : WorklistScheduler).insert (workItemKey a) a := by
    simp [WorklistScheduler.enqueue]
  have hrun : (worklistRun [.enqueue a, .enqueue b]).scheduler =
      ((∅ : WorklistScheduler).insert (workItemKey a) a).insert (workItemKey a) (a.absorb b) := by
    simp only [worklistRun, foldl_cons, foldl_nil, WorklistRun.step, hfirst]
    simp [WorklistScheduler.enqueue, ← hkey]
  obtain ⟨key, item, hitem, hidentity⟩ := (h.pending b.identity).mp (by
    simp [worklistRun, WorklistRun.step])
  simp only [hrun, Std.ExtTreeMap.getElem?_insert] at hitem
  split_ifs at hitem with hfound
  · obtain rfl := Option.some.inj hitem
    exact hidentity
  · simp at hitem

theorem nodup_of_worklistExact
    (h : WorklistExact (worklistRun [.enqueue a]).scheduler (worklistRun [.enqueue a]).ledger) :
    a.triggeringDeltaIds.Nodup := by
  have hrun : (worklistRun [.enqueue a]).scheduler =
      (∅ : WorklistScheduler).insert (workItemKey a) a := by
    simp [worklistRun, WorklistRun.step, WorklistScheduler.enqueue]
  cases hpop : (worklistRun [.enqueue a]).scheduler.popNext with
  | none =>
    have hnil := h.popNext_none.mp hpop
    simp [worklistRun, WorklistRun.step] at hnil
  | some popped =>
    cases popped
    obtain ⟨key, hitem, -, -⟩ := popNext_eq_some hpop
    simp only [hrun, Std.ExtTreeMap.getElem?_insert] at hitem
    split_ifs at hitem with hfound
    · obtain rfl := Option.some.inj hitem
      exact (h.popNext_carries _ _ hpop).nodup
    · simp at hitem

/-- The worklist is exact on every sequence over a set of items precisely when no two of them
run their free texts together and none repeats a delta id. -/
theorem worklist_exact_iff (items : Set WorkItem) :
    (∀ ops, (∀ item ∈ enqueued ops, item ∈ items) →
      WorklistExact (worklistRun ops).scheduler (worklistRun ops).ledger) ↔
    (∀ a ∈ items, ∀ b ∈ items, a.kind = b.kind → a.targetId.kind = b.targetId.kind →
      a.consumerComponent = b.consumerComponent → a.freeText = b.freeText →
        a.identity = b.identity) ∧
      ∀ a ∈ items, a.triggeringDeltaIds.Nodup := by
  constructor
  · intro h
    refine ⟨?_, ?_⟩
    · intro a ha b hb hkind htarget hcomponent hfree
      have hkey := workItemKey_eq_iff.mpr ⟨hkind, htarget, hcomponent, hfree⟩
      refine identity_eq_of_worklistExact hkey (h _ ?_)
      simp [enqueued, ha, hb]
    · intro a ha
      refine nodup_of_worklistExact (h _ ?_)
      simp [enqueued, ha]
  · rintro ⟨hinj, hnodup⟩ ops hops
    have hkeys : ∀ a ∈ enqueued ops, ∀ b ∈ enqueued ops,
        workItemKey a = workItemKey b → a.identity = b.identity := by
      intro a ha b hb hkey
      obtain ⟨hkind, htarget, hcomponent, hfree⟩ := workItemKey_eq_iff.mp hkey
      exact hinj a (hops a ha) b (hops b hb) hkind htarget hcomponent hfree
    refine worklistExact_of_invariant
      (worklistInvariant_run hkeys fun a ha => hnodup a (hops a ha)) ?_
    intro a ha b hb
    exact hkeys a (ledger_subset ops ha) b (ledger_subset ops hb)

/-- A work item with the given free texts and nothing else set. -/
def plainItem (revisionId buildVariantId : String) : WorkItem :=
  ⟨.localSummary, ⟨.functionVariant, "00"⟩, revisionId, buildVariantId, .unspecified, [], 0, 0⟩

/-- Two identities are enqueued, one is pending. -/
theorem worklist_merges_distinct :
    (plainItem "a\x1fb" "c").identity ≠ (plainItem "a" "b\x1fc").identity ∧
      (worklistRun [.enqueue (plainItem "a\x1fb" "c"),
        .enqueue (plainItem "a" "b\x1fc")]).scheduler.size = 1 ∧
      ¬ WorklistExact (worklistRun [.enqueue (plainItem "a\x1fb" "c"),
          .enqueue (plainItem "a" "b\x1fc")]).scheduler
        (worklistRun [.enqueue (plainItem "a\x1fb" "c"),
          .enqueue (plainItem "a" "b\x1fc")]).ledger := by
  have hne : (plainItem "a\x1fb" "c").identity ≠ (plainItem "a" "b\x1fc").identity := by decide
  refine ⟨hne, by decide +kernel, ?_⟩
  intro h
  exact hne (identity_eq_of_worklistExact (by decide +kernel) h)

end Veritas

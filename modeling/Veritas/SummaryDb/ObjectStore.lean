import Veritas.SummaryDb.CurrentSummary

/-! The object store behind a lazy merge operator, against the store in memory. -/
namespace Veritas.SummaryDb

open Function StatusOr List ObjectStore

/-- What the database holds under a key: a value, and the operands merged since. -/
structure RocksEntry where
  existingValue : Option String := none
  operands : List String := []

abbrev ObjectStoreRocksDb := String → RocksEntry

namespace PutIfAbsentMergeOperator

/-- The database calls it with at least one operand, and reads a value without operands as it is. -/
def fullMergeV2 (existingValue : Option String) (operands : List String) : Option String :=
  match existingValue with
  | none => operands.head?
  | some value => if ∀ operand ∈ operands, operand = value then some value else none

def partialMerge (left right : String) : Option String :=
  if left ≠ right then none else some left

end PutIfAbsentMergeOperator

open PutIfAbsentMergeOperator

/-- The calls, and what the database does to a key when it chooses to: the value and the oldest
operands become the value, or two operands in a row become one. -/
inductive StoreEvent
  | putIfAbsent (key bytes : String)
  | get (key : String)
  | exists (key : String)
  | compact (key : String) (count : ℕ)
  | combine (key : String) (position : ℕ)

/-- The status code of a call, and its value. -/
inductive StoreReply
  | ok
  | bytes (value : String)
  | found (value : Bool)
  | failed (code : StatusCode)
  deriving DecidableEq

def readReply : StatusOr String → StoreReply
  | .ok value => .bytes value
  | .error status => .failed status.code

def ObjectStore.step (objects : ObjectStore) : StoreEvent → ObjectStore × Option StoreReply
  | .putIfAbsent key bytes =>
    match objects.putIfAbsent key bytes with
    | .ok objects' => (objects', some .ok)
    | .error status => (objects, some (.failed status.code))
  | .get key => (objects, some (readReply (objects.get key)))
  | .exists key => (objects, some (.found (objects key).isSome))
  | _ => (objects, none)

/-- A merge that fails leaves the entry as it is. -/
def RocksEntry.compact (entry : RocksEntry) (count : ℕ) : RocksEntry :=
  match fullMergeV2 entry.existingValue (entry.operands.take count) with
  | some value => ⟨some value, entry.operands.drop count⟩
  | none => entry

def RocksEntry.combine (entry : RocksEntry) (position : ℕ) : RocksEntry :=
  match entry.operands.drop position with
  | left :: right :: rest =>
    match partialMerge left right with
    | some value => { entry with operands := entry.operands.take position ++ value :: rest }
    | none => entry
  | _ => entry

/-- The text of the database's own status for a failed merge is a parameter. -/
def RocksEntry.get (mergeError : String) : RocksEntry → StatusOr String
  | ⟨none, []⟩ => throw (.notFound "ObjectStore: key not found")
  | ⟨existingValue, operands⟩ =>
    match fullMergeV2 existingValue operands with
    | some value => pure value
    | none => throw (.internal ("RocksDB Get failed: " ++ mergeError))

/-- `Merge` appends its operand without a look at what is there. -/
def ObjectStoreRocksDb.step (mergeError : String) (store : ObjectStoreRocksDb) :
    StoreEvent → ObjectStoreRocksDb × Option StoreReply
  | .putIfAbsent key bytes =>
    (update store key { store key with operands := (store key).operands ++ [bytes] }, some .ok)
  | .get key => (store, some (readReply ((store key).get mergeError)))
  | .exists key => (store, some (.found ((store key).get mergeError).isOk))
  | .compact key count => (update store key ((store key).compact count), none)
  | .combine key position => (update store key ((store key).combine position), none)

def replies {σ : Type} (step : σ → StoreEvent → σ × Option StoreReply) (s : σ) :
    List StoreEvent → List (Option StoreReply)
  | [] => []
  | event :: events => (step s event).2 :: replies step (step s event).1 events

/-- Both stores, opened empty, answer every call alike. -/
def SameReplies (mergeError : String) (events : List StoreEvent) : Prop :=
  replies (ObjectStoreRocksDb.step mergeError) (fun _ => {}) events = replies step .empty events

/-- No key is put with two contents. -/
def ContentAddressed (events : List StoreEvent) : Prop :=
  ∃ content : String → String, ∀ key bytes, .putIfAbsent key bytes ∈ events → bytes = content key

variable {mergeError content key bytes : String} {stored : Option String} {entry entry' : RocksEntry}
  {objects : ObjectStore} {store : ObjectStoreRocksDb} {event : StoreEvent} {events : List StoreEvent}

def RocksEntry.versions (entry : RocksEntry) : List String :=
  entry.existingValue.toList ++ entry.operands

/-- All the entry holds is one content, and the memory holds the first of it. -/
def RocksEntry.Shows (entry : RocksEntry) (content : String) (stored : Option String) : Prop :=
  (∀ version ∈ entry.versions, version = content) ∧ stored = entry.versions.head?

theorem RocksEntry.Shows.of_subset (h : entry.Shows content stored)
    (hsub : entry'.versions ⊆ entry.versions)
    (hhead : entry'.versions.head? = entry.versions.head?) : entry'.Shows content stored :=
  ⟨fun version hversion => h.1 version (hsub hversion), h.2.trans hhead.symm⟩

theorem RocksEntry.Shows.compact (h : entry.Shows content stored) (count : ℕ) :
    (entry.compact count).Shows content stored := by
  rw [RocksEntry.compact]
  split
  · next value hvalue =>
    have hhead : entry.versions.head? = some value := by
      obtain ⟨existing, operands⟩ := entry
      cases existing with
      | none =>
        cases count with
        | zero => cases hvalue
        | succ count => rwa [fullMergeV2, head?_take, if_neg (Nat.succ_ne_zero _)] at hvalue
      | some current =>
        rw [fullMergeV2, Option.ite_none_right_eq_some] at hvalue
        exact hvalue.2
    refine h.of_subset (cons_subset.mpr ⟨mem_of_mem_head? hhead, fun a ha => ?_⟩) hhead.symm
    exact mem_append_right _ (mem_of_mem_drop ha)
  · exact h

theorem RocksEntry.Shows.combine (h : entry.Shows content stored) (position : ℕ) :
    (entry.combine position).Shows content stored := by
  rw [RocksEntry.combine]
  split
  · next left right rest hdrop =>
    rw [partialMerge]
    split_ifs with hne
    · exact h
    · have hall : entry.operands = entry.operands.take position ++ left :: right :: rest := by
        rw [← hdrop, take_append_drop]
      obtain ⟨existing, operands⟩ := entry
      generalize operands.take position = older at hall ⊢
      subst hall
      refine h.of_subset ?_ (by simp [versions])
      exact (((sublist_cons_self right rest).cons_cons left).append_left older).append_left _ |>.subset
  · exact h

theorem RocksEntry.Shows.get (h : entry.Shows content (objects key)) :
    entry.get mergeError = objects.get key := by
  obtain ⟨hall, hstored⟩ := h
  rw [ObjectStore.get, hstored]
  rcases entry with ⟨_ | value, operands⟩
  · cases operands <;> rfl
  · obtain rfl := hall value mem_cons_self
    have hsame : ∀ operand ∈ operands, operand = value := fun operand hoperand =>
      hall operand (mem_cons_of_mem _ hoperand)
    simp only [RocksEntry.get, fullMergeV2, if_pos hsame]
    rfl

theorem RocksEntry.Shows.put (h : entry.Shows content stored) :
    RocksEntry.Shows { entry with operands := entry.operands ++ [content] } content
      (some content) := by
  have hversions : RocksEntry.versions { entry with operands := entry.operands ++ [content] } =
      entry.versions ++ [content] := (append_assoc ..).symm
  rw [RocksEntry.Shows, hversions]
  refine ⟨forall_mem_append.mpr ⟨h.1, by simp⟩, ?_⟩
  cases hfirst : entry.versions with
  | nil => rfl
  | cons version rest =>
    obtain rfl := h.1 version (hfirst ▸ mem_cons_self)
    rfl

variable {content : String → String}

theorem shows_update {objects' : ObjectStore}
    (h : ∀ key, (store key).Shows (content key) (objects key))
    (hother : ∀ other ≠ key, objects' other = objects other)
    (hentry : entry.Shows (content key) (objects' key)) (other : String) :
    (update store key entry other).Shows (content other) (objects' other) := by
  by_cases hkey : other = key
  · subst hkey
    rwa [update_self]
  · rw [update_of_ne hkey, hother other hkey]
    exact h other

/-- As long as every key is put with its one content, one event keeps both stores alike. -/
theorem step_shows
    (hput : ∀ key bytes, event = .putIfAbsent key bytes → bytes = content key)
    (h : ∀ key, (store key).Shows (content key) (objects key)) :
    (store.step mergeError event).2 = (objects.step event).2 ∧
      ∀ key, ((store.step mergeError event).1 key).Shows (content key)
        ((objects.step event).1 key) := by
  cases event with
  | putIfAbsent key bytes =>
    obtain rfl := hput key bytes rfl
    have hobjects : objects.putIfAbsent key (content key) =
        .ok (update objects key (some (content key))) := by
      rw [ObjectStore.putIfAbsent]
      cases hstored : objects key with
      | none => rfl
      | some value =>
        obtain rfl := (h key).1 value (mem_of_mem_head? ((h key).2.symm.trans hstored))
        rw [← hstored, update_eq_self, hstored]
        exact if_neg (not_not.mpr rfl)
    simp only [ObjectStore.step, hobjects]
    refine ⟨rfl, shows_update h (fun other hne => update_of_ne hne _ _) ?_⟩
    rw [update_self]
    exact (h key).put
  | get key => exact ⟨by rw [ObjectStoreRocksDb.step, ObjectStore.step, (h key).get], h⟩
  | «exists» key =>
    refine ⟨?_, h⟩
    rw [ObjectStoreRocksDb.step, ObjectStore.step, (h key).get, ObjectStore.get]
    cases objects key <;> rfl
  | compact key count => exact ⟨rfl, shows_update h (fun _ _ => rfl) ((h key).compact count)⟩
  | combine key position => exact ⟨rfl, shows_update h (fun _ _ => rfl) ((h key).combine position)⟩

theorem replies_eq
    (hput : ∀ key bytes, .putIfAbsent key bytes ∈ events → bytes = content key)
    (h : ∀ key, (store key).Shows (content key) (objects key)) :
    replies (ObjectStoreRocksDb.step mergeError) store events = replies step objects events := by
  induction events generalizing store objects with
  | nil => rfl
  | cons event events ih =>
    obtain ⟨hreply, hnext⟩ := @step_shows mergeError _ _ _ _
      (fun key bytes hevent => hput key bytes (hevent ▸ mem_cons_self)) h
    rw [replies, replies, hreply, ih (fun key bytes hmem => hput key bytes (mem_cons_of_mem _ hmem)) hnext]

theorem ObjectStore.keeps_step : objects.Keeps (objects.step event).1 := by
  intro key value hvalue
  cases event with
  | putIfAbsent other bytes =>
    simp only [step]
    split
    · next hput => exact (putIfAbsent_eq_ok hput).1 key value hvalue
    · exact hvalue
  | _ => exact hvalue

/-- Where the database accepts every put, the memory does so too only if no content is another. -/
theorem put_eq_of_replies (h : replies (ObjectStoreRocksDb.step mergeError) store events =
      replies step objects events) : ∃ objects', objects.Keeps objects' ∧
        ∀ key bytes, .putIfAbsent key bytes ∈ events → objects' key = some bytes := by
  induction events generalizing store objects with
  | nil => exact ⟨objects, fun _ _ h => h, fun _ _ h => nomatch h⟩
  | cons event events ih =>
    obtain ⟨hreply, hrest⟩ := List.cons.inj h
    obtain ⟨objects', hkeeps, hheld⟩ := ih hrest
    refine ⟨objects', fun key value hvalue => hkeeps _ _ (keeps_step key value hvalue), ?_⟩
    intro key bytes hput
    rcases mem_cons.mp hput with rfl | hput
    · refine hkeeps _ _ ?_
      simp only [ObjectStoreRocksDb.step, step] at hreply ⊢
      split at hreply
      · next hok => exact (putIfAbsent_eq_ok hok).2
      · cases hreply
    · exact hheld key bytes hput

/-- The database answers as the memory does in the runs that put no key with two contents, and in
no others. -/
theorem sameReplies_iff (mergeError : String) (events : List StoreEvent) :
    SameReplies mergeError events ↔ ContentAddressed events := by
  constructor
  · intro h
    obtain ⟨objects, -, hheld⟩ := put_eq_of_replies h
    exact ⟨fun key => (objects key).getD "", fun key bytes hput => by simp [hheld key bytes hput]⟩
  · rintro ⟨content, hput⟩
    exact replies_eq hput fun key => ⟨by simp [RocksEntry.versions], rfl⟩

/-- The second content is accepted, and once the first one is folded neither is readable. -/
theorem conflicting_put_unreadable : replies (ObjectStoreRocksDb.step "") (fun _ => {})
        [.putIfAbsent "k" "a", .compact "k" 1, .putIfAbsent "k" "b", .get "k", .exists "k"] =
      [some .ok, none, some .ok, some (.failed .internal), some (.found false)] ∧
    replies step .empty
        [.putIfAbsent "k" "a", .compact "k" 1, .putIfAbsent "k" "b", .get "k", .exists "k"] =
      [some .ok, none, some (.failed .internal), some (.bytes "a"), some (.found true)] := by
  decide +kernel

end Veritas.SummaryDb

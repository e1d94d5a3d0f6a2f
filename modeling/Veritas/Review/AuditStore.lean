import Mathlib.Data.Finset.Card

/-! The review's event log and checkpoint, through every crash that leaves whole lines. -/
namespace Veritas.Review

open List

abbrev Bytes := List UInt8

def newline : UInt8 := 10

def carriageReturn : UInt8 := 13

def splitLines : Bytes → List Bytes
  | [] => []
  | b :: rest =>
    if b = carriageReturn ∧ rest.head? = some newline then [] :: splitLines rest.tail
    else if b = newline ∨ b = carriageReturn then [] :: splitLines rest
    else match splitLines rest with
      | [] => [[b]]
      | line :: lines => (b :: line) :: lines
  termination_by file => file.length
  decreasing_by all_goals simp; try omega

def readLimit : ℕ := 32 * 1024 * 1024 + 1

def genesis : String := String.ofList (List.replicate 64 '0')

abbrev Costs := Std.ExtTreeMap String ℤ compare

/-- The keys of a review that the store reads; `rest` holds the others. -/
structure ReviewData (κ : Type) where
  status : String
  grants : List κ
  costs : Costs
  unknowns : List String
  auditBytes : ℤ
  rest : κ
  deriving DecidableEq

def ReviewData.abort {κ : Type} (data : ReviewData κ) (reason : String) (costs : Costs) :
    ReviewData κ :=
  { data with
    status := "ABORTED"
    grants := []
    costs := costs.foldl (fun kept key value => kept.insert key (max (kept.getD key 0) value))
      data.costs
    unknowns := data.unknowns ++ ["Interrupted or refused dispatch: " ++ reason ++
      "; durable reservation retained; no automatic redispatch."] }

/-- An event as it is hashed; only an abort carries a reason and costs. -/
structure Event (κ : Type) where
  sequence : ℕ
  previous : String
  event : String
  state : Option (ReviewData κ)
  terminal : Option (String × Costs)
  deriving DecidableEq

structure Entry (κ : Type) extends Event κ where
  hash : String
  deriving DecidableEq

/-- A state with its sequence number and head, as the checkpoint holds it and `load` returns it. -/
structure Checkpoint (κ : Type) where
  sequence : ℕ
  head : String
  state : ReviewData κ
  deriving DecidableEq

/-- Canonical JSON, which may refuse a value but reads back what it wrote, on one line. -/
structure AuditText (κ : Type) where
  digest : Event κ → Except String String
  encode : Entry κ → Except String Bytes
  decode : Bytes → Option (Entry κ)
  encodeCheckpoint : Checkpoint κ → Except String Bytes
  decodeCheckpoint : Bytes → Option (Checkpoint κ)
  decode_encode : ∀ {entry raw}, encode entry = .ok raw → decode raw = some entry
  oneLine : ∀ {entry raw}, encode entry = .ok raw → newline ∉ raw ∧ carriageReturn ∉ raw
  decodeCheckpoint_encode : ∀ {c file}, encodeCheckpoint c = .ok file →
    decodeCheckpoint file = some c

structure Disk where
  events : Option Bytes
  checkpoint : Option Bytes

def corrupt : String := "corrupt review audit/checkpoint"

section Store

variable {κ : Type}

/-- What one event makes of the latest state. -/
def applyEvent (latest : Option (ReviewData κ)) (event : Event κ) :
    Except String (Option (ReviewData κ)) :=
  if event.event ≠ "aborted" then .ok event.state
  else match latest, event.state, event.terminal with
    | some data, none, some (reason, costs) => .ok (some (data.abort reason costs))
    | some _, none, none => .error corrupt
    | _, _, _ => .error "invalid abort event"

structure Scan (κ : Type) where
  seq : ℕ
  previous : String
  latest : Option (ReviewData κ)
  checkpointSeen : Bool

/-- The steps that reach the two files; the temporary file is read by nobody. -/
inductive Effect (κ : Type)
  | openLog
  | append (entry : Entry κ) (raw : Bytes)
  | replace (file : Bytes)

/-- An entry with its hash and its line. -/
def AuditText.seal (text : AuditText κ) (event : Event κ) : Except String (Entry κ × Bytes) := do
  let hash ← text.digest event
  let raw ← text.encode ⟨event, hash⟩
  return (⟨event, hash⟩, raw ++ [newline])

/-- A call's steps on the files, up to where it returns or raises. -/
abbrev Outcome (κ α : Type) := List (Effect κ) × Except String α

def publish (text : AuditText κ) (entry : Entry κ) (raw : Bytes) (state : ReviewData κ) :
    Outcome κ Unit :=
  match text.encodeCheckpoint ⟨entry.sequence, entry.hash, state⟩ with
  | .error e => ([.openLog, .append entry raw], .error e)
  | .ok file => ([.openLog, .append entry raw, .replace file], .ok ())

/-- A state with the head its caller takes for the last one. -/
structure Record (κ : Type) where
  auditHead : Option String
  auditSequence : Option ℕ
  state : ReviewData κ

inductive Call (κ : Type)
  | save (data : Record κ) (event : String)
  | abort (reason : String) (costs : Costs)

/-- A crash between two steps, or while the line of the next step is written. -/
inductive Crash
  | between (done : ℕ)
  | during (done bytes : ℕ)

/-- The disk, with the events whose line was completely written. -/
structure Attempt (κ : Type) where
  disk : Disk
  log : List (Entry κ)

def Attempt.fresh : Attempt κ := ⟨⟨none, none⟩, []⟩

def Attempt.apply (a : Attempt κ) : Effect κ → Attempt κ
  | .openLog => { a with disk.events := some (a.disk.events.getD []) }
  | .append entry raw => ⟨{ a.disk with events := some (a.disk.events.getD [] ++ raw) },
      a.log ++ [entry]⟩
  | .replace file => { a with disk.checkpoint := some file }

def Attempt.tear (a : Attempt κ) (bytes : ℕ) : Option (Effect κ) → Attempt κ
  | some (.append entry raw) =>
    if raw.length ≤ bytes then a.apply (.append entry raw)
    else { a with disk.events := some (a.disk.events.getD [] ++ raw.take bytes) }
  | _ => a

/-- The whole steps of a call before its crash. -/
def performed (effects : List (Effect κ)) : Option Crash → List (Effect κ)
  | none => effects
  | some (.between done) | some (.during done _) => effects.take done

/-- The last completely written event, with aborts applied. -/
def lastEvent (log : List (Entry κ)) : Option (Checkpoint κ) := do
  let entry ← log.getLast?
  let state ← (log.foldlM (fun latest entry => applyEvent latest entry.toEvent) none).toOption.join
  return ⟨entry.sequence, entry.hash, state⟩

variable [DecidableEq κ] (text : AuditText κ)

def Scan.step (checkpoint : Checkpoint κ) (scan : Scan κ) (line : Bytes) : Except String (Scan κ) :=
  match text.decode line with
  | none => .error corrupt
  | some entry =>
    if entry.sequence ≠ scan.seq + 1 ∨ entry.previous ≠ scan.previous then
      .error "event chain mismatch"
    else do
      let hash ← text.digest entry.toEvent
      if hash ≠ entry.hash then .error "event chain mismatch"
      else do
        let latest ← applyEvent scan.latest entry.toEvent
        return ⟨scan.seq + 1, entry.hash, latest,
          if scan.seq + 1 = checkpoint.sequence then
            decide (checkpoint.head = entry.hash ∧ some checkpoint.state = latest)
          else scan.checkpointSeen⟩

def Scan.result : Scan κ → Except String (Checkpoint κ)
  | ⟨seq, previous, some latest, true⟩ => .ok ⟨seq, previous, latest⟩
  | _ => .error "checkpoint mismatch"

def load (disk : Disk) : Except String (Checkpoint κ) :=
  match disk.events, disk.checkpoint with
  | some events, some file =>
    match text.decodeCheckpoint (file.take readLimit) with
    | none => .error corrupt
    | some checkpoint =>
      if (events.take readLimit).getLast? ≠ some newline then .error "incomplete event chain"
      else (splitLines (events.take readLimit)).foldlM (Scan.step text checkpoint)
        ⟨0, genesis, none, false⟩ >>= Scan.result
  | _, _ => .error corrupt

def clip (reason : String) : String := String.ofList (reason.toList.take 128)

def Disk.logSize (disk : Disk) : ℤ := (disk.events.getD []).length

def abort (disk : Disk) (reason : String) (costs : Costs) : Outcome κ Unit :=
  match load text disk with
  | .error e => ([], .error e)
  | .ok data =>
    if data.state.status = "ABORTED" then ([], .ok ())
    else match text.seal ⟨data.sequence + 1, data.head, "aborted", none,
        some (clip reason, costs)⟩ with
      | .error e => ([], .error e)
      | .ok (entry, raw) =>
        if raw.length > 1024 ∨ disk.logSize + raw.length > data.state.auditBytes then
          ([], .error "terminal audit byte budget")
        else publish text entry raw (data.state.abort (clip reason) costs)

def save (disk : Disk) (data : Record κ) (event : String) : Outcome κ (Record κ) :=
  match text.seal ⟨data.auditSequence.getD 0 + 1, data.auditHead.getD genesis, event,
      some data.state, none⟩ with
  | .error e => ([], .error e)
  | .ok (entry, raw) =>
    if disk.logSize + raw.length > data.state.auditBytes - 1024 then
      if disk.events.isSome ∧ disk.checkpoint.isSome then
        (abort text disk "audit byte budget exhausted" data.state.costs).map id
          (· >>= fun _ => .error "audit byte budget")
      else ([], .error "audit byte budget")
    else (publish text entry raw data.state).map id
      (·.map fun _ => ⟨some entry.hash, some entry.sequence, data.state⟩)

def Call.effects (disk : Disk) : Call κ → List (Effect κ)
  | .save data event => (Review.save text disk data event).1
  | .abort reason costs => (Review.abort text disk reason costs).1

def Attempt.step (a : Attempt κ) (call : Call κ × Option Crash) : Attempt κ :=
  let effects := call.1.effects text a.disk
  let done := (performed effects call.2).foldl Attempt.apply a
  match call.2 with
  | some (.during n bytes) => done.tear bytes effects[n]?
  | _ => done

def Attempt.run (a : Attempt κ) (calls : List (Call κ × Option Crash)) : Attempt κ :=
  calls.foldl (Attempt.step text) a

/-- The store can be reopened at its last durable event. -/
def Reopens (a : Attempt κ) : Prop :=
  a.log ≠ [] → ∃ c, lastEvent a.log = some c ∧ load text a.disk = .ok c

/-- A save continues the last written event, no line is torn, the first event is not cut off from
its checkpoint, and both files fit one bounded read. -/
structure Safe (a : Attempt κ) (call : Call κ × Option Crash) : Prop where
  continues : ∀ data event, call.1 = .save data event → event ≠ "aborted" ∧
    data.auditSequence.getD 0 = (lastEvent a.log).elim 0 (·.sequence) ∧
    data.auditHead.getD genesis = (lastEvent a.log).elim genesis (·.head)
  whole : ∀ n bytes, call.2 ≠ some (.during n bytes)
  first : a.log = [] → (performed (call.1.effects text a.disk) call.2).length ≠ 2
  log_fits : ∀ entry raw, .append entry raw ∈ call.1.effects text a.disk →
    (a.disk.events.getD []).length + raw.length ≤ readLimit
  checkpoint_fits : ∀ file, .replace file ∈ call.1.effects text a.disk → file.length ≤ readLimit

/-- Every call is safe where the run makes it. -/
def SafeRun : Attempt κ → List (Call κ × Option Crash) → Prop
  | _, [] => True
  | a, call :: calls => Safe text a call ∧ SafeRun (a.step text call) calls

end Store

section Recovery

variable {κ : Type}

/-- An entry continues the state before it. -/
structure Follows (text : AuditText κ) (c : Option (Checkpoint κ)) (e : Entry κ)
    (s : ReviewData κ) : Prop where
  sequence : e.sequence = c.elim 0 (·.sequence) + 1
  previous : e.previous = c.elim genesis (·.head)
  hash : text.digest e.toEvent = .ok e.hash
  state : applyEvent (c.map (·.state)) e.toEvent = .ok (some s)

/-- A log with its text, the state it ends in and the state that was marked last. -/
inductive Recorded (text : AuditText κ) : List (Entry κ) → Bytes → Option (Checkpoint κ) →
    Option (Checkpoint κ) → Prop
  | empty : Recorded text [] [] none none
  | append {log file raw c m e s} : Recorded text log file c m → Follows text c e s →
      text.encode e = .ok raw → Recorded text (log ++ [e]) (file ++ (raw ++ [newline]))
        (some ⟨e.sequence, e.hash, s⟩) m
  | mark {log file c m} : Recorded text log file c m → Recorded text log file c c

variable {text : AuditText κ} {log : List (Entry κ)} {file raw : Bytes}
  {c m : Option (Checkpoint κ)} {e : Entry κ} {s : ReviewData κ}

theorem splitLines_line {rest : Bytes} (h : newline ∉ raw ∧ carriageReturn ∉ raw) :
    splitLines (raw ++ newline :: rest) = raw :: splitLines rest := by
  induction raw with
  | nil => simp [splitLines, newline, carriageReturn]
  | cons b raw ih =>
    simp only [mem_cons, not_or] at h
    obtain ⟨⟨hn, hraw⟩, hc, hraw'⟩ := h
    rw [cons_append, splitLines, ih ⟨hraw, hraw'⟩]
    simp [Ne.symm hn, Ne.symm hc]

theorem foldlM_recorded (h : Recorded text log file c m) :
    log.foldlM (fun latest entry => applyEvent latest entry.toEvent) none =
      .ok (c.map (·.state)) := by
  induction h with
  | empty => rfl
  | append _ hfollows _ ih =>
    rw [foldlM_append, ih]
    exact (bind_pure _).trans hfollows.state
  | mark _ ih => exact ih

theorem lastEvent_recorded (h : Recorded text log file c m) : lastEvent log = c := by
  induction h with
  | empty => rfl
  | mark _ ih => exact ih
  | append h hfollows hraw _ =>
    rw [lastEvent, foldlM_recorded (.append h hfollows hraw)]
    simp [Except.toOption]

theorem recorded_ends (h : Recorded text log file c m) :
    (log = [] → c = none ∧ m = none) ∧ (log ≠ [] → c ≠ none ∧ file.getLast? = some newline) := by
  induction h with
  | empty => simp
  | append => simp
  | mark _ ih => exact ⟨fun hlog => ⟨(ih.1 hlog).1, (ih.1 hlog).1⟩, ih.2⟩

/-- What the two files hold between any two steps. -/
structure Held (text : AuditText κ) (a : Attempt κ) (c m : Option (Checkpoint κ)) : Prop where
  recorded : Recorded text a.log (a.disk.events.getD []) c m
  marked : m.map text.encodeCheckpoint = a.disk.checkpoint.map .ok
  log_fits : (a.disk.events.getD []).length ≤ readLimit
  checkpoint_fits : ∀ file, a.disk.checkpoint = some file → file.length ≤ readLimit

/-- Where the log has a line, some state was marked. -/
def Sound (text : AuditText κ) (a : Attempt κ) : Prop :=
  ∃ c m, Held text a c m ∧ (a.log ≠ [] → m ≠ none)

theorem seal_eq_ok {event : Event κ} {line : Bytes} (h : text.seal event = .ok (e, line)) :
    e.toEvent = event ∧ text.digest event = .ok e.hash ∧
      ∃ raw, text.encode e = .ok raw ∧ line = raw ++ [newline] := by
  unfold AuditText.seal at h
  cases hhash : text.digest event with
  | error => simp [hhash, bind, Except.bind] at h
  | ok hash =>
    cases hraw : text.encode ⟨event, hash⟩ with
    | error => simp [hhash, hraw, bind, Except.bind] at h
    | ok raw =>
      simp only [hhash, hraw, bind, Except.bind, pure, Except.pure, Except.ok.injEq,
        Prod.mk.injEq] at h
      obtain ⟨rfl, rfl⟩ := h
      exact ⟨rfl, rfl, raw, hraw, rfl⟩

variable {a : Attempt κ}

theorem held_open (h : Held text a c m) : Held text (a.apply .openLog) c m :=
  ⟨h.recorded, h.marked, h.log_fits, h.checkpoint_fits⟩

theorem held_append (h : Held text a c m) (hfollows : Follows text c e s)
    (hraw : text.encode e = .ok raw)
    (hfits : (a.disk.events.getD []).length + (raw ++ [newline]).length ≤ readLimit) :
    Held text (a.apply (.append e (raw ++ [newline]))) (some ⟨e.sequence, e.hash, s⟩) m :=
  ⟨.append h.recorded hfollows hraw, h.marked, by
    simpa only [Attempt.apply, Option.getD_some, List.length_append] using hfits,
    h.checkpoint_fits⟩

theorem held_replace {cp : Checkpoint κ} (h : Held text a (some cp) m)
    (hfile : text.encodeCheckpoint cp = .ok file) (hfits : file.length ≤ readLimit) :
    Held text (a.apply (.replace file)) (some cp) (some cp) :=
  ⟨.mark h.recorded, congrArg some hfile, h.log_fits, fun _ h => Option.some.inj h ▸ hfits⟩

variable [DecidableEq κ]

/-- The loop of `load` after a log that ends in the given state. -/
def scanned (c : Option (Checkpoint κ)) (seen : Bool) : Scan κ :=
  ⟨c.elim 0 (·.sequence), c.elim genesis (·.head), c.map (·.state), seen⟩

theorem scan_follows (h : Follows text c e s) (hraw : text.encode e = .ok raw)
    (cp : Checkpoint κ) (seen : Bool) : Scan.step text cp (scanned c seen) raw =
      .ok (scanned (some ⟨e.sequence, e.hash, s⟩) (if e.sequence = cp.sequence then
        decide (cp.head = e.hash ∧ cp.state = s) else seen)) := by
  simp only [Scan.step, scanned, text.decode_encode hraw, ← h.sequence, ← h.previous, ne_eq,
    not_true_eq_false, or_self, if_false, h.hash, h.state, bind, Except.bind, pure, Except.pure,
    Option.some.injEq, Option.elim_some, Option.map_some]

/-- Every log is read back to its state, and its marked state is recognised on the way. -/
theorem scan_recorded (h : Recorded text log file c m) :
    ∃ lines, (∀ rest, splitLines (file ++ rest) = lines ++ splitLines rest) ∧ ∀ cp, ∃ seen,
      lines.foldlM (Scan.step text cp) (scanned none false) = .ok (scanned c seen) ∧
      (c = some cp → seen = true) ∧
      (m = some cp → seen = true ∧ cp.sequence ≤ c.elim 0 (·.sequence)) := by
  induction h with
  | empty => exact ⟨[], fun _ => rfl, fun cp => ⟨false, rfl, by simp, by simp⟩⟩
  | @append log file raw c m e s _ hfollows hraw ih =>
    obtain ⟨lines, hsplit, hscan⟩ := ih
    refine ⟨lines ++ [raw], fun rest => ?_, fun cp => ?_⟩
    · rw [append_assoc, append_assoc, singleton_append, hsplit,
        splitLines_line (text.oneLine hraw), append_assoc, singleton_append]
    · obtain ⟨seen, hfold, -, hmark⟩ := hscan cp
      have hsequence := hfollows.sequence
      have hstep := scan_follows hfollows hraw cp seen
      refine ⟨_, by rw [foldlM_append, hfold]; exact (bind_pure _).trans hstep, ?_, ?_⟩
      · rintro ⟨rfl⟩
        simp
      · intro hm
        obtain ⟨hseen, hle⟩ := hmark hm
        have hne : e.sequence ≠ cp.sequence := by omega
        simp only [if_neg hne, Option.elim_some]
        exact ⟨hseen, by omega⟩
  | mark _ ih =>
    obtain ⟨lines, hsplit, hscan⟩ := ih
    refine ⟨lines, hsplit, fun cp => ?_⟩
    obtain ⟨seen, hfold, hlast, -⟩ := hscan cp
    refine ⟨seen, hfold, hlast, fun hc => ⟨hlast hc, ?_⟩⟩
    rw [hc, Option.elim_some]

theorem load_of_held (h : Held text a c m) (hlog : a.log ≠ []) (hm : m ≠ none) :
    ∃ cp, c = some cp ∧ load text a.disk = .ok cp := by
  obtain ⟨⟨events, checkpoint⟩, log⟩ := a
  obtain ⟨cp, rfl⟩ := Option.ne_none_iff_exists'.mp hm
  obtain ⟨hc, hlast⟩ := (recorded_ends h.recorded).2 hlog
  obtain ⟨last, rfl⟩ := Option.ne_none_iff_exists'.mp hc
  obtain ⟨file, rfl, hfile⟩ := Option.map_eq_some_iff.mp h.marked.symm
  cases events with
  | none => simp at hlast
  | some events =>
    obtain ⟨lines, hsplit, hscan⟩ := scan_recorded h.recorded
    obtain ⟨seen, hfold, -, hseen⟩ := hscan cp
    obtain rfl := (hseen rfl).1
    have hlines : splitLines events = lines := by
      simpa [splitLines] using hsplit []
    have hfits : events.length ≤ readLimit := h.log_fits
    have hends : events.getLast? = some newline := hlast
    refine ⟨last, rfl, ?_⟩
    simp only [load, take_of_length_le (h.checkpoint_fits file rfl),
      take_of_length_le hfits, text.decodeCheckpoint_encode hfile.symm, hlines]
    rw [if_neg (not_not.mpr hends)]
    exact congrArg (· >>= Scan.result) hfold

theorem held_of_load (h : Held text a c m) (hm : a.log ≠ [] → m ≠ none) {data : Checkpoint κ}
    (hload : load text a.disk = .ok data) : c = some data := by
  by_cases hlog : a.log = []
  · have hmark := h.marked
    rw [((recorded_ends h.recorded).1 hlog).2] at hmark
    have hnone : a.disk.checkpoint = none := Option.map_eq_none_iff.mp hmark.symm
    simp [load, hnone] at hload
  · obtain ⟨cp, hc, hok⟩ := load_of_held h hlog (hm hlog)
    exact hc.trans (congrArg some (Except.ok.inj (hok.symm.trans hload)))

/-- A call writes nothing, or publishes one event that continues the log. -/
def Publishes (text : AuditText κ) (c : Option (Checkpoint κ)) (effects : List (Effect κ)) : Prop :=
  effects = [] ∨ ∃ e s raw, Follows text c e s ∧ text.encode e = .ok raw ∧
    effects = (publish text e (raw ++ [newline]) s).1

theorem publishes_abort (h : Held text a c m) (hm : a.log ≠ [] → m ≠ none) (reason : String)
    (costs : Costs) : Publishes text c (abort text a.disk reason costs).1 := by
  unfold abort
  split
  · exact .inl rfl
  · rename_i data hload
    obtain rfl := held_of_load h hm hload
    split_ifs
    · exact .inl rfl
    · split
      · exact .inl rfl
      · rename_i entry line hseal
        obtain ⟨hevent, hhash, raw, hraw, rfl⟩ := seal_eq_ok hseal
        split_ifs
        · exact .inl rfl
        · refine .inr ⟨entry, _, raw, ⟨?_, ?_, hevent ▸ hhash, ?_⟩, hraw, rfl⟩
          all_goals simp [hevent, applyEvent]

variable {call : Call κ × Option Crash}

theorem publishes_call (h : Held text a c m) (hm : a.log ≠ [] → m ≠ none) (hsafe : Safe text a call) :
    Publishes text c (call.1.effects text a.disk) := by
  obtain ⟨call, crash⟩ := call
  cases call with
  | abort reason costs => exact publishes_abort h hm reason costs
  | save data event =>
    obtain ⟨hname, hsequence, hhead⟩ := hsafe.continues data event rfl
    rw [lastEvent_recorded h.recorded] at hsequence hhead
    simp only [Call.effects, save]
    split
    · exact .inl rfl
    · rename_i entry line hseal
      obtain ⟨hevent, hhash, raw, hraw, rfl⟩ := seal_eq_ok hseal
      split_ifs
      · exact publishes_abort h hm _ _
      · exact .inl rfl
      · refine .inr ⟨entry, data.state, raw, ⟨?_, ?_, hevent ▸ hhash, ?_⟩, hraw, rfl⟩
        all_goals simp [hevent, applyEvent, hsequence, hhead, hname]

/-- A safe call keeps the files sound, wherever it is cut off. -/
theorem sound_step (h : Sound text a) (hsafe : Safe text a call) :
    Sound text (a.step text call) := by
  obtain ⟨c, m, h, hm⟩ := h
  obtain ⟨call, crash⟩ := call
  have hpublishes := publishes_call h hm hsafe
  obtain ⟨-, hwhole, hfirst, hlog, hcheckpoint⟩ := hsafe
  obtain ⟨n, hperformed, hstep⟩ : ∃ n, performed (call.effects text a.disk) crash =
      (call.effects text a.disk).take n ∧ a.step text (call, crash) =
        ((call.effects text a.disk).take n).foldl Attempt.apply a := by
    rcases crash with _ | n | ⟨n, bytes⟩
    · exact ⟨(call.effects text a.disk).length, take_length.symm, by
        rw [take_length]
        rfl⟩
    · exact ⟨n, rfl, rfl⟩
    · exact absurd rfl (hwhole n bytes)
  rw [hstep]
  rw [hperformed] at hfirst
  generalize call.effects text a.disk = effects at hpublishes hfirst hlog hcheckpoint ⊢
  rcases hpublishes with rfl | ⟨e, s, raw, hfollows, hraw, rfl⟩
  · rw [take_nil]
    exact ⟨c, m, h, hm⟩
  · unfold publish at hfirst hlog hcheckpoint ⊢
    have happend := fun hfits => held_append (held_open h) hfollows hraw hfits
    cases hfile : text.encodeCheckpoint ⟨e.sequence, e.hash, s⟩ with
    | error =>
      simp only [hfile] at hfirst hlog ⊢
      match n with
      | 0 => exact ⟨c, m, h, hm⟩
      | 1 => exact ⟨c, m, held_open h, hm⟩
      | n + 2 =>
        have hheld := happend (hlog e _ (by simp))
        exact ⟨_, m, by simpa using hheld, fun _ => hm fun hnil => hfirst hnil (by simp)⟩
    | ok file =>
      simp only [hfile] at hfirst hlog hcheckpoint ⊢
      have hheld := happend (hlog e _ (by simp))
      match n with
      | 0 => exact ⟨c, m, h, hm⟩
      | 1 => exact ⟨c, m, held_open h, hm⟩
      | 2 => exact ⟨_, m, hheld, fun _ => hm fun hnil => hfirst hnil rfl⟩
      | n + 3 =>
        have hmarked := held_replace hheld hfile (hcheckpoint file (by simp))
        exact ⟨_, _, by simpa using hmarked, by simp⟩

/-- A store whose calls were all safe is reopened at its last durable event. -/
theorem reopens_of_safeRun (text : AuditText κ) (calls : List (Call κ × Option Crash))
    (hsafe : SafeRun text .fresh calls) : Reopens text (Attempt.fresh.run text calls) := by
  have hrun : ∀ (calls : List (Call κ × Option Crash)) (a : Attempt κ), Sound text a →
      SafeRun text a calls → Sound text (a.run text calls) := by
    intro calls
    induction calls with
    | nil => exact fun _ h _ => h
    | cons call calls ih => exact fun a h hsafe => ih _ (sound_step h hsafe.1) hsafe.2
  obtain ⟨c, m, h, hm⟩ := hrun calls .fresh
    ⟨none, none, ⟨.empty, rfl, Nat.zero_le _, by simp [Attempt.fresh]⟩, by simp [Attempt.fresh]⟩
    hsafe
  intro hlog
  obtain ⟨cp, rfl, hload⟩ := load_of_held h hlog (hm hlog)
  exact ⟨cp, lastEvent_recorded h.recorded, hload⟩

end Recovery

def sampleState : ReviewData Unit := ⟨"CREATED", [], ∅, [], 4096, ()⟩

def sampleEntry : Entry Unit := ⟨⟨1, genesis, "created", some sampleState, none⟩, "head"⟩

/-- A text that knows one event and its checkpoint and refuses the rest. -/
def sampleText : AuditText Unit where
  digest _ := .ok "head"
  encode e := if e = sampleEntry then .ok [0] else .error "JSON nesting limit"
  decode raw := if raw = [0] then some sampleEntry else none
  encodeCheckpoint c := if c = ⟨1, "head", sampleState⟩ then .ok [0]
    else .error "JSON nesting limit"
  decodeCheckpoint file := if file = [0] then some ⟨1, "head", sampleState⟩ else none
  decode_encode := by
    intro e raw h
    split_ifs at h with he
    obtain rfl := Except.ok.inj h
    simp [he]
  oneLine := by
    intro e raw h
    split_ifs at h
    obtain rfl := Except.ok.inj h
    decide
  decodeCheckpoint_encode := by
    intro c file h
    split_ifs at h with hc
    obtain rfl := Except.ok.inj h
    simp [hc]

def sampleSave : Call Unit := .save ⟨none, none, sampleState⟩ "created"

theorem sampleSave_effects : sampleSave.effects sampleText ⟨none, none⟩ =
    [.openLog, .append sampleEntry [0, newline], .replace [0]] := by
  simp [sampleSave, Call.effects, save, AuditText.seal, sampleText, sampleEntry, sampleState,
    publish, Disk.logSize, bind, Except.bind, pure, Except.pure]

theorem sampleSave_reopens :
    Reopens sampleText (Attempt.fresh.run sampleText [(sampleSave, none)]) := by
  refine reopens_of_safeRun sampleText _ ⟨⟨?_, by simp, ?_, ?_, ?_⟩, trivial⟩
  · rintro data event ⟨rfl, rfl⟩
    exact ⟨by decide, rfl, rfl⟩
  all_goals simp [performed, Attempt.fresh, sampleSave_effects, readLimit]

/-- A crash right after the first event is written leaves a log without a checkpoint, which does
not load. -/
theorem first_event_not_reopened :
    ¬ Reopens sampleText (Attempt.fresh.run sampleText [(sampleSave, some (.between 2))]) := by
  have hrun : Attempt.fresh.run sampleText [(sampleSave, some (.between 2))] =
      ⟨⟨some [0, newline], none⟩, [sampleEntry]⟩ := by
    simp [Attempt.run, Attempt.step, Attempt.fresh, performed, sampleSave_effects, Attempt.apply]
  rw [hrun]
  intro h
  obtain ⟨c, -, hload⟩ := h (by simp)
  simp [load] at hload

end Veritas.Review

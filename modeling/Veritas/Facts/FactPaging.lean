import Veritas.Facts.LookupIndex

/-! Paged reads of a sealed index: nothing is lost and nothing is repeated. -/
namespace Veritas

open Ordered StatusOr List

variable {ctx : StoreContext} {known : Set MachineRow} {s : FactTables} {runId : StableId}
  {selector : FactSelector} {fact : MachineFact} {L : List MachineFact}

/-- A fact that the run binds and the selector asks for. -/
structure SelectedFact (ctx : StoreContext) (known : Set MachineRow) (s : FactTables) (run : String)
    (selector : FactSelector) (fact : MachineFact) : Prop where
  bound : BoundFact ctx known s run fact
  relation : fact.row.relation = selector.relation
  cells : ∀ eq ∈ selector.equalities, fact.row.cells[eq.column]? = some eq.value

/-- The facts with a property, each once, in ascending order of their ids. -/
structure Listing (P : MachineFact → Prop) (L : List MachineFact) : Prop where
  ascending : L.Pairwise fun a b => a.factId.column < b.factId.column
  mem : ∀ fact, fact ∈ L ↔ P fact

theorem exists_listing (hfree : CollisionFree ctx known) (hs : CanonicalStore ctx known s)
    (run : String) (selector : FactSelector) :
    ∃ L, Listing (SelectedFact ctx known s run selector) L := by
  classical
  let pick : String → Option MachineFact := fun id =>
    if h : ∃ fact, SelectedFact ctx known s run selector fact ∧ fact.factId.column = id then
      some h.choose else none
  have hpick : ∀ id fact, pick id = some fact ↔
      SelectedFact ctx known s run selector fact ∧ fact.factId.column = id := by
    intro id fact
    by_cases h : ∃ fact, SelectedFact ctx known s run selector fact ∧ fact.factId.column = id
    · simp only [pick, dif_pos h, Option.some.injEq]
      obtain ⟨hselected, hcolumn⟩ := h.choose_spec
      constructor
      · rintro rfl
        exact ⟨hselected, hcolumn⟩
      · rintro ⟨hfact, hid⟩
        exact hfree.bound_eq hselected.bound hfact.bound (hcolumn.trans hid.symm)
    · simp only [pick, dif_neg h, reduceCtorEq, false_iff]
      exact fun hfact => h ⟨fact, hfact⟩
  refine ⟨(s.currentIds run).filterMap pick, ?_, fun fact => ?_⟩
  · refine List.Pairwise.filterMap pick ?_ (currentIds_pairwise hs.unique run)
    intro a b hab fact hfact fact' hfact'
    rw [((hpick a fact).mp hfact).2, ((hpick b fact').mp hfact').2]
    exact hab
  · rw [mem_filterMap]
    constructor
    · rintro ⟨id, -, hid⟩
      exact ((hpick id fact).mp hid).1
    · intro hfact
      exact ⟨fact.factId.column, mem_currentIds.mpr hfact.bound.current,
        (hpick _ fact).mpr ⟨hfact, rfl⟩⟩

/-- A checked selector, in the terms of the index. -/
structure ScanOf (ctx : StoreContext) (selector : FactSelector) (relation : RelationId)
    (scan : PageScan) : Prop where
  inRange : relationAt selector.relation = some relation
  name : scan.relationName = (relationsV2 relation).name
  equalities : ∀ eq, eq ∈ scan.equalities ↔ eq ∈ selector.equalities
  driving : (scan.drivingColumn = -1 ∧ scan.drivingDigest = "") ∨
    ∃ eq ∈ selector.equalities, ∃ column, (relationsV2 relation).columns[eq.column]? = some column ∧
      scan.drivingColumn = eq.column ∧
        scan.drivingDigest = ctx.sha256 (encodeCell column.domain eq.value)

theorem checkEqualities_eq_ok {schema : RelationSchema} {previous : Option ℕ}
    {equalities : List CellEquality} (h : checkEqualities schema previous equalities = .ok ()) :
    ∀ eq ∈ equalities, ∃ column, schema.columns[eq.column]? = some column ∧
      column.domain = eq.domain := by
  induction equalities generalizing previous with
  | nil => simp
  | cons first rest ih =>
    obtain ⟨hfirst, h⟩ := bind_unit_eq_ok.mp h
    obtain ⟨hcolumn, -⟩ := guard_eq_ok.mp hfirst
    intro eq heq
    rcases mem_cons.mp heq with rfl | heq
    · have hdomain := not_not.mp (not_or.mp hcolumn).1
      exact Option.map_eq_some_iff.mp hdomain
    · exact ih h eq heq

variable {scan : PageScan} {relation : RelationId} {row : LookupRow} {after run snapshot : String}
  {P : MachineFact → Prop} {earlier : List MachineFact} {page : FactPage} {read : PageRead}
  {remaining : ℕ} {request : PageRequest}

theorem scanOf_pageScan (h : pageScan ctx selector = .ok scan) :
    ∃ relation, ScanOf ctx selector relation scan := by
  unfold pageScan at h
  cases hrelation : relationAt selector.relation with
  | none =>
    rw [hrelation] at h
    cases h
  | some relation =>
    rw [hrelation] at h
    obtain ⟨-, h⟩ := guard_eq_ok.mp h
    obtain ⟨hchecked, h⟩ := bind_unit_eq_ok.mp h
    obtain rfl := pure_eq_ok.mp h
    have hmem : ∀ eq, eq ∈ sortEqualities selector.equalities ↔ eq ∈ selector.equalities :=
      fun eq => mem_insertionSort _
    refine ⟨relation, hrelation, rfl, hmem, ?_⟩
    cases hsorted : sortEqualities selector.equalities with
    | nil => exact .inl ⟨rfl, rfl⟩
    | cons eq rest =>
      have hin : eq ∈ sortEqualities selector.equalities := by simp [hsorted]
      obtain ⟨column, hcolumn, hdomain⟩ := checkEqualities_eq_ok hchecked eq hin
      exact .inr ⟨eq, (hmem eq).mp hin, column, hcolumn, rfl, by rw [hdomain]⟩

section

variable (hscan : ScanOf ctx selector relation scan)
include hscan

theorem ScanOf.matches_iff {row : MachineRow} :
    scan.matches row = true ↔ ∀ eq ∈ selector.equalities, row.cells[eq.column]? = some eq.value := by
  rw [PageScan.matches, all_eq_true]
  constructor
  · exact fun h eq heq => of_decide_eq_true (h eq ((hscan.equalities eq).mpr heq))
  · exact fun h eq heq => decide_eq_true (h eq ((hscan.equalities eq).mp heq))

/-- A fact that matches is filed under the driving column of its scan. -/
theorem ScanOf.driving_mem (hrelation : fact.row.relation = selector.relation)
    (hcells : ∀ eq ∈ selector.equalities, fact.row.cells[eq.column]? = some eq.value) :
    ⟨run, scan.relationName, scan.drivingColumn, scan.drivingDigest, fact.factId.column⟩ ∈
      lookupRows ctx run fact := by
  rw [lookupRows, hrelation, hscan.inRange]
  rcases hscan.driving with ⟨hcolumn, hdigest⟩ | ⟨eq, heq, column, hschema, hcolumn, hdigest⟩
  · rw [hcolumn, hdigest, hscan.name]
    exact mem_cons_self
  · rw [hcolumn, hdigest, hscan.name]
    refine mem_cons_of_mem _ (mem_mapIdx.mpr ?_)
    have hpair : ((relationsV2 relation).columns.zip fact.row.cells)[eq.column]? =
        some (column, eq.value) := by
      rw [getElem?_zip_eq_some]
      exact ⟨hschema, hcells eq heq⟩
    obtain ⟨hlt, hpair⟩ := List.getElem?_eq_some_iff.mp hpair
    exact ⟨eq.column, hlt, by rw [hpair]⟩

/-- The next candidate is a bound fact, and no selected fact lies before it. -/
theorem nextCandidate_eq_some {id : String} (hexact : ExactIndex ctx known s runId.column)
    (h : nextCandidate s runId.column scan after = some id) :
    (∃ fact, BoundFact ctx known s runId.column fact ∧ fact.factId.column = id) ∧ after < id ∧
      ∀ fact, SelectedFact ctx known s runId.column selector fact → after < fact.factId.column →
        id ≤ fact.factId.column := by
  obtain ⟨hmem, hleast⟩ := min?_eq_some_iff.mp h
  obtain ⟨row, hrow, rfl⟩ := mem_map.mp hmem
  rw [mem_filter, decide_eq_true_eq] at hrow
  obtain ⟨hlookup, hrun, -, -, -, hafter⟩ := hrow
  obtain ⟨fact, hfact, hin⟩ := (hexact row).mp ⟨hlookup, hrun⟩
  refine ⟨⟨fact, hfact, (owner_of_mem_lookupRows hin).2.symm⟩, hafter, fun g hg hbehind => ?_⟩
  have hfiled := (hexact _).mpr ⟨g, hg.bound, hscan.driving_mem hg.relation hg.cells⟩
  refine hleast _ (mem_map.mpr ⟨_, mem_filter.mpr ⟨hfiled.1, ?_⟩, rfl⟩)
  exact decide_eq_true ⟨rfl, rfl, rfl, rfl, hbehind⟩

theorem nextCandidate_eq_none (hexact : ExactIndex ctx known s runId.column)
    (h : nextCandidate s runId.column scan after = none) :
    ∀ fact, SelectedFact ctx known s runId.column selector fact → fact.factId.column ≤ after := by
  intro g hg hbehind
  have hfiled := (hexact _).mpr ⟨g, hg.bound, hscan.driving_mem hg.relation hg.cells⟩
  have hempty := map_eq_nil_iff.mp (min?_eq_none_iff.mp h)
  refine filter_eq_nil_iff.mp hempty _ hfiled.1 ?_
  exact decide_eq_true ⟨rfl, rfl, rfl, rfl, hbehind⟩

end

def upTo (L : List MachineFact) (after : String) : List MachineFact :=
  L.filter fun fact => fact.factId.column ≤ after

/-- What the next candidate adds: itself, if it is selected. -/
theorem upTo_next (hL : Listing P L) (hafter : after < fact.factId.column)
    (hsame : ∀ g, P g → g.factId.column = fact.factId.column → g = fact)
    (hleast : ∀ g, P g → after < g.factId.column → fact.factId.column ≤ g.factId.column) :
    (P fact → upTo L fact.factId.column = upTo L after ++ [fact]) ∧
      (¬ P fact → upTo L fact.factId.column = upTo L after) := by
  have hsplit := filter_le_append (k := fun f : MachineFact => f.factId.column) hL.ascending
    hafter.le
  have hnodup : L.Nodup := by
    refine hL.ascending.imp ?_
    rintro a b hab rfl
    exact lt_irrefl _ hab
  have hmiddle := filter_eq_of_nodup (x := fact) (p := fun g : MachineFact =>
      after < g.factId.column ∧ g.factId.column ≤ fact.factId.column) hnodup fun g hg => by
    rw [decide_eq_true_eq]
    constructor
    · rintro ⟨hbehind, hle⟩
      exact hsame g ((hL.mem g).mp hg) (le_antisymm hle (hleast g ((hL.mem g).mp hg) hbehind))
    · rintro rfl
      exact ⟨hafter, le_rfl⟩
  rw [upTo, upTo, hsplit, hmiddle]
  constructor
  · intro hfact
    rw [if_pos ((hL.mem fact).mpr hfact)]
  · intro hfact
    rw [if_neg fun hin => hfact ((hL.mem fact).mp hin), append_nil]

theorem upTo_eq_self (hL : Listing P L) (h : ∀ fact, P fact → fact.factId.column ≤ after) :
    upTo L after = L :=
  List.filter_eq_self.mpr fun fact hfact => decide_eq_true (h fact ((hL.mem fact).mp hfact))

theorem upTo_initial (hL : Listing P L) (after : String) : upTo L after <+: L := by
  have hclosed : L.Pairwise fun a b => decide (b.factId.column ≤ after) = true →
      decide (a.factId.column ≤ after) = true :=
    hL.ascending.imp fun hab hb => decide_eq_true (hab.le.trans (of_decide_eq_true hb))
  rw [upTo, ← (takeWhile_eq_filter hclosed).1]
  exact takeWhile_prefix _

/-- The text a cursor resumes behind. -/
def resumeText : Option PageCursor → String
  | none => ""
  | some cursor => cursor.lastConsumed.toString

/-- A page that is being read behind a text: what it holds and where it would resume. -/
structure PageSoFar (L earlier : List MachineFact) (page : FactPage) (after : String) : Prop where
  open_ : page.exhausted = false
  resume : resumeText page.continuation = after
  facts : earlier ++ page.facts = upTo L after

/-- A page that was read: it ends the listing, or holds it up to where it can be resumed. -/
structure PageDone (L earlier : List MachineFact) (page : FactPage) : Prop where
  ended : page.exhausted = true → earlier ++ page.facts = L
  resume : page.exhausted = false → earlier ++ page.facts = upTo L (resumeText page.continuation)

theorem PageSoFar.done (h : PageSoFar L earlier page after) : PageDone L earlier page := by
  refine ⟨fun hend => ?_, fun _ => h.resume ▸ h.facts⟩
  rw [h.open_] at hend
  cases hend

/-- What one candidate can do to a page: end the read where it is, or step over the candidate. -/
theorem readCandidates_succ {page' : FactPage} {id : String}
    (hnext : nextCandidate s read.runId.column read.scan after = some id)
    (h : readCandidates ctx s read (remaining + 1) page after = .ok page') :
    ∃ parsed fact bytes, parseStableId id = .ok parsed ∧
      readCanonicalFact ctx s parsed = .ok (fact, bytes) ∧ fact.row.relation = read.relation ∧
      ((read.scan.matches fact.row = true ∧ page.facts.length = read.limit ∧
          page' = { page with examined := page.examined + 1 }) ∨
        (read.scan.matches fact.row = true ∧ read.maxOutputBytes - page.outputBytes < bytes ∧
          page' = { page with
            examined := page.examined + 1
            requiredOutputBytes := some (page.outputBytes + bytes) }) ∨
        (read.scan.matches fact.row = true ∧ readCandidates ctx s read remaining { page with
            examined := page.examined + 1
            outputBytes := page.outputBytes + bytes
            facts := page.facts ++ [fact]
            continuation := some (read.cursor parsed) } id = .ok page') ∨
        (read.scan.matches fact.row = false ∧ readCandidates ctx s read remaining { page with
            examined := page.examined + 1
            continuation := some (read.cursor parsed) } id = .ok page')) := by
  rw [readCandidates, hnext] at h
  obtain ⟨parsed, hparsed, h⟩ := bind_eq_ok.mp h
  obtain ⟨⟨fact, bytes⟩, hread, h⟩ := bind_eq_ok.mp h
  obtain ⟨hrelation, h⟩ := guard_eq_ok.mp h
  refine ⟨parsed, fact, bytes, hparsed, hread, not_not.mp hrelation, ?_⟩
  by_cases hmatch : read.scan.matches fact.row = true
  · rw [if_pos hmatch] at h
    by_cases hlimit : page.facts.length = read.limit
    · rw [if_pos hlimit] at h
      exact .inl ⟨hmatch, hlimit, (pure_eq_ok.mp h).symm⟩
    · rw [if_neg hlimit] at h
      by_cases hbytes : bytes > read.maxOutputBytes - page.outputBytes
      · rw [if_pos hbytes] at h
        obtain ⟨-, h⟩ := guard_eq_ok.mp h
        exact .inr (.inl ⟨hmatch, hbytes, (pure_eq_ok.mp h).symm⟩)
      · rw [if_neg hbytes] at h
        obtain ⟨binding, -, h⟩ := bind_eq_ok.mp h
        exact .inr (.inr (.inl ⟨hmatch, h⟩))
  · rw [if_neg hmatch] at h
    exact .inr (.inr (.inr ⟨Bool.eq_false_iff.mpr hmatch, h⟩))

/-- The candidates of a page, from any point of it. -/
theorem readCandidates_done (hfree : CollisionFree ctx known)
    (hexact : ExactIndex ctx known s runId.column) (hrun : read.runId = runId)
    (hscan : ScanOf ctx selector relation read.scan) (hselector : read.relation = selector.relation)
    (hL : Listing (SelectedFact ctx known s runId.column selector) L) {page' : FactPage}
    (hpage : PageSoFar L earlier page after)
    (h : readCandidates ctx s read remaining page after = .ok page') :
    PageDone L earlier page' := by
  subst hrun
  induction remaining generalizing page after with
  | zero =>
    obtain rfl := pure_eq_ok.mp h
    exact PageSoFar.done ⟨hpage.open_, hpage.resume, hpage.facts⟩
  | succ remaining ih =>
    cases hnext : nextCandidate s read.runId.column read.scan after with
    | none =>
      rw [readCandidates, hnext] at h
      obtain rfl := pure_eq_ok.mp h
      refine ⟨fun _ => ?_, fun hopen => by cases hopen⟩
      rw [hpage.facts, upTo_eq_self hL (nextCandidate_eq_none hscan hexact hnext)]
    | some id =>
      obtain ⟨⟨bound, hbound, rfl⟩, hafter, hleast⟩ := nextCandidate_eq_some hscan hexact hnext
      obtain ⟨parsed, fact, bytes, hparsed, hread, hrelation, hcases⟩ :=
        readCandidates_succ hnext h
      -- what is stored under the candidate's id is the fact bound under it
      obtain ⟨row, hrow, hstored⟩ := hbound.stored
      obtain rfl := column_of_parse hstored.derive hparsed
      obtain ⟨rfl, -⟩ := Prod.mk.inj (readCanonicalFact_eq hrow hstored hread)
      have hselected : SelectedFact ctx known s read.runId.column selector fact ↔
          read.scan.matches fact.row = true := by
        rw [hscan.matches_iff]
        exact ⟨fun hfact => hfact.cells, fun hcells => ⟨hbound, hselector ▸ hrelation, hcells⟩⟩
      obtain ⟨hadd, hskip⟩ := upTo_next hL hafter
        (fun g hg => hfree.bound_eq hg.bound hbound) hleast
      have htext : fact.factId.toString = fact.factId.column :=
        (column_of_derive hstored.derive).symm
      rcases hcases with ⟨-, -, rfl⟩ | ⟨-, -, rfl⟩ | ⟨hmatch, h⟩ | ⟨hmatch, h⟩
      · exact PageSoFar.done ⟨hpage.open_, hpage.resume, hpage.facts⟩
      · exact PageSoFar.done ⟨hpage.open_, hpage.resume, hpage.facts⟩
      · refine ih ?_ h
        refine ⟨hpage.open_, htext, ?_⟩
        rw [hadd (hselected.mpr hmatch), ← hpage.facts, append_assoc]
      · have hnot : ¬ SelectedFact ctx known s read.runId.column selector fact := by
          rw [hselected, hmatch]
          exact Bool.false_ne_true
        refine ih ?_ h
        refine ⟨hpage.open_, htext, ?_⟩
        rw [hskip hnot]
        exact hpage.facts

theorem lt_of_nextCandidate {id : String} (h : nextCandidate s run scan after = some id) :
    after < id := by
  obtain ⟨row, hrow, rfl⟩ := mem_map.mp (min?_eq_some_iff.mp h).1
  exact (of_decide_eq_true (mem_filter.mp hrow).2).2.2.2.2

/-- A read never moves back. -/
theorem le_resumeText {page' : FactPage}
    (h : readCandidates ctx s read remaining page after = .ok page')
    (hresume : resumeText page.continuation = after) (hopen : page'.exhausted = false) :
    after ≤ resumeText page'.continuation := by
  induction remaining generalizing page after with
  | zero =>
    obtain rfl := pure_eq_ok.mp h
    exact hresume.ge
  | succ remaining ih =>
    cases hnext : nextCandidate s read.runId.column read.scan after with
    | none =>
      rw [readCandidates, hnext] at h
      obtain rfl := pure_eq_ok.mp h
      cases hopen
    | some id =>
      obtain ⟨parsed, fact, bytes, hparsed, -, -, hcases⟩ := readCandidates_succ hnext h
      have hid := (lt_of_nextCandidate hnext).le
      have htext := toString_of_parseStableId hparsed
      rcases hcases with ⟨-, -, rfl⟩ | ⟨-, -, rfl⟩ | ⟨-, h⟩ | ⟨-, h⟩
      · exact hresume.ge
      · exact hresume.ge
      · exact hid.trans (ih h htext)
      · exact hid.trans (ih h htext)

def emptyPage (after : Option PageCursor) : FactPage := ⟨[], 0, 0, after, false, false, none⟩

theorem readFacts_eq_ok (h : readFacts ctx true s runId snapshot selector request = .ok page) :
    ∃ read : PageRead, read.runId = runId ∧ read.relation = selector.relation ∧
      pageScan ctx selector = .ok read.scan ∧ 0 < read.limit ∧
        read.maxOutputBytes = request.maxOutputBytes ∧ 0 < request.maxExamined ∧
          readCandidates ctx s read request.maxExamined (emptyPage request.after)
            (resumeText request.after) = .ok page := by
  obtain ⟨-, h⟩ := guard_eq_ok.mp h
  obtain ⟨hlimits, h⟩ := guard_eq_ok.mp h
  obtain ⟨scan, hscan, h⟩ := bind_eq_ok.mp h
  obtain ⟨after, hafter, h⟩ := bind_eq_ok.mp h
  have htext : after = resumeText request.after := by
    cases hcursor : request.after with
    | none =>
      rw [hcursor] at hafter
      exact (pure_eq_ok.mp hafter).symm
    | some cursor =>
      rw [hcursor] at hafter
      obtain ⟨-, hafter⟩ := guard_eq_ok.mp hafter
      obtain ⟨-, hafter⟩ := guard_eq_ok.mp hafter
      exact (pure_eq_ok.mp hafter).symm
  rw [htext] at h
  exact ⟨⟨runId, snapshot, selector.relation, scan, request.limit, request.maxOutputBytes⟩, rfl,
    rfl, hscan, by simp only; omega, rfl, by omega, h⟩

/-- Calls that pass each page's continuation on; an exhausted page has none. -/
inductive PageSequence (ctx : StoreContext) (s : FactTables) (runId : StableId) (snapshot : String)
    (selector : FactSelector) : List FactPage → Option PageCursor → Prop
  | start : PageSequence ctx s runId snapshot selector [] none
  | read {pages : List FactPage} {request : PageRequest} {page : FactPage}
      (before : PageSequence ctx s runId snapshot selector pages request.after)
      (more : ∀ last ∈ pages.getLast?, last.exhausted = false)
      (h : readFacts ctx true s runId snapshot selector request = .ok page) :
      PageSequence ctx s runId snapshot selector (pages ++ [page]) page.continuation

/-- A page that stays where it was and is not exhausted asks for more bytes than it was given. -/
theorem required_of_stuck (h : readFacts ctx true s runId snapshot selector request = .ok page)
    (hstuck : page.continuation = request.after) (hopen : page.exhausted = false) :
    ∃ bytes, page.requiredOutputBytes = some bytes ∧ request.maxOutputBytes < bytes := by
  obtain ⟨read, -, -, -, hlimit, hmax, hexamined, h⟩ := readFacts_eq_ok h
  obtain ⟨remaining, hremaining⟩ := Nat.exists_eq_succ_of_ne_zero hexamined.ne'
  rw [hremaining] at h
  cases hnext : nextCandidate s read.runId.column read.scan (resumeText request.after) with
  | none =>
    rw [readCandidates, hnext] at h
    obtain rfl := pure_eq_ok.mp h
    cases hopen
  | some id =>
    obtain ⟨parsed, fact, bytes, hparsed, -, -, hcases⟩ := readCandidates_succ hnext h
    have hid := lt_of_nextCandidate hnext
    have htext := toString_of_parseStableId hparsed
    -- once a candidate is stepped over, the page resumes behind it
    have hmoved : ¬ id ≤ resumeText page.continuation := by
      rw [hstuck]
      exact not_le.mpr hid
    rcases hcases with ⟨-, hfull, -⟩ | ⟨-, hbytes, rfl⟩ | ⟨-, h⟩ | ⟨-, h⟩
    · exact absurd hfull hlimit.ne
    · rw [hmax] at hbytes
      exact ⟨bytes, by simp [emptyPage], by simpa [emptyPage] using hbytes⟩
    · exact absurd (le_resumeText h htext hopen) hmoved
    · exact absurd (le_resumeText h htext hopen) hmoved

/-- The pages of a sequence are the listing up to where the last one ended. -/
theorem pageSequence_listing (hfree : CollisionFree ctx known)
    (hexact : ExactIndex ctx known s runId.column)
    (hL : Listing (SelectedFact ctx known s runId.column selector) L) {pages : List FactPage}
    {cursor : Option PageCursor} (h : PageSequence ctx s runId snapshot selector pages cursor) :
    ((∃ last ∈ pages.getLast?, last.exhausted = true) → pages.flatMap (·.facts) = L) ∧
      ((∀ last ∈ pages.getLast?, last.exhausted = false) →
        pages.flatMap (·.facts) = upTo L (resumeText cursor)) := by
  induction h with
  | start =>
    refine ⟨by simp, fun _ => ?_⟩
    refine (filter_eq_nil_iff.mpr fun fact hfact => ?_).symm
    obtain ⟨row, -, hstored⟩ := ((hL.mem fact).mp hfact).bound.stored
    rw [decide_eq_true_eq]
    intro hle
    exact column_ne_empty hstored.derive (le_antisymm hle
      (not_lt.mp fun h => not_lt_nil _ (String.lt_iff_toList_lt.mp h)))
  | read before more hread ih =>
    rename_i pages request page
    obtain ⟨read, hrun, hselector, hpageScan, -, -, -, hread⟩ := readFacts_eq_ok hread
    obtain ⟨relation, hscan⟩ := scanOf_pageScan hpageScan
    have hstart : PageSoFar L (pages.flatMap (·.facts)) (emptyPage request.after)
        (resumeText request.after) := by
      refine ⟨rfl, rfl, ?_⟩
      rw [emptyPage, append_nil]
      exact ih.2 more
    have hdone := readCandidates_done hfree hexact hrun hscan hselector hL hstart hread
    simp only [getLast?_append, getLast?_singleton, Option.some_or, Option.mem_def,
      Option.some.injEq, flatMap_append, flatMap_cons, flatMap_nil, append_nil,
      forall_eq', exists_eq_left']
    exact ⟨hdone.ended, hdone.resume⟩

/-- Over a sealed index, the pages of a sequence put together are a prefix of the selected facts in
ascending order, the whole of them once a page is exhausted; and a page that neither moves on nor
ends names the bytes it would have needed. -/
theorem pages_neither_lose_nor_repeat (hfree : CollisionFree ctx known) {s₀ : FactTables}
    (hstart : OpenedStore ctx known s₀) (hsteps : Relation.ReflTransGen (StoreStep ctx known) s₀ s)
    {snapshot : String} (hsealed : factLookupFingerprint ctx true s runId = .ok snapshot) :
    (∃ L, Listing (SelectedFact ctx known s runId.column selector) L ∧
      ∀ pages cursor, PageSequence ctx s runId snapshot selector pages cursor →
        pages.flatMap (·.facts) <+: L ∧
          ((∃ page ∈ pages.getLast?, page.exhausted = true) → pages.flatMap (·.facts) = L)) ∧
    ∀ request page, readFacts ctx true s runId snapshot selector request = .ok page →
      page.continuation = request.after → page.exhausted = false →
        ∃ bytes, page.requiredOutputBytes = some bytes ∧ request.maxOutputBytes < bytes := by
  have hs := indexInv_of_steps hfree hstart hsteps
  obtain ⟨receipt, hreceipt, hready⟩ := factLookupFingerprint_eq_ok.mp hsealed
  have hexact := (hs.ready hreceipt hready).1
  obtain ⟨L, hL⟩ := exists_listing hfree hs.store runId.column selector
  refine ⟨⟨L, hL, fun pages cursor hpages => ?_⟩, fun request page => required_of_stuck⟩
  obtain ⟨hended, hopen⟩ := pageSequence_listing hfree hexact hL hpages
  refine ⟨?_, hended⟩
  by_cases hlast : ∃ page ∈ pages.getLast?, page.exhausted = true
  · rw [hended hlast]
  · push Not at hlast
    rw [hopen fun page hpage => Bool.eq_false_iff.mpr (hlast page hpage)]
    exact upTo_initial hL _

/-- One page over the calls of a run. -/
theorem sample_pages : ∃ s snapshot page, publish sampleContext .empty sampleBatch = some (.ok s) ∧
    factLookupFingerprint sampleContext true s sampleBatch.run.runId = .ok snapshot ∧
      readFacts sampleContext true s sampleBatch.run.runId snapshot
        ⟨RelationId.reachableCall.toMachine, []⟩ ⟨1, 2, 8, none⟩ = .ok page ∧
      ∃ L, Listing (SelectedFact sampleContext {siteReach, siteCall 'c'} s
        sampleBatch.run.runId.column ⟨RelationId.reachableCall.toMachine, []⟩) L ∧
          page.facts <+: L := by
  have hrun : (((publish sampleContext .empty sampleBatch).bind (·.toOption)).bind fun s =>
      (factLookupFingerprint sampleContext true s sampleBatch.run.runId).toOption.bind
        fun snapshot => (readFacts sampleContext true s sampleBatch.run.runId snapshot
          ⟨RelationId.reachableCall.toMachine, []⟩ ⟨1, 2, 8, none⟩).toOption).isSome = true := by
    decide +kernel
  simp only [Option.isSome_iff_exists, Option.bind_eq_some_iff, toOption_eq_some] at hrun
  obtain ⟨page, s, ⟨_, hs, rfl⟩, snapshot, hsealed, hpage⟩ := hrun
  have hsteps := Relation.ReflTransGen.single (StoreStep.publish sample_known hs)
  obtain ⟨⟨L, hL, hinitial⟩, -⟩ := pages_neither_lose_nor_repeat sample_collisionFree
    (openedStore_empty _ _) hsteps hsealed
  refine ⟨s, snapshot, page, hs, hsealed, hpage, L, hL, ?_⟩
  have hpages := (hinitial [page] _ (.read .start (by simp) hpage)).1
  simpa using hpages

end Veritas

import Mathlib.Data.List.TakeWhile
import Veritas.Facts.FactStore

/-! What a successful publication does to the tables. -/
namespace Veritas

open StatusOr FactTables List

variable {ctx : StoreContext} {s s' : FactTables} {batch : AnalysisFactBatch}

theorem columnText_eq_self {text : String} (h : Char.ofNat 0 ∉ text.toList) :
    columnText text = text := by
  have hall : text.toList.takeWhile (· ≠ Char.ofNat 0) = text.toList := by
    refine takeWhile_eq_self_iff.mpr fun c hc => ?_
    exact decide_eq_true fun hzero => h (hzero ▸ hc)
  rw [columnText, hall, String.ofList_toList]

theorem zero_notMem_sha256 (text : String) : Char.ofNat 0 ∉ (ctx.sha256 text).toList := fun h =>
  absurd (ctx.digest_hex text _ h) (by decide)

@[simp] theorem columnText_sha256 (text : String) :
    columnText (ctx.sha256 text) = ctx.sha256 text :=
  columnText_eq_self (zero_notMem_sha256 text)

variable {row : MachineRow} {fact : MachineFact} {done facts missing : List MachineFact}
  {t : FactTables} {b : FactBinding} {batchId run : String} {proofs : List ResultWitness}
  {writer : BindingWriter} {table : List LookupRow} {indexBatch : Bool} {runId : StableId}
  {intake : WitnessIntake} {sha256 : String → String} {edges : List MachineEdge}

theorem derive_eq {id : StableId} (h : deriveMachineFactId ctx.sha256 row = .ok id) :
    id = ⟨.fact, ctx.sha256 row.preimage⟩ := by
  rw [deriveMachineFactId_eq] at h
  cases hvalid : validateMachineRow row with
  | error status =>
    rw [hvalid] at h
    cases h
  | ok _ =>
    rw [hvalid] at h
    exact (Except.ok.inj h).symm

theorem column_digest (text : String) : (StableId.mk .fact (ctx.sha256 text)).column =
    (StableId.mk .fact (ctx.sha256 text)).toString := by
  refine columnText_eq_self ?_
  rw [StableId.toString, String.toList_append, String.toList_append]
  simp only [mem_append, not_or]
  exact ⟨by decide, zero_notMem_sha256 _⟩

theorem column_of_derive {id : StableId} (h : deriveMachineFactId ctx.sha256 row = .ok id) :
    id.column = id.toString := by
  rw [derive_eq h]
  exact column_digest _

theorem id_eq_of_column {row' : MachineRow} {id id' : StableId}
    (h : deriveMachineFactId ctx.sha256 row = .ok id)
    (h' : deriveMachineFactId ctx.sha256 row' = .ok id') (hcolumn : id.column = id'.column) :
    id = id' := by
  rw [column_of_derive h, column_of_derive h'] at hcolumn
  exact StableId.toString_injective hcolumn

/-- The row that stores a fact: its id is that of its row and its message was serialized. -/
structure StoredAs (ctx : StoreContext) (fact : MachineFact) (stored : StoredFact) : Prop where
  derive : deriveMachineFactId ctx.sha256 fact.row = .ok fact.factId
  serialize : ∃ bytes, ctx.wire.serialize fact.proto = some bytes ∧
    stored = ⟨preimageRelationName fact.row.relation, hexEncode bytes⟩

theorem appendFact_eq_ok (h : appendFact ctx s fact = .ok s') :
    ∃ stored, StoredAs ctx fact stored ∧ s' = s.insertFact fact.factId.column stored := by
  obtain ⟨proto, hproto, h⟩ := bind_eq_ok.mp h
  obtain ⟨expected, hexpected, hproto⟩ := bind_eq_ok.mp hproto
  obtain ⟨hid, hproto⟩ := guard_eq_ok.mp hproto
  rw [not_not.mp hid] at hexpected
  cases hbytes : ctx.wire.serialize proto with
  | none => simp [hbytes] at h
  | some bytes =>
    rw [hbytes] at h
    have hmessage : fact.proto = proto := pure_eq_ok.mp hproto
    exact ⟨_, ⟨hexpected, bytes, hmessage ▸ hbytes, rfl⟩, (pure_eq_ok.mp h).symm⟩

theorem facts_insertFact (s : FactTables) (key k : String) (stored : StoredFact) :
    (s.insertFact key stored).facts k = (s.facts k).or (if k = key then some stored else none) := by
  unfold insertFact
  by_cases hkey : k = key
  · subst hkey
    cases hfact : s.facts k with
    | some old => simp [hfact]
    | none => simp
  · by_cases hthere : (s.facts key).isSome <;> simp [hthere, hkey]

/-- What inserting facts leaves in the table: old rows, and rows of the facts inserted. -/
structure FactsInserted (ctx : StoreContext) (s : FactTables) (facts : List MachineFact)
    (table : String → Option StoredFact) : Prop where
  derive : ∀ fact ∈ facts, deriveMachineFactId ctx.sha256 fact.row = .ok fact.factId
  kept : ∀ key stored, s.facts key = some stored → table key = some stored
  origin : ∀ key stored, table key = some stored → s.facts key = some stored ∨
    ∃ fact ∈ facts, fact.factId.column = key ∧ StoredAs ctx fact stored
  present : ∀ fact ∈ facts, (table fact.factId.column).isSome

theorem FactsInserted.step {t' : FactTables} (hs : FactsInserted ctx s facts t.facts)
    (h : appendFact ctx t fact = .ok t') : FactsInserted ctx s (facts ++ [fact]) t'.facts := by
  obtain ⟨stored, hstored, rfl⟩ := appendFact_eq_ok h
  have hderive : ∀ f ∈ facts ++ [fact], deriveMachineFactId ctx.sha256 f.row = .ok f.factId := by
    intro f hf
    rcases mem_append.mp hf with hf | hf
    · exact hs.derive f hf
    · rw [mem_singleton.mp hf]
      exact hstored.derive
  refine ⟨hderive, fun key row hrow => ?_, fun key row hrow => ?_, fun f hf => ?_⟩
  · rw [facts_insertFact, hs.kept key row hrow, Option.some_or]
  · rw [facts_insertFact, Option.or_eq_some_iff] at hrow
    rcases hrow with hrow | ⟨-, hrow⟩
    · refine (hs.origin key row hrow).imp_right ?_
      rintro ⟨f, hf, hkey⟩
      exact ⟨f, mem_append_left _ hf, hkey⟩
    · by_cases hkey : key = fact.factId.column
      · rw [if_pos hkey] at hrow
        exact .inr ⟨fact, by simp, hkey.symm, Option.some.inj hrow ▸ hstored⟩
      · rw [if_neg hkey] at hrow
        cases hrow
  · rw [facts_insertFact, Option.isSome_or, Bool.or_eq_true]
    rcases mem_append.mp hf with hf | hf
    · exact .inl (hs.present f hf)
    · rw [mem_singleton.mp hf, if_pos rfl]
      exact .inr rfl

theorem insertFacts (h : facts.foldlM (appendFact ctx) s = .ok s') :
    FactsInserted ctx s facts s'.facts ∧ s' = { s with facts := s'.facts } := by
  refine foldlM_invariant
    (P := fun done t => FactsInserted ctx s done t.facts ∧ t = { s with facts := t.facts })
    ⟨⟨by simp, fun _ _ h => h, fun _ _ h => .inl h, by simp⟩, rfl⟩ ?_ h
  rintro done fact t t' ⟨hdone, hframe⟩ hstep
  refine ⟨hdone.step hstep, ?_⟩
  obtain ⟨stored, -, rfl⟩ := appendFact_eq_ok hstep
  unfold insertFact
  by_cases hthere : (t.facts fact.factId.column).isSome
  · rw [if_pos hthere]
    exact hframe
  · rw [if_neg hthere]
    rw [hframe]

def FactTables.currentBindings (s : FactTables) : List FactBinding :=
  s.bindings.filter (·.isCurrent)

def FactBinding.key (binding : FactBinding) : String × String := (binding.runId, binding.factId)

/-- The unique index over the current bindings. -/
def FactTables.UniqueCurrent (s : FactTables) : Prop := (s.currentBindings.map (·.key)).Nodup

theorem mem_currentBindings : b ∈ s.currentBindings ↔ b ∈ s.bindings ∧ b.isCurrent = true := by
  simp [currentBindings]

theorem currentBinding_isSome {fact : String} :
    (s.currentBinding run fact).isSome ↔ (run, fact) ∈ s.currentBindings.map (·.key) := by
  rw [currentBinding, find?_isSome, mem_map]
  refine exists_congr fun b => ?_
  rw [mem_currentBindings, FactBinding.key, Prod.mk.injEq, decide_eq_true_eq]
  tauto

theorem FactTables.UniqueCurrent.eq (hs : s.UniqueCurrent) {b' : FactBinding}
    (hb : b ∈ s.currentBindings) (hb' : b' ∈ s.currentBindings) (h : b.key = b'.key) : b = b' :=
  List.inj_on_of_nodup_map hs hb hb' h

theorem currentBinding_spec {fact : String} (h : s.currentBinding run fact = some b) :
    b ∈ s.currentBindings ∧ b.key = (run, fact) := by
  have hfits := find?_some h
  rw [decide_eq_true_eq] at hfits
  exact ⟨mem_currentBindings.mpr ⟨mem_of_find?_eq_some h, hfits.2.2⟩, Prod.ext hfits.1 hfits.2.1⟩

theorem FactTables.UniqueCurrent.currentBinding_eq (hs : s.UniqueCurrent)
    (hb : b ∈ s.currentBindings) : s.currentBinding b.runId b.factId = some b := by
  obtain ⟨found, hfound⟩ := Option.isSome_iff_exists.mp
    (currentBinding_isSome.mpr (mem_map_of_mem (f := (·.key)) hb))
  obtain ⟨hmem, hkey⟩ := currentBinding_spec hfound
  rw [hfound, hs.eq hmem hb hkey]

theorem currentBindings_retire (s : FactTables) (run fact : String) :
    (retireBinding s run fact).currentBindings =
      s.currentBindings.filter fun b => b.key ≠ (run, fact) := by
  unfold currentBindings retireBinding
  induction s.bindings with
  | nil => rfl
  | cons b bs ih =>
    rw [map_cons, filter_cons, filter_cons, ih]
    by_cases hcurrent : b.isCurrent
    · by_cases hkey : b.runId = run ∧ b.factId = fact
      · have hkey' : b.key = (run, fact) := Prod.ext hkey.1 hkey.2
        simp [hcurrent, hkey.1, hkey.2, hkey']
      · have hkey' : b.key ≠ (run, fact) := fun h => hkey (Prod.mk.inj h)
        simp only [hcurrent, and_true, if_neg hkey, if_pos, filter_cons]
        rw [if_pos (decide_eq_true hkey')]
    · simp [hcurrent]

theorem flushBindings_eq_ok {pending : List FactBinding}
    (hcurrent : ∀ b ∈ pending, b.isCurrent = true) (h : flushBindings s pending = .ok s') :
    s' = { s with bindings := s.bindings ++ pending } ∧
      s'.currentBindings = s.currentBindings ++ pending ∧ (s.UniqueCurrent → s'.UniqueCurrent) := by
  induction pending generalizing s with
  | nil =>
    rw [← pure_eq_ok.mp h]
    simp
  | cons b pending ih =>
    obtain ⟨t, ht, h⟩ := bind_eq_ok.mp h
    unfold insertBinding at ht
    by_cases hclash : (s.currentBinding b.runId b.factId).isSome ∧ b.isCurrent = true
    · rw [if_pos hclash] at ht
      cases ht
    · rw [if_neg hclash] at ht
      have hb := hcurrent b mem_cons_self
      have hnew : b.key ∉ s.currentBindings.map (·.key) := fun hmem =>
        hclash ⟨currentBinding_isSome.mpr hmem, hb⟩
      obtain rfl := pure_eq_ok.mp ht
      obtain ⟨hs', hlist, hunique⟩ := ih (fun b' h' => hcurrent b' (mem_cons_of_mem _ h')) h
      have hstep : ({ s with bindings := s.bindings ++ [b] } : FactTables).currentBindings =
          s.currentBindings ++ [b] := by
        simp [currentBindings, filter_append, hb]
      refine ⟨by rw [hs']; simp, by rw [hlist, hstep]; simp, fun hs => hunique ?_⟩
      rw [UniqueCurrent, hstep, map_append]
      exact Nodup.append hs (nodup_singleton _) (disjoint_singleton.mpr hnew)

/-- The binding writer after some facts of a batch: untouched bindings are as they were, and a
binding of each fact is in the table or waits to be. -/
structure BindingsWritten (s : FactTables) (batch : AnalysisFactBatch)
    (proofs : List ResultWitness) (done : List MachineFact) (writer : BindingWriter) : Prop where
  origin : ∀ b ∈ writer.tables.currentBindings,
    (b ∈ s.currentBindings ∧ ∀ f ∈ done, b.key ≠ (bindingOf batch proofs f).key) ∨
      ∃ f ∈ done, b = bindingOf batch proofs f
  kept : ∀ b ∈ s.currentBindings, (∀ f ∈ done, b.key ≠ (bindingOf batch proofs f).key) →
    b ∈ writer.tables.currentBindings
  pending : ∀ b ∈ writer.pending, ∃ f ∈ done, b = bindingOf batch proofs f
  bound : ∀ f ∈ done, bindingOf batch proofs f ∈ writer.tables.currentBindings ∨
    bindingOf batch proofs f ∈ writer.pending
  unique : s.UniqueCurrent → writer.tables.UniqueCurrent

section

variable (hw : BindingsWritten s batch proofs done writer)
include hw

/-- The first of the rows that wait are written. -/
theorem BindingsWritten.flush {first rest : List FactBinding}
    (hpending : writer.pending = first ++ rest) (h : flushBindings writer.tables first = .ok t) :
    BindingsWritten s batch proofs done ⟨t, rest⟩ ∧
      t = { writer.tables with bindings := t.bindings } := by
  have hcurrent : ∀ b ∈ first, b.isCurrent = true := by
    intro b hb
    obtain ⟨f, -, rfl⟩ := hw.pending b (hpending ▸ mem_append_left _ hb)
    rfl
  obtain ⟨ht, hlist, hunique⟩ := flushBindings_eq_ok hcurrent h
  refine ⟨⟨?_, ?_, ?_, ?_, ?_⟩, by rw [ht]⟩
  · intro b hb
    rcases mem_append.mp (hlist ▸ hb) with hb | hb
    · exact hw.origin b hb
    · exact .inr (hw.pending b (hpending ▸ mem_append_left _ hb))
  · intro b hb hfree
    exact hlist ▸ mem_append_left _ (hw.kept b hb hfree)
  · exact fun b hb => hw.pending b (hpending ▸ mem_append_right _ hb)
  · intro f hf
    rcases hw.bound f hf with hf | hf
    · exact .inl (hlist ▸ mem_append_left _ hf)
    · rcases mem_append.mp (hpending ▸ hf) with hf | hf
      · exact .inl (hlist ▸ mem_append_right _ hf)
      · exact .inr hf
  · exact fun hs => hunique (hw.unique hs)

/-- The flip of a fact's current binding, with the new one in the queue. -/
theorem BindingsWritten.retire
    (hsame : ∀ f ∈ done, f.factId.column = fact.factId.column → f.factId = fact.factId) :
    BindingsWritten s batch proofs (done ++ [fact])
      ⟨retireBinding writer.tables batch.run.runId.column fact.factId.column,
        writer.pending ++ [bindingOf batch proofs fact]⟩ := by
  have hcurrent := currentBindings_retire writer.tables batch.run.runId.column fact.factId.column
  have hbinding : ∀ f ∈ done, (bindingOf batch proofs f).key =
      (batch.run.runId.column, fact.factId.column) →
        bindingOf batch proofs f = bindingOf batch proofs fact := by
    intro f hf hkey
    rw [bindingOf, bindingOf, hsame f hf (Prod.mk.inj hkey).2]
  refine ⟨?_, ?_, ?_, ?_, ?_⟩
  · intro b hb
    rw [hcurrent, mem_filter, decide_eq_true_eq] at hb
    rcases hw.origin b hb.1 with ⟨hold, hfree⟩ | ⟨f, hf, rfl⟩
    · refine .inl ⟨hold, fun f hf => ?_⟩
      rcases mem_append.mp hf with hf | hf
      · exact hfree f hf
      · rw [mem_singleton.mp hf]
        exact hb.2
    · exact .inr ⟨f, mem_append_left _ hf, rfl⟩
  · intro b hb hfree
    rw [hcurrent, mem_filter, decide_eq_true_eq]
    exact ⟨hw.kept b hb fun f hf => hfree f (mem_append_left _ hf), hfree fact (by simp)⟩
  · intro b hb
    rcases mem_append.mp hb with hb | hb
    · obtain ⟨f, hf, rfl⟩ := hw.pending b hb
      exact ⟨f, mem_append_left _ hf, rfl⟩
    · exact ⟨fact, by simp, mem_singleton.mp hb⟩
  · intro f hf
    rcases mem_append.mp hf with hf | hf
    · by_cases hkey : (bindingOf batch proofs f).key = (batch.run.runId.column, fact.factId.column)
      · exact .inr (by simp [hbinding f hf hkey])
      · rcases hw.bound f hf with hf | hf
        · refine .inl ?_
          rw [hcurrent, mem_filter, decide_eq_true_eq]
          exact ⟨hf, hkey⟩
        · exact .inr (mem_append_left _ hf)
    · exact .inr (by simp [mem_singleton.mp hf])
  · intro hs
    rw [UniqueCurrent, hcurrent]
    exact (hw.unique hs).sublist (List.Sublist.map _ filter_sublist)

/-- Only the bindings of the writer's tables matter. -/
theorem BindingsWritten.congr (h : t.bindings = writer.tables.bindings) :
    BindingsWritten s batch proofs done ⟨t, writer.pending⟩ := by
  have hcurrent : t.currentBindings = writer.tables.currentBindings := by
    rw [currentBindings, currentBindings, h]
  obtain ⟨horigin, hkept, hpending, hbound, hunique⟩ := hw
  rw [← hcurrent] at horigin
  refine ⟨horigin, ?_, hpending, ?_, ?_⟩
  · simpa only [hcurrent] using hkept
  · simpa only [hcurrent] using hbound
  · simpa only [UniqueCurrent, hcurrent] using hunique

theorem BindingsWritten.append {writer' : BindingWriter}
    (hsame : ∀ f ∈ done, f.factId.column = fact.factId.column → f.factId = fact.factId)
    (h : appendBinding ctx writer (bindingOf batch proofs fact) = .ok writer') :
    BindingsWritten s batch proofs (done ++ [fact]) writer' ∧
      writer'.tables = { writer.tables with bindings := writer'.tables.bindings } := by
  have hretired := hw.retire hsame
  unfold appendBinding at h
  by_cases hfull : writer.pending.length ≥ max ctx.bindingRows 1
  · -- the queue is written after the flip and before the new binding joins it
    rw [if_pos hfull] at h
    obtain ⟨t, ht, h⟩ := bind_eq_ok.mp h
    obtain rfl := pure_eq_ok.mp h
    obtain ⟨hflushed, hframe⟩ := hretired.flush rfl ht
    exact ⟨hflushed, by rw [hframe]; rfl⟩
  · rw [if_neg hfull] at h
    obtain rfl := pure_eq_ok.mp h
    exact ⟨hretired, rfl⟩

end

/-- The index with the rows of some facts of a run. -/
def indexFacts (ctx : StoreContext) (run : String) (table : List LookupRow)
    (facts : List MachineFact) : List LookupRow :=
  facts.foldl (fun table fact => insertLookup table (lookupRows ctx run fact)) table

@[simp] theorem mem_insertLookup {rows : List LookupRow} {row : LookupRow} :
    row ∈ insertLookup table rows ↔ row ∈ table ∨ row ∈ rows := by
  induction rows generalizing table with
  | nil => simp [insertLookup]
  | cons r rows ih =>
    rw [insertLookup, foldl_cons]
    refine ih.trans ?_
    by_cases hr : r ∈ table
    · rw [if_pos hr, mem_cons, ← or_assoc, or_iff_left_of_imp (b := row = r) (· ▸ hr)]
    · rw [if_neg hr, mem_append, mem_singleton, mem_cons, or_assoc]

theorem nodup_insertLookup {rows : List LookupRow} (h : table.Nodup) :
    (insertLookup table rows).Nodup := by
  induction rows generalizing table with
  | nil => exact h
  | cons r rows ih =>
    rw [insertLookup, foldl_cons]
    refine ih ?_
    by_cases hr : r ∈ table
    · rwa [if_pos hr]
    · rw [if_neg hr]
      exact Nodup.append h (nodup_singleton r) (by simpa using hr)

@[simp] theorem mem_indexFacts {row : LookupRow} : row ∈ indexFacts ctx run table facts ↔
      row ∈ table ∨ ∃ fact ∈ facts, row ∈ lookupRows ctx run fact := by
  induction facts generalizing table with
  | nil => simp [indexFacts]
  | cons fact facts ih =>
    refine ih.trans ?_
    rw [mem_insertLookup, exists_mem_cons_iff, or_assoc]

theorem nodup_indexFacts (h : table.Nodup) : (indexFacts ctx run table facts).Nodup := by
  induction facts generalizing table with
  | nil => exact h
  | cons fact facts ih => exact ih (nodup_insertLookup h)

theorem owner_of_mem_lookupRows {row : LookupRow} (h : row ∈ lookupRows ctx run fact) :
    row.runId = run ∧ row.factId = fact.factId.column := by
  unfold lookupRows at h
  cases hrelation : relationAt fact.row.relation with
  | none =>
    rw [hrelation] at h
    cases h
  | some relation =>
    rw [hrelation, mem_cons, mem_mapIdx] at h
    rcases h with rfl | ⟨i, hi, rfl⟩ <;> exact ⟨rfl, rfl⟩

/-- The pass over the published facts writes the bindings and the index, and nothing else. -/
theorem bindFacts (hderive : ∀ f ∈ facts, deriveMachineFactId ctx.sha256 f.row = .ok f.factId)
    (h : facts.foldlM (bindFact ctx batch proofs indexBatch) ⟨s, []⟩ = .ok writer) :
    BindingsWritten s batch proofs facts writer ∧
      writer.tables = { s with
        bindings := writer.tables.bindings
        lookup := if indexBatch then indexFacts ctx batch.run.runId.column s.lookup facts
          else s.lookup } := by
  refine foldlM_invariant (P := fun done w =>
    (∀ f ∈ done, deriveMachineFactId ctx.sha256 f.row = .ok f.factId) →
      BindingsWritten s batch proofs done w ∧ w.tables = { s with
        bindings := w.tables.bindings
        lookup := if indexBatch then indexFacts ctx batch.run.runId.column s.lookup done
          else s.lookup }) ?_ ?_ h hderive
  · intro _
    refine ⟨⟨?_, fun b hb _ => hb, by simp, by simp, fun hs => hs⟩, ?_⟩
    · exact fun b hb => .inl ⟨hb, by simp⟩
    · cases indexBatch <;> rfl
  · intro done fact w w' ih hstep hderived
    obtain ⟨hwritten, hframe⟩ := ih fun f hf => hderived f (mem_append_left _ hf)
    have hsame : ∀ f ∈ done, f.factId.column = fact.factId.column → f.factId = fact.factId :=
      fun f hf hcolumn => id_eq_of_column (hderived f (mem_append_left _ hf))
        (hderived fact (by simp)) hcolumn
    cases indexBatch with
    | false =>
      obtain ⟨hwritten', hframe'⟩ := hwritten.append hsame hstep
      refine ⟨hwritten', ?_⟩
      rw [hframe', hframe]
      rfl
    | true =>
      have hindexed : BindingsWritten s batch proofs done
          ⟨appendLookupFact ctx batch.run.runId.column w.tables fact, w.pending⟩ :=
        hwritten.congr rfl
      obtain ⟨hwritten', hframe'⟩ := hindexed.append hsame hstep
      refine ⟨hwritten', ?_⟩
      rw [hframe', hframe]
      simp [appendLookupFact, indexFacts, foldl_append]

theorem foldl_addEdge_frame (edges : List ProvenanceEdge) (t : FactTables) :
    edges.foldl FactTables.addEdge t =
      { t with edges := (edges.foldl FactTables.addEdge t).edges } := by
  induction edges generalizing t with
  | nil => rfl
  | cons edge edges ih =>
    rw [foldl_cons, ih, FactTables.addEdge]
    split <;> rfl

theorem addProof_frame (batch : AnalysisFactBatch) (s : FactTables) (proof : ResultWitness) :
    addProof batch s proof = { s with
      nodes := (addProof batch s proof).nodes, edges := (addProof batch s proof).edges } := by
  rw [addProof, foldl_addEdge_frame, addNode]
  split <;> rfl

theorem addProofs_frame (batch : AnalysisFactBatch) (s : FactTables)
    (proofs : List ResultWitness) : proofs.foldl (addProof batch) s = { s with
      nodes := (proofs.foldl (addProof batch) s).nodes
      edges := (proofs.foldl (addProof batch) s).edges } := by
  induction proofs generalizing s with
  | nil => rfl
  | cons proof proofs ih =>
    rw [foldl_cons, ih, addProof_frame]

/-- The tables as the transaction finds them once the index schema is there. -/
def FactTables.initialized (s : FactTables) : FactTables := { s with lookupVersion := 1 }

theorem initFactLookup_eq_ok (h : initFactLookup s = .ok s') : s' = s.initialized := by
  unfold initFactLookup at h
  by_cases hone : s.lookupVersion = 1
  · rw [if_pos hone] at h
    rw [← pure_eq_ok.mp h, initialized, ← hone]
  · rw [if_neg hone] at h
    by_cases hzero : s.lookupVersion ≠ 0
    · rw [if_pos hzero] at h
      cases h
    · rw [if_neg hzero] at h
      exact (pure_eq_ok.mp h).symm

/-- What a committed batch leaves: the rows of `missing` beside its facts, its `proofs`, and its
index rows when the index of the run could be extended. -/
structure Committed (ctx : StoreContext) (s : FactTables) (batch : AnalysisFactBatch)
    (missing : List MachineFact) (proofs : List ResultWitness) (s' : FactTables) : Prop where
  fresh : (batch.run.runId.column, batch.batchId.column) ∉ s.receipts
  version : s'.lookupVersion = 1
  facts : FactsInserted ctx s (batch.facts ++ missing) s'.facts
  current : ∀ b, b ∈ s'.currentBindings ↔
    (b ∈ s.currentBindings ∧ ∀ f ∈ batch.facts, b.key ≠ (bindingOf batch proofs f).key) ∨
      ∃ f ∈ batch.facts, b = bindingOf batch proofs f
  unique : s.UniqueCurrent → s'.UniqueCurrent
  provenance : ∃ t : FactTables, t.nodes = s.nodes ∧ t.edges = s.edges ∧
    s'.nodes = (proofs.foldl (addProof batch) t).nodes ∧
      s'.edges = (proofs.foldl (addProof batch) t).edges
  receipts : s'.receipts = s.receipts ++ [(batch.run.runId.column, batch.batchId.column)]
  lookup : s'.lookup = if indexesBatch ctx s.initialized batch.run.runId then
    indexFacts ctx batch.run.runId.column
      (prepareIndex ctx s.initialized batch.run.runId).lookup batch.facts else s.lookup
  indexMeta : s'.indexMeta = if indexesBatch ctx s.initialized batch.run.runId then
    Function.update s.indexMeta batch.run.runId.column (some (lookupSeal ctx s' batch.run.runId
      ⟨batch.batchId.column, receiptDigest ctx batch.run.runId
        (s'.batchesOf batch.run.runId.column)⟩)) else s.indexMeta

theorem batchesOf_append (h : s'.receipts = s.receipts ++ [(run, batchId)]) :
    s'.batchesOf run = s.batchesOf run ++ [batchId] := by
  simp [batchesOf, h, filter_append]

theorem batchesOf_append_of_ne {run' : String} (hne : run' ≠ run)
    (h : s'.receipts = s.receipts ++ [(run', batchId)]) : s'.batchesOf run = s.batchesOf run := by
  simp [batchesOf, h, filter_append, hne]

theorem readLookupReceipt_append (h : s'.receipts = s.receipts ++ [(runId.column, batchId)]) :
    readLookupReceipt ctx s' runId =
      some ⟨batchId, receiptDigest ctx runId (s'.batchesOf runId.column)⟩ := by
  rw [readLookupReceipt, batchesOf_append h, getLast?_append, getLast?_singleton]
  rfl

/-- The keys read page by page depend on the bindings only. -/
theorem allFactKeys_congr (h : t.bindings = s.bindings) (run : String) :
    t.allFactKeys run = s.allFactKeys run := by
  have hids : t.currentIds run = s.currentIds run := by
    rw [currentIds, currentIds, h]
  have hpage : ∀ after, currentFactKeys t run after = currentFactKeys s run after := by
    intro after
    rw [currentFactKeys, currentFactKeys, hids]
  have hpages : ∀ fuel after, pagedFactKeys t run fuel after = pagedFactKeys s run fuel after := by
    intro fuel
    induction fuel with
    | zero => exact fun after => rfl
    | succ fuel ih =>
      intro after
      rw [pagedFactKeys, pagedFactKeys, hpage]
      cases (currentFactKeys s run after).getLast? with
      | none => rfl
      | some last => simp only [ih]
  rw [allFactKeys, allFactKeys, hids, hpages]

theorem lookupSeal_congr (h : t.bindings = s.bindings) (runId : StableId) (receipt : LookupReceipt) :
    lookupSeal ctx t runId receipt = lookupSeal ctx s runId receipt := by
  rw [lookupSeal, lookupSeal, allFactKeys_congr h]

theorem prepareIndex_frame (ctx : StoreContext) (s : FactTables) (runId : StableId) :
    prepareIndex ctx s runId = { s with lookup := (prepareIndex ctx s runId).lookup } := by
  unfold prepareIndex
  split <;> rfl

theorem prepareIndex_of_not (h : indexesBatch ctx s runId = false) :
    prepareIndex ctx s runId = s := by
  rw [prepareIndex, if_neg]
  rw [h]
  exact fun hindex => Bool.false_ne_true hindex.2

/-- Every table after the rows of a batch and its receipt are in, before the index is sealed. -/
theorem writeBatch {s₀ s₁ s₂ : FactTables} (hframe : s₀ = { s.initialized with
      lookup := s₀.lookup })
    (hstored : (batch.facts ++ missing).foldlM (appendFact ctx) s₀ = .ok s₁)
    (hbound : batch.facts.foldlM (bindFact ctx batch proofs indexBatch) ⟨s₁, []⟩ = .ok writer)
    (hflushed : flushBindings (proofs.foldl (addProof batch) writer.tables) writer.pending =
      .ok s₂) :
    FactsInserted ctx s (batch.facts ++ missing) s₂.facts ∧
      BindingsWritten s batch proofs batch.facts ⟨s₂, []⟩ ∧
      s₂ = { s with
        facts := s₂.facts
        bindings := s₂.bindings
        nodes := (proofs.foldl (addProof batch) writer.tables).nodes
        edges := (proofs.foldl (addProof batch) writer.tables).edges
        lookupVersion := 1
        lookup := if indexBatch then indexFacts ctx batch.run.runId.column s₀.lookup batch.facts
          else s₀.lookup } ∧
      writer.tables.nodes = s.nodes ∧ writer.tables.edges = s.edges := by
  obtain ⟨hfacts, hframe₁⟩ := insertFacts hstored
  have hderive := fun f hf => hfacts.derive f (mem_append_left missing hf)
  obtain ⟨hwritten, hframe₂⟩ := bindFacts hderive hbound
  have hproofs := addProofs_frame batch writer.tables proofs
  have hqueued := hwritten.congr (t := proofs.foldl (addProof batch) writer.tables)
    (by rw [hproofs])
  obtain ⟨hdone, hframe₃⟩ := hqueued.flush (append_nil _).symm hflushed
  have hs₁ : s₁ = { s with facts := s₁.facts, lookupVersion := 1, lookup := s₀.lookup } := by
    rw [hframe₁, hframe]
    rfl
  have hw : writer.tables = { s with
      facts := s₁.facts
      bindings := writer.tables.bindings
      lookupVersion := 1
      lookup := if indexBatch then indexFacts ctx batch.run.runId.column s₀.lookup batch.facts
        else s₀.lookup } := by
    rw [hframe₂, hs₁]
  have hs₂ : s₂.facts = s₁.facts := by rw [hframe₃, hproofs, hw]
  have hold : s₁.currentBindings = s.currentBindings := by
    rw [hs₁]
    rfl
  refine ⟨?_, ?_, ?_, by rw [hw], by rw [hw]⟩
  · rw [hs₂]
    rw [hframe] at hfacts
    exact ⟨hfacts.derive, hfacts.kept, hfacts.origin, hfacts.present⟩
  · obtain ⟨horigin, hkept, hpending, hin, hunique⟩ := hdone
    rw [hold] at horigin hkept
    rw [UniqueCurrent, hold] at hunique
    exact ⟨horigin, hkept, hpending, hin, hunique⟩
  · rw [hframe₃, hproofs, hw]

theorem commitBatch_eq_ok (hfresh : (batch.run.runId.column, batch.batchId.column) ∉ s.receipts)
    (h : commitBatch ctx s batch missing proofs = .ok s') :
    Committed ctx s batch missing proofs s' := by
  obtain ⟨s₀, hinit, h⟩ := bind_eq_ok.mp h
  obtain rfl := initFactLookup_eq_ok hinit
  obtain ⟨s₁, hstored, h⟩ := bind_eq_ok.mp h
  obtain ⟨writer, hbound, h⟩ := bind_eq_ok.mp h
  obtain ⟨s₂, hflushed, h⟩ := bind_eq_ok.mp h
  obtain ⟨hfacts, hwritten, hframe, hnodes, hedges⟩ :=
    writeBatch (prepareIndex_frame ctx s.initialized batch.run.runId) hstored hbound hflushed
  have hcurrent : ∀ b, b ∈ s₂.currentBindings ↔
      (b ∈ s.currentBindings ∧ ∀ f ∈ batch.facts, b.key ≠ (bindingOf batch proofs f).key) ∨
        ∃ f ∈ batch.facts, b = bindingOf batch proofs f := by
    refine fun b => ⟨hwritten.origin b, ?_⟩
    rintro (⟨hb, hfree⟩ | ⟨f, hf, rfl⟩)
    · exact hwritten.kept b hb hfree
    · exact (hwritten.bound f hf).resolve_right not_mem_nil
  have hreceipts : s₂.receipts = s.receipts := by rw [hframe]
  have hmeta : s₂.indexMeta = s.indexMeta := by rw [hframe]
  by_cases hindex : indexesBatch ctx s.initialized batch.run.runId
  · rw [if_pos hindex] at h
    rw [sealBatch, readLookupReceipt_append rfl] at h
    obtain rfl := pure_eq_ok.mp h
    refine ⟨hfresh, ?_, hfacts, hcurrent, hwritten.unique, ⟨writer.tables, hnodes, hedges, ?_, ?_⟩,
      ?_, ?_, ?_⟩
    · rw [sealFactLookup, hframe]
    · rw [sealFactLookup, hframe]
    · rw [sealFactLookup, hframe]
    · rw [sealFactLookup, hreceipts]
    · rw [if_pos hindex, sealFactLookup, hframe]
      exact if_pos hindex
    · rw [if_pos hindex]
      simp only [sealFactLookup, hmeta]
      exact congrArg (fun entry => Function.update s.indexMeta batch.run.runId.column (some entry))
        (lookupSeal_congr (by rfl) _ _)
  · rw [if_neg hindex] at h
    obtain rfl := pure_eq_ok.mp h
    have hlookup : s₂.lookup = s.lookup := by
      rw [hframe, prepareIndex_of_not (Bool.eq_false_iff.mpr hindex)]
      exact if_neg hindex
    refine ⟨hfresh, ?_, hfacts, hcurrent, hwritten.unique, ⟨writer.tables, hnodes, hedges, ?_, ?_⟩,
      ?_, ?_, ?_⟩
    · rw [hframe]
    · rw [hframe]
    · rw [hframe]
    · rw [hreceipts]
    · rw [if_neg hindex]
      exact hlookup
    · rw [if_neg hindex]
      exact hmeta

theorem takeWitness_eq_ok {intake' : WitnessIntake} {edge : MachineEdge}
    (h : takeWitness sha256 intake edge = some (.ok intake')) :
    ∃ inputId inputKey resultKey, (intake.memo.identify sha256 edge.input).1 = .ok inputId ∧
      encodeMachineKey edge.input = some inputKey ∧ encodeMachineKey edge.result = some resultKey ∧
      intake'.memo = (intake.memo.identify sha256 edge.input).2 ∧
      intake'.filed = intake.filed ++ [(resultKey, ⟨edge, inputId, inputKey⟩)] ∧
      intake'.missingInputFacts = if inputId ∈ intake.factIds then intake.missingInputFacts
        else intake.missingInputFacts ++ [⟨inputId, edge.input⟩] := by
  unfold takeWitness at h
  rcases hid : intake.memo.identify sha256 edge.input with ⟨_ | inputId, memo⟩
  · rw [hid] at h
    simp at h
  · rw [hid] at h
    obtain ⟨inputKey, hinput, h⟩ := Option.bind_eq_some_iff.mp h
    obtain ⟨resultKey, hresult, h⟩ := Option.bind_eq_some_iff.mp h
    obtain rfl := pure_eq_ok.mp (Option.some.inj h)
    exact ⟨inputId, inputKey, resultKey, rfl, hinput, hresult, rfl, rfl, rfl⟩

/-- What every witness keeps of those taken so far holds at the end of the pass. -/
theorem takeWitnesses_invariant {P : List MachineEdge → WitnessIntake → Prop}
    {intake' : WitnessIntake} (hstart : P [] intake)
    (hstep : ∀ pre edge i i', P pre i → takeWitness sha256 i edge = some (.ok i') →
      P (pre ++ [edge]) i') (h : takeWitnesses sha256 intake edges = some (.ok intake')) :
    P edges intake' := by
  have hrest : ∀ rest pre i, P pre i → takeWitnesses sha256 i rest = some (.ok intake') →
      P (pre ++ rest) intake' := by
    intro rest
    induction rest with
    | nil =>
      intro pre i hi h
      rw [append_nil, ← pure_eq_ok.mp (Option.some.inj h)]
      exact hi
    | cons edge rest ih =>
      intro pre i hi h
      rw [takeWitnesses] at h
      cases htake : takeWitness sha256 i edge with
      | none => simp [htake] at h
      | some answer =>
        cases answer with
        | error status => simp [htake] at h
        | ok mid =>
          rw [htake] at h
          rw [append_cons]
          exact ih _ mid (hstep pre edge i mid hi htake) h
  exact hrest edges [] intake hstart h

/-- A fact that is stored beside the published ones is the input of some witness. -/
theorem missing_of_takeWitnesses {ids : List StableId}
    (h : takeWitnesses sha256 ⟨FactIdentityMemo.empty, ids, [], []⟩ edges = some (.ok intake)) :
    ∀ fact ∈ intake.missingInputFacts, ∃ edge ∈ edges, fact.row = edge.input := by
  refine takeWitnesses_invariant (P := fun done i =>
    ∀ fact ∈ i.missingInputFacts, ∃ edge ∈ done, fact.row = edge.input) (by simp) ?_ h
  intro done edge i i' hi htake fact hfact
  obtain ⟨inputId, -, -, -, -, -, -, -, hmissing⟩ := takeWitness_eq_ok htake
  have hold : fact ∈ i.missingInputFacts → ∃ e ∈ done ++ [edge], fact.row = e.input := by
    intro hfact
    obtain ⟨e, he, hrow⟩ := hi fact hfact
    exact ⟨e, mem_append_left _ he, hrow⟩
  rw [hmissing] at hfact
  by_cases hknown : inputId ∈ i.factIds
  · rw [if_pos hknown] at hfact
    exact hold hfact
  · rw [if_neg hknown, mem_append] at hfact
    rcases hfact with hfact | hfact
    · exact hold hfact
    · exact ⟨edge, by simp, by rw [mem_singleton.mp hfact]⟩

/-- A publication that succeeds was delivered before and changes nothing, or is committed. -/
theorem publish_cases (h : publish ctx s batch = some (.ok s')) :
    (s' = s ∧ (batch.run.runId.column, batch.batchId.column) ∈ s.receipts) ∨
      ∃ intake proofs, takeWitnesses ctx.sha256 ⟨FactIdentityMemo.empty,
          batch.facts.map (·.factId), [], []⟩ batch.witnesses = some (.ok intake) ∧
        resultWitnesses ctx.sha256 intake.filed = .ok proofs ∧
          Committed ctx s batch intake.missingInputFacts proofs s' := by
  obtain ⟨answer, htake, h⟩ := Option.map_eq_some_iff.mp h
  obtain ⟨intake, hanswer, h⟩ := bind_eq_ok.mp h
  rw [hanswer] at htake
  obtain ⟨proofs, hproofs, h⟩ := bind_eq_ok.mp h
  by_cases hthere : (batch.run.runId.column, batch.batchId.column) ∈ s.receipts
  · rw [if_pos hthere] at h
    exact .inl ⟨(pure_eq_ok.mp h).symm, hthere⟩
  · rw [if_neg hthere] at h
    exact .inr ⟨intake, proofs, htake, hproofs, commitBatch_eq_ok hthere h⟩

end Veritas

import Veritas.Facts.WitnessIntake

/-! The lookup index over the life of a store: what is sealed is exact. -/
namespace Veritas

open FieldCode Ordered StatusOr Function List FactTables

variable {ctx : StoreContext} {known : Set MachineRow} {s s' : FactTables}
  {batch : AnalysisFactBatch} {run : String} {fact : MachineFact}

theorem currentIds_pairwise (hs : s.UniqueCurrent) (run : String) :
    (s.currentIds run).Pairwise (· < ·) := by
  have hlist : s.bindings.filter (fun b => b.runId = run ∧ b.isCurrent) =
      s.currentBindings.filter (·.runId = run) := by
    rw [currentBindings, filter_filter]
    exact filter_congr fun b _ => by simp
  have hnodup : ((s.bindings.filter fun b => b.runId = run ∧ b.isCurrent).map (·.factId)).Nodup := by
    rw [hlist]
    refine Nodup.map_on (fun b hb b' hb' hid => ?_) ((Nodup.of_map _ hs).filter _)
    rw [mem_filter, decide_eq_true_eq] at hb hb'
    exact hs.eq hb.1 hb'.1 (Prod.ext (hb.2.trans hb'.2.symm) hid)
  have hsorted := pairwise_insertionSort (· ≤ ·)
    ((s.bindings.filter fun b => b.runId = run ∧ b.isCurrent).map (·.factId))
  exact (hsorted.and ((perm_insertionSort _ _).nodup_iff.mpr hnodup)).imp
    fun h => lt_of_le_of_ne h.1 h.2

theorem mem_currentIds {id : String} :
    id ∈ s.currentIds run ↔ (run, id) ∈ s.currentBindings.map (·.key) := by
  rw [currentIds, mem_insertionSort, mem_map, mem_map]
  refine exists_congr fun b => ?_
  rw [mem_filter, mem_currentBindings, FactBinding.key, Prod.mk.injEq, decide_eq_true_eq]
  tauto

theorem pagedFactKeys_eq (hs : (s.currentIds run).Pairwise (· < ·)) {fuel : ℕ} {after : String}
    (hfuel : ((s.currentIds run).filter (after < ·)).length < fuel) :
    pagedFactKeys s run fuel after = (s.currentIds run).filter (after < ·) := by
  induction fuel generalizing after with
  | zero => omega
  | succ fuel ih =>
    rw [pagedFactKeys]
    cases hlast : (currentFactKeys s run after).getLast? with
    | none =>
      have hempty : ((s.currentIds run).filter (after < ·)).take 4096 = [] :=
        getLast?_eq_none_iff.mp hlast
      rcases take_eq_nil_iff.mp hempty with hzero | hnil
      · cases hzero
      · rw [hnil]
    | some last =>
      -- the next page starts behind the last id of this one, so it continues the list
      have hrest := filter_lt_getLast_take (hs.filter (after < ·)) hlast
      have hafter : after < last := by
        have hmem := mem_of_mem_take (mem_of_getLast? hlast)
        exact of_decide_eq_true (mem_filter.mp hmem).2
      have hsame : (s.currentIds run).filter (last < ·) =
          ((s.currentIds run).filter (after < ·)).drop 4096 := by
        rw [← hrest, filter_filter]
        refine filter_congr fun id _ => ?_
        by_cases hid : last < id
        · simp [hid, hafter.trans hid]
        · simp [hid]
      have hpos : 0 < ((s.currentIds run).filter (after < ·)).length :=
        length_pos_of_mem (mem_of_mem_take (mem_of_getLast? hlast))
      have hshort : ((s.currentIds run).filter (last < ·)).length < fuel := by
        rw [hsame, length_drop]
        omega
      simp only
      rw [ih hshort, hsame, currentFactKeys, take_append_drop]

/-- Every id is read, each once. -/
theorem allFactKeys_eq (hs : s.UniqueCurrent) (hne : "" ∉ s.currentIds run) :
    s.allFactKeys run = s.currentIds run := by
  have hall : (s.currentIds run).filter ("" < ·) = s.currentIds run := by
    refine filter_eq_self.mpr fun id hid => decide_eq_true ?_
    refine lt_of_le_of_ne ?_ fun hempty => hne (hempty ▸ hid)
    exact not_lt.mp fun h => not_lt_nil _ (String.lt_iff_toList_lt.mp h)
  rw [allFactKeys, pagedFactKeys_eq (currentIds_pairwise hs run), hall]
  rw [hall]
  exact Nat.lt_succ_self _

/-- A fact of the known rows that a run currently binds, stored as itself. -/
structure BoundFact (ctx : StoreContext) (known : Set MachineRow) (s : FactTables) (run : String)
    (fact : MachineFact) : Prop where
  known : fact.row ∈ known
  current : (run, fact.factId.column) ∈ s.currentBindings.map (·.key)
  stored : ∃ row, s.facts fact.factId.column = some row ∧ StoredAs ctx fact row

/-- The index rows of a run are those of the facts it binds. -/
def ExactIndex (ctx : StoreContext) (known : Set MachineRow) (s : FactTables) (run : String) :
    Prop :=
  ∀ row, (row ∈ s.lookup ∧ row.runId = run) ↔
    ∃ fact, BoundFact ctx known s run fact ∧ row ∈ lookupRows ctx run fact

/-- No two of the known rows share a fact id. -/
def CollisionFree (ctx : StoreContext) (known : Set MachineRow) : Prop :=
  ∀ row ∈ known, ∀ row' ∈ known, ∀ id, deriveMachineFactId ctx.sha256 row = .ok id →
    deriveMachineFactId ctx.sha256 row' = .ok id → row = row'

theorem CollisionFree.fact_eq (hfree : CollisionFree ctx known) {fact fact' : MachineFact}
    (hknown : fact.row ∈ known) (hknown' : fact'.row ∈ known)
    (h : deriveMachineFactId ctx.sha256 fact.row = .ok fact.factId)
    (h' : deriveMachineFactId ctx.sha256 fact'.row = .ok fact'.factId)
    (hcolumn : fact.factId.column = fact'.factId.column) : fact = fact' := by
  obtain ⟨id, row⟩ := fact
  obtain ⟨id', row'⟩ := fact'
  obtain rfl : id = id' := id_eq_of_column h h' hcolumn
  rw [hfree row hknown row' hknown' id h h']

theorem CollisionFree.bound_eq (hfree : CollisionFree ctx known) {fact fact' : MachineFact}
    {run run' : String} (h : BoundFact ctx known s run fact)
    (h' : BoundFact ctx known s run' fact') (hcolumn : fact.factId.column = fact'.factId.column) :
    fact = fact' := by
  obtain ⟨row, -, hstored⟩ := h.stored
  obtain ⟨row', -, hstored'⟩ := h'.stored
  exact hfree.fact_eq h.known h'.known hstored.derive hstored'.derive hcolumn

/-- A store in which every stored row is canonical and every current binding has its fact. -/
structure CanonicalStore (ctx : StoreContext) (known : Set MachineRow) (s : FactTables) : Prop where
  unique : s.UniqueCurrent
  stored : ∀ key row, s.facts key = some row →
    ∃ fact : MachineFact, fact.row ∈ known ∧ fact.factId.column = key ∧ StoredAs ctx fact row
  bound : ∀ b ∈ s.currentBindings, (s.facts b.factId).isSome

theorem CanonicalStore.boundFact (hs : CanonicalStore ctx known s) {id : String}
    (hid : (run, id) ∈ s.currentBindings.map (·.key)) :
    ∃ fact, BoundFact ctx known s run fact ∧ fact.factId.column = id := by
  obtain ⟨b, hb, hkey⟩ := mem_map.mp hid
  obtain ⟨row, hrow⟩ := Option.isSome_iff_exists.mp (hs.bound b hb)
  rw [(Prod.mk.inj hkey).2] at hrow
  obtain ⟨fact, hknown, rfl, hstored⟩ := hs.stored id row hrow
  exact ⟨fact, ⟨hknown, hid, row, hrow, hstored⟩, rfl⟩

variable {row : MachineRow}

theorem column_ne_empty {id : StableId} (h : deriveMachineFactId ctx.sha256 row = .ok id) :
    id.column ≠ "" := by
  rw [column_of_derive h, derive_eq h]
  intro hempty
  have hlength := congrArg String.length hempty
  rw [StableId.toString, String.length_append, String.length_append] at hlength
  simp [idKindToString] at hlength

theorem CanonicalStore.allFactKeys_eq (hs : CanonicalStore ctx known s) (run : String) :
    s.allFactKeys run = s.currentIds run := by
  refine Veritas.allFactKeys_eq hs.unique fun hempty => ?_
  obtain ⟨fact, hfact, hcolumn⟩ := hs.boundFact (mem_currentIds.mp hempty)
  obtain ⟨row, -, hstored⟩ := hfact.stored
  exact column_ne_empty hstored.derive hcolumn

/-- The rows a batch brings are known. -/
structure KnownBatch (known : Set MachineRow) (batch : AnalysisFactBatch) : Prop where
  facts : ∀ f ∈ batch.facts, f.row ∈ known
  inputs : ∀ e ∈ batch.witnesses, e.input ∈ known

section Committed

variable {missing : List MachineFact} {proofs : List ResultWitness}
  (hfree : CollisionFree ctx known) (hs : CanonicalStore ctx known s)
  (hrows : ∀ f ∈ batch.facts ++ missing, f.row ∈ known)
  (h : Committed ctx s batch missing proofs s')

include h in
theorem Committed.current_key (id : String) :
    (run, id) ∈ s'.currentBindings.map (·.key) ↔ (run, id) ∈ s.currentBindings.map (·.key) ∨
      (run = batch.run.runId.column ∧ ∃ f ∈ batch.facts, f.factId.column = id) := by
  simp only [mem_map]
  constructor
  · rintro ⟨b, hb, hkey⟩
    rcases (h.current b).mp hb with ⟨hb, -⟩ | ⟨f, hf, rfl⟩
    · exact .inl ⟨b, hb, hkey⟩
    · obtain ⟨rfl, rfl⟩ := Prod.mk.inj hkey
      exact .inr ⟨rfl, f, hf, rfl⟩
  · rintro (⟨b, hb, hkey⟩ | ⟨rfl, f, hf, rfl⟩)
    · by_cases hnew : ∀ f ∈ batch.facts, b.key ≠ (bindingOf batch proofs f).key
      · exact ⟨b, (h.current b).mpr (.inl ⟨hb, hnew⟩), hkey⟩
      · push Not at hnew
        obtain ⟨f, hf, hf'⟩ := hnew
        exact ⟨_, (h.current _).mpr (.inr ⟨f, hf, rfl⟩), hf'.symm.trans hkey⟩
    · exact ⟨_, (h.current _).mpr (.inr ⟨f, hf, rfl⟩), rfl⟩

include hs hrows h in
theorem Committed.canonicalStore : CanonicalStore ctx known s' := by
  refine ⟨h.unique hs.unique, fun key row hrow => ?_, fun b hb => ?_⟩
  · rcases h.facts.origin key row hrow with hold | ⟨f, hf, hkey, hstored⟩
    · exact hs.stored key row hold
    · exact ⟨f, hrows f hf, hkey, hstored⟩
  · rcases (h.current b).mp hb with ⟨hb, -⟩ | ⟨f, hf, rfl⟩
    · obtain ⟨row, hrow⟩ := Option.isSome_iff_exists.mp (hs.bound b hb)
      rw [h.facts.kept _ _ hrow]
      rfl
    · exact h.facts.present f (mem_append_left _ hf)

include hfree hs hrows h in
/-- The facts bound after a batch: those from before, and in its own run those it publishes. -/
theorem Committed.boundFact : BoundFact ctx known s' run fact ↔ BoundFact ctx known s run fact ∨
    (run = batch.run.runId.column ∧ fact ∈ batch.facts) := by
  have hs' := h.canonicalStore hs hrows
  constructor
  · rintro ⟨hknown, hcurrent, row, hrow, hstored⟩
    rcases (h.current_key _).mp hcurrent with hold | ⟨rfl, f, hf, hcolumn⟩
    · -- a fact that was bound was stored, and its row has not changed
      obtain ⟨old, hold', hcolumn⟩ := hs.boundFact hold
      obtain ⟨row', hrow', hstored'⟩ := hold'.stored
      rw [hfree.fact_eq hknown hold'.known hstored.derive hstored'.derive hcolumn.symm]
      exact .inl hold'
    · have hderive := h.facts.derive f (mem_append_left _ hf)
      obtain rfl := hfree.fact_eq hknown (hrows f (mem_append_left _ hf)) hstored.derive
        hderive hcolumn.symm
      exact .inr ⟨rfl, hf⟩
  · rintro (⟨hknown, hcurrent, row, hrow, hstored⟩ | ⟨rfl, hf⟩)
    · exact ⟨hknown, (h.current_key _).mpr (.inl hcurrent), row, h.facts.kept _ _ hrow, hstored⟩
    · obtain ⟨other, hother, hcolumn⟩ := hs'.boundFact
        ((h.current_key _).mpr (.inr ⟨rfl, fact, hf, rfl⟩))
      obtain ⟨row, hrow, hstored⟩ := hother.stored
      obtain rfl := hfree.fact_eq hother.known (hrows fact (mem_append_left _ hf))
        hstored.derive (h.facts.derive fact (mem_append_left _ hf)) hcolumn
      exact hother

include h in
theorem Committed.currentIds_of_ne (hs : s.UniqueCurrent) (hrun : run ≠ batch.run.runId.column) :
    s'.currentIds run = s.currentIds run := by
  refine Perm.eq_of_pairwise (fun a b _ _ hab hba => absurd (hab.trans hba) (lt_irrefl a))
    (currentIds_pairwise (h.unique hs) run) (currentIds_pairwise hs run) ?_
  refine (perm_ext_iff_of_nodup (currentIds_pairwise (h.unique hs) run).nodup
    (currentIds_pairwise hs run).nodup).mpr fun id => ?_
  rw [mem_currentIds, mem_currentIds, h.current_key]
  exact or_iff_left fun hnew => hrun hnew.1

end Committed

variable {digest : String} {receipt : LookupReceipt} {runId : StableId}

theorem readyLookupFingerprint_eq_some : readyLookupFingerprint ctx s runId receipt = some digest ↔
      s.lookupVersion = 1 ∧ ∃ entry, s.indexMeta runId.column = some entry ∧
        entry.batchId = receipt.batchId ∧ entry.producerVersion = lookupProducer ∧
        entry.status = "READY" ∧ entry.receiptDigest = receipt.snapshotDigest ∧
        entry.storeIdentity = ctx.identity ∧ entry.snapshotDigest = digest := by
  unfold readyLookupFingerprint
  by_cases hversion : s.lookupVersion = 1
  · rw [if_neg (not_not.mpr hversion), Option.bind_eq_some_iff]
    simp only [hversion, true_and, Option.ite_none_right_eq_some, Option.some.injEq, and_assoc]
  · simp [hversion]

theorem readLookupReceipt_eq_some :
    readLookupReceipt ctx s runId = some receipt ↔
      (s.batchesOf runId.column).getLast? = some receipt.batchId ∧
        receipt.snapshotDigest = receiptDigest ctx runId (s.batchesOf runId.column) := by
  obtain ⟨batchId, digest⟩ := receipt
  rw [readLookupReceipt, Option.map_eq_some_iff]
  constructor
  · rintro ⟨b, hb, hreceipt⟩
    cases hreceipt
    exact ⟨hb, rfl⟩
  · rintro ⟨hb, rfl⟩
    exact ⟨batchId, hb, rfl⟩

/-- A seal names a batch of its run, and while that batch is the last one the index is exact. -/
structure IndexInv (ctx : StoreContext) (known : Set MachineRow) (s : FactTables) : Prop where
  store : CanonicalStore ctx known s
  nodup : s.lookup.Nodup
  uninitialized : s.lookupVersion ≠ 1 → ∀ run, s.indexMeta run = none
  chain : ∀ run entry, s.indexMeta run = some entry → entry.batchId ∈ s.batchesOf run
  exact : ∀ run entry, s.indexMeta run = some entry →
    (s.batchesOf run).getLast? = some entry.batchId → ExactIndex ctx known s run ∧
      entry.snapshotDigest = snapshotDigest ctx entry.receiptDigest (s.currentIds run)

theorem IndexInv.ready (hs : IndexInv ctx known s)
    (hreceipt : readLookupReceipt ctx s runId = some receipt)
    (hready : readyLookupFingerprint ctx s runId receipt = some digest) :
    ExactIndex ctx known s runId.column ∧ digest = snapshotDigest ctx
      (receiptDigest ctx runId (s.batchesOf runId.column)) (s.currentIds runId.column) := by
  obtain ⟨hlast, hchain⟩ := readLookupReceipt_eq_some.mp hreceipt
  obtain ⟨-, entry, hentry, hbatch, -, -, hdigest, -, rfl⟩ :=
    readyLookupFingerprint_eq_some.mp hready
  obtain ⟨hexact, hsnapshot⟩ := hs.exact _ entry hentry (hbatch ▸ hlast)
  refine ⟨hexact, ?_⟩
  rw [hsnapshot, hdigest, hchain]

theorem ready_initialized (hs : IndexInv ctx known s) :
    readyLookupFingerprint ctx s.initialized runId receipt =
      readyLookupFingerprint ctx s runId receipt := by
  ext digest
  rw [readyLookupFingerprint_eq_some, readyLookupFingerprint_eq_some]
  by_cases hversion : s.lookupVersion = 1
  · simp [hversion, initialized]
  · simp [hversion, initialized, hs.uninitialized hversion runId.column]

/-- The index is extended when it is ready, or when its run has neither a batch nor a fact. -/
theorem indexesBatch_iff (hs : IndexInv ctx known s) :
    indexesBatch ctx s.initialized runId = true ↔
      (∃ receipt digest, readLookupReceipt ctx s runId = some receipt ∧
        readyLookupFingerprint ctx s runId receipt = some digest) ∨
      (readLookupReceipt ctx s runId = none ∧
        ∀ id, (runId.column, id) ∉ s.currentBindings.map (·.key)) := by
  have hreceipt : readLookupReceipt ctx s.initialized runId = readLookupReceipt ctx s runId := rfl
  rw [indexesBatch, hreceipt]
  cases hr : readLookupReceipt ctx s runId with
  | some receipt =>
    simp only [ready_initialized hs, Option.isSome_iff_exists, Option.some.injEq, reduceCtorEq,
      false_and, or_false]
    constructor
    · rintro ⟨digest, hdigest⟩
      exact ⟨receipt, digest, rfl, hdigest⟩
    · rintro ⟨r, digest, hr, hdigest⟩
      exact ⟨digest, hr ▸ hdigest⟩
  | none =>
    simp only [decide_eq_true_eq, true_and, reduceCtorEq, false_and, exists_const, false_or,
      exists_false]
    constructor
    · intro hnone id hid
      obtain ⟨b, hb, hkey⟩ := mem_map.mp hid
      exact hnone ⟨b, (mem_currentBindings.mp hb).1, (Prod.mk.inj hkey).1,
        (mem_currentBindings.mp hb).2⟩
    · rintro hnone ⟨b, hb, hrun, hcurrent⟩
      exact hnone b.factId (mem_map.mpr
        ⟨b, mem_currentBindings.mpr ⟨hb, hcurrent⟩, Prod.ext hrun rfl⟩)

/-- An index that will be extended starts out exact. -/
theorem prepareIndex_exact (hs : IndexInv ctx known s)
    (hindex : indexesBatch ctx s.initialized runId = true) (row : LookupRow) :
    (row ∈ (prepareIndex ctx s.initialized runId).lookup ∧ row.runId = runId.column) ↔
      ∃ fact, BoundFact ctx known s runId.column fact ∧ row ∈ lookupRows ctx runId.column fact := by
  have hreceipt : readLookupReceipt ctx s.initialized runId = readLookupReceipt ctx s runId := rfl
  rcases (indexesBatch_iff hs).mp hindex with ⟨receipt, digest, hr, hready⟩ | ⟨hr, hempty⟩
  · rw [prepareIndex, hreceipt, hr, if_neg (by simp)]
    exact (hs.ready hr hready).1 row
  · rw [prepareIndex, hreceipt, hr, if_pos ⟨rfl, hindex⟩]
    constructor
    · rintro ⟨hrow, hrun⟩
      exact absurd hrun (of_decide_eq_true (mem_filter.mp hrow).2)
    · rintro ⟨fact, hfact, -⟩
      exact absurd hfact.current (hempty _)

theorem mem_prepareIndex_of_ne {row : LookupRow} (hrow : row.runId ≠ runId.column) :
    row ∈ (prepareIndex ctx s runId).lookup ↔ row ∈ s.lookup := by
  unfold prepareIndex
  split
  · rw [clearFactLookup, mem_filter, decide_eq_true_eq]
    exact and_iff_left hrow
  · rfl

theorem nodup_prepareIndex (h : s.lookup.Nodup) : (prepareIndex ctx s runId).lookup.Nodup := by
  unfold prepareIndex
  split
  · exact h.filter _
  · exact h

theorem seal_cases {seals : String → Option IndexMeta} {key : String} {e entry : IndexMeta}
    (h : update seals key (some e) run = some entry) :
    run = key ∧ e = entry ∨ run ≠ key ∧ seals run = some entry := by
  rw [update_apply] at h
  split_ifs at h with hrun
  · exact .inl ⟨hrun, Option.some.inj h⟩
  · exact .inr ⟨hrun, h⟩

section Committed

variable {missing : List MachineFact} {proofs : List ResultWitness}
  (hfree : CollisionFree ctx known) (hs : IndexInv ctx known s)
  (hrows : ∀ f ∈ batch.facts ++ missing, f.row ∈ known)
  (h : Committed ctx s batch missing proofs s')

include hfree hs hrows h in
theorem Committed.exactIndex_of_ne (hrun : run ≠ batch.run.runId.column)
    (hexact : ExactIndex ctx known s run) : ExactIndex ctx known s' run := by
  intro row
  have hlookup : (row ∈ s'.lookup ∧ row.runId = run) ↔ (row ∈ s.lookup ∧ row.runId = run) := by
    refine and_congr_left fun hrow => ?_
    have hne : row.runId ≠ batch.run.runId.column := hrow ▸ hrun
    rw [h.lookup]
    split
    · rw [mem_indexFacts, mem_prepareIndex_of_ne hne]
      refine or_iff_left ?_
      rintro ⟨f, -, hf⟩
      exact hne (owner_of_mem_lookupRows hf).1
    · rfl
  rw [hlookup, hexact row]
  refine exists_congr fun fact => and_congr_left fun _ => ?_
  rw [h.boundFact hfree hs.store hrows]
  exact (or_iff_left fun hnew => hrun hnew.1).symm

include hfree hs hrows h in
theorem Committed.exactIndex_of_indexes
    (hindex : indexesBatch ctx s.initialized batch.run.runId = true) :
    ExactIndex ctx known s' batch.run.runId.column := by
  intro row
  rw [h.lookup, if_pos hindex, mem_indexFacts, or_and_right, prepareIndex_exact hs hindex]
  constructor
  · rintro (⟨fact, hfact, hrow⟩ | ⟨⟨fact, hfact, hrow⟩, -⟩)
    · exact ⟨fact, (h.boundFact hfree hs.store hrows).mpr (.inl hfact), hrow⟩
    · exact ⟨fact, (h.boundFact hfree hs.store hrows).mpr (.inr ⟨rfl, hfact⟩), hrow⟩
  · rintro ⟨fact, hfact, hrow⟩
    rcases (h.boundFact hfree hs.store hrows).mp hfact with hold | ⟨-, hnew⟩
    · exact .inl ⟨fact, hold, hrow⟩
    · exact .inr ⟨⟨fact, hnew, hrow⟩, (owner_of_mem_lookupRows hrow).1⟩

include hs h in
/-- The batch was not in the chain of its run before. -/
theorem Committed.batchId_ne {entry : IndexMeta}
    (hentry : s.indexMeta batch.run.runId.column = some entry) :
    entry.batchId ≠ batch.batchId.column := by
  intro hsame
  have hmem := hs.chain _ entry hentry
  rw [hsame, batchesOf, mem_map] at hmem
  obtain ⟨receipt, hreceipt, hbatch⟩ := hmem
  rw [mem_filter, decide_eq_true_eq] at hreceipt
  refine h.fresh ?_
  rw [← hreceipt.2, ← hbatch]
  exact hreceipt.1

include hfree hs hrows h in
theorem Committed.indexInv : IndexInv ctx known s' := by
  have hstore := h.canonicalStore hs.store hrows
  have hcases : ∀ {run entry}, s'.indexMeta run = some entry → s.indexMeta run = some entry ∨
      run = batch.run.runId.column ∧ indexesBatch ctx s.initialized batch.run.runId ∧
        lookupSeal ctx s' batch.run.runId ⟨batch.batchId.column, receiptDigest ctx
          batch.run.runId (s'.batchesOf batch.run.runId.column)⟩ = entry := by
    intro run entry hentry
    rw [h.indexMeta] at hentry
    split at hentry
    · rcases seal_cases hentry with ⟨hrun, hseal⟩ | ⟨-, hold⟩
      · exact .inr ⟨hrun, ‹_›, hseal⟩
      · exact .inl hold
    · exact .inl hentry
  have hlookup : s'.lookup.Nodup := by
    rw [h.lookup]
    split
    · exact nodup_indexFacts (nodup_prepareIndex hs.nodup)
    · exact hs.nodup
  refine ⟨hstore, hlookup, fun hversion => absurd h.version hversion, ?_, ?_⟩
  · intro run entry hentry
    rcases hcases hentry with hold | ⟨rfl, -, rfl⟩
    · have hmem := hs.chain run entry hold
      by_cases hrun : run = batch.run.runId.column
      · subst hrun
        rw [batchesOf_append h.receipts]
        exact mem_append_left _ hmem
      · rwa [batchesOf_append_of_ne (Ne.symm hrun) h.receipts]
    · rw [batchesOf_append h.receipts]
      exact mem_append_right _ (mem_singleton.mpr rfl)
  · intro run entry hentry hlast
    rcases hcases hentry with hold | ⟨rfl, hindex, rfl⟩
    · by_cases hrun : run = batch.run.runId.column
      · -- the seal is of an earlier batch, so it is not the last one any more
        subst hrun
        rw [batchesOf_append h.receipts, getLast?_append, getLast?_singleton] at hlast
        exact absurd (Option.some.inj hlast).symm (h.batchId_ne hs hold)
      · rw [batchesOf_append_of_ne (Ne.symm hrun) h.receipts] at hlast
        obtain ⟨hexact, hdigest⟩ := hs.exact run entry hold hlast
        rw [h.currentIds_of_ne hs.store.unique hrun]
        exact ⟨h.exactIndex_of_ne hfree hs hrows hrun hexact, hdigest⟩
    · rw [lookupSeal, hstore.allFactKeys_eq]
      exact ⟨h.exactIndex_of_indexes hfree hs hrows hindex, rfl⟩

end Committed

theorem readCanonicalFact_congr {t : FactTables} (h : t.facts = s.facts) (id : StableId) :
    readCanonicalFact ctx t id = readCanonicalFact ctx s id := by
  rw [readCanonicalFact, readCanonicalFact, h]

/-- Reading a stored row gives the fact it stores, if it gives anything. -/
theorem readCanonicalFact_eq {id : StableId} {row : StoredFact} {read : MachineFact × ℕ}
    (hrow : s.facts id.column = some row) (hstored : StoredAs ctx fact row)
    (h : readCanonicalFact ctx s id = .ok read) : read = (fact, ctx.wire.byteSize fact.proto) := by
  obtain ⟨bytes, hbytes, rfl⟩ := hstored.serialize
  rw [readCanonicalFact, hrow] at h
  obtain ⟨decoded, hdecoded, h⟩ := bind_eq_ok.mp h
  rw [hexDecode_hexEncode (ctx.wire.bytes _ _ hbytes)] at hdecoded
  cases hdecoded
  by_cases htexts : ∀ t ∈ fact.proto.texts, ctx.wire.utf8 t
  · rw [ctx.wire.parse_serialize _ _ hbytes htexts] at h
    obtain ⟨fact', hfact', h⟩ := bind_eq_ok.mp h
    obtain ⟨-, h⟩ := guard_eq_ok.mp h
    rw [← pure_eq_ok.mp h, fromProtoFact_proto hstored.derive hfact']
  · rw [ctx.wire.parse_refused _ _ hbytes htexts] at h
    cases h

theorem column_of_parse {id parsed : StableId}
    (hderive : deriveMachineFactId ctx.sha256 row = .ok id)
    (h : parseStableId id.column = .ok parsed) : parsed = id := by
  refine StableId.toString_injective ?_
  rw [toString_of_parseStableId h, column_of_derive hderive]

theorem nodup_lookupRows (ctx : StoreContext) (run : String) (fact : MachineFact) :
    (lookupRows ctx run fact).Nodup := by
  unfold lookupRows
  cases relationAt fact.row.relation with
  | none => exact nodup_nil
  | some relation =>
    refine nodup_cons.mpr ⟨fun hmem => ?_, ?_⟩
    · obtain ⟨i, hi, hrow⟩ := mem_mapIdx.mp hmem
      have hindex := congrArg LookupRow.columnIndex hrow
      simp only at hindex
      omega
    · rw [nodup_iff_injective_get]
      intro i j hij
      have hindex := congrArg LookupRow.columnIndex hij
      simp only [get_eq_getElem, getElem_mapIdx] at hindex
      exact Fin.ext (by omega)

section

variable (hfree : CollisionFree ctx known)
include hfree

/-- The rows of the facts of some current ids, added one id after another. -/
theorem rebuildFacts (hs : CanonicalStore ctx known s)
    {t t' : FactTables} {ids : List String}
    (ht : t = { s.initialized with lookup := t.lookup }) (hids : ∀ id ∈ ids, id ∈ s.currentIds run)
    (h : ids.foldlM (rebuildFact ctx run) t = .ok t') :
    t' = { s.initialized with lookup := t'.lookup } ∧ (t.lookup.Nodup → t'.lookup.Nodup) ∧
      ∀ row, row ∈ t'.lookup ↔ row ∈ t.lookup ∨ ∃ fact, BoundFact ctx known s run fact ∧
        fact.factId.column ∈ ids ∧ row ∈ lookupRows ctx run fact := by
  refine foldlM_invariant (P := fun done u => (∀ id ∈ done, id ∈ s.currentIds run) →
    u = { s.initialized with lookup := u.lookup } ∧ (t.lookup.Nodup → u.lookup.Nodup) ∧
      ∀ row, row ∈ u.lookup ↔ row ∈ t.lookup ∨ ∃ fact, BoundFact ctx known s run fact ∧
        fact.factId.column ∈ done ∧ row ∈ lookupRows ctx run fact) ?_ ?_ h hids
  · exact fun _ => ⟨ht, fun h => h, by simp⟩
  · intro done id u u' ih hstep hdone
    obtain ⟨hframe, hnodup, hmem⟩ := ih fun id hid => hdone id (mem_append_left _ hid)
    obtain ⟨parsed, hparsed, hstep⟩ := bind_eq_ok.mp hstep
    obtain ⟨fact', hread, hstep⟩ := bind_eq_ok.mp hstep
    obtain ⟨hnew, hstep⟩ := guard_eq_ok.mp hstep
    obtain rfl := pure_eq_ok.mp hstep
    -- the id is bound, so what was read is the fact bound under it
    obtain ⟨fact, hfact, hcolumn⟩ := hs.boundFact (mem_currentIds.mp (hdone id (by simp)))
    obtain ⟨row, hrow, hstored⟩ := hfact.stored
    have hparsed : parsed = fact.factId := column_of_parse hstored.derive (hcolumn ▸ hparsed)
    have hsame : fact' = fact := by
      obtain ⟨read, hread, hfst⟩ := map_eq_ok.mp hread
      have hfacts : u.facts = s.facts := by
        rw [hframe]
        rfl
      rw [readCanonicalFact_congr hfacts] at hread
      rw [← hfst, readCanonicalFact_eq (hparsed ▸ hrow) hstored hread]
    subst hsame
    push Not at hnew
    refine ⟨by rw [hframe], fun h => ?_, fun r => ?_⟩
    · refine Nodup.append (hnodup h) (nodup_lookupRows ctx run fact') ?_
      exact fun r hr hr' => hnew r hr' hr
    · simp only [mem_append, hmem, or_assoc, mem_singleton]
      refine or_congr_right ⟨?_, ?_⟩
      · rintro (⟨f, hf, hid, hr⟩ | hr)
        · exact ⟨f, hf, .inl hid, hr⟩
        · exact ⟨fact', hfact, .inr hcolumn, hr⟩
      · rintro ⟨f, hf, hid | hid, hr⟩
        · exact .inl ⟨f, hf, hid, hr⟩
        · rw [hfree.bound_eq hf hfact (hid.trans hcolumn.symm)] at hr
          exact .inr hr

theorem rebuildFactLookup_eq_ok (hs : CanonicalStore ctx known s)
    (h : rebuildFactLookup ctx s runId = .ok s') :
    ∃ receipt lookup, readLookupReceipt ctx s runId = some receipt ∧
      s' = { s with
        lookupVersion := 1
        lookup := lookup
        indexMeta := update s.indexMeta runId.column
          (some (lookupSeal ctx s runId receipt)) } ∧
      (s.lookup.Nodup → lookup.Nodup) ∧
      ∀ row, row ∈ lookup ↔ (row ∈ s.lookup ∧ row.runId ≠ runId.column) ∨
        ∃ fact, BoundFact ctx known s runId.column fact ∧
          row ∈ lookupRows ctx runId.column fact := by
  obtain ⟨-, h⟩ := guard_eq_ok.mp h
  cases hreceipt : readLookupReceipt ctx s runId with
  | none =>
    rw [hreceipt] at h
    cases h
  | some receipt =>
    rw [hreceipt] at h
    obtain ⟨s₀, hinit, h⟩ := bind_eq_ok.mp h
    obtain rfl := initFactLookup_eq_ok hinit
    obtain ⟨t, hfold, h⟩ := bind_eq_ok.mp h
    have hkeys : (clearFactLookup s.initialized runId.column).allFactKeys runId.column =
        s.currentIds runId.column := by
      rw [← hs.allFactKeys_eq]
      exact allFactKeys_congr (by rfl) _
    rw [hkeys] at hfold
    obtain ⟨hframe, hnodup, hmem⟩ := rebuildFacts hfree hs rfl (fun id hid => hid) hfold
    refine ⟨receipt, t.lookup, rfl, ?_, fun hs => hnodup (hs.filter _), fun row => ?_⟩
    · have hseal : lookupSeal ctx t runId receipt = lookupSeal ctx s runId receipt :=
        lookupSeal_congr (by rw [hframe]; rfl) _ _
      rw [← pure_eq_ok.mp h, sealFactLookup, hseal, hframe]
      rfl
    · rw [hmem, clearFactLookup, mem_filter, decide_eq_true_eq]
      refine or_congr_right (exists_congr fun fact => and_congr_right fun hfact => ?_)
      exact and_iff_right (mem_currentIds.mpr hfact.current)

theorem IndexInv.rebuild (hs : IndexInv ctx known s)
    (h : rebuildFactLookup ctx s runId = .ok s') : IndexInv ctx known s' := by
  obtain ⟨receipt, lookup, hreceipt, hs', hnodup, hmem⟩ := rebuildFactLookup_eq_ok hfree hs.store h
  have hbound : ∀ {run fact}, BoundFact ctx known s run fact ↔ BoundFact ctx known s' run fact := by
    rw [hs']
    exact ⟨fun h => ⟨h.known, h.current, h.stored⟩, fun h => ⟨h.known, h.current, h.stored⟩⟩
  subst hs'
  obtain ⟨hlast, hdigest⟩ := readLookupReceipt_eq_some.mp hreceipt
  refine ⟨⟨hs.store.unique, hs.store.stored, hs.store.bound⟩, hnodup hs.nodup,
    fun hversion => absurd rfl hversion, ?_, ?_⟩
  · intro run entry hentry
    rcases seal_cases hentry with ⟨rfl, rfl⟩ | ⟨-, hold⟩
    · exact mem_of_getLast? hlast
    · exact hs.chain run entry hold
  · intro run entry hentry hend
    rcases seal_cases hentry with ⟨rfl, rfl⟩ | ⟨hrun, hold⟩
    · refine ⟨fun row => ?_, by rw [lookupSeal, hs.store.allFactKeys_eq]; rfl⟩
      rw [hmem, or_and_right, and_assoc]
      constructor
      · rintro (⟨-, hne, hrow⟩ | ⟨⟨fact, hfact, hrow⟩, -⟩)
        · exact absurd hrow hne
        · exact ⟨fact, hbound.mp hfact, hrow⟩
      · rintro ⟨fact, hfact, hrow⟩
        exact .inr ⟨⟨fact, hbound.mpr hfact, hrow⟩, (owner_of_mem_lookupRows hrow).1⟩
    · obtain ⟨hexact, hsnapshot⟩ := hs.exact run entry hold hend
      refine ⟨fun row => ?_, hsnapshot⟩
      have hrows : (row ∈ lookup ∧ row.runId = run) ↔ (row ∈ s.lookup ∧ row.runId = run) := by
        refine and_congr_left fun hrow => ?_
        have hne : row.runId ≠ runId.column := hrow ▸ hrun
        rw [hmem]
        constructor
        · rintro (⟨hold, -⟩ | ⟨fact, -, hnew⟩)
          · exact hold
          · exact absurd (owner_of_mem_lookupRows hnew).1 hne
        · exact fun hold => .inl ⟨hold, hne⟩
      simp only [hrows, hexact row, hbound]

/-- A store when it is opened: its index holds no seal, whatever rows were left in it. -/
structure OpenedStore (ctx : StoreContext) (known : Set MachineRow) (s : FactTables) : Prop where
  store : CanonicalStore ctx known s
  nodup : s.lookup.Nodup
  unsealed : ∀ run, s.indexMeta run = none

/-- One call on the store; an error of the call or of the database rolls the transaction back. -/
inductive StoreStep (ctx : StoreContext) (known : Set MachineRow) (s : FactTables) :
    FactTables → Prop
  | publish {batch : AnalysisFactBatch} {s' : FactTables} (hknown : KnownBatch known batch)
      (h : publish ctx s batch = some (.ok s')) : StoreStep ctx known s s'
  | rebuild {runId : StableId} {s' : FactTables} (h : rebuildFactLookup ctx s runId = .ok s') :
      StoreStep ctx known s s'
  | rolledBack : StoreStep ctx known s s

omit hfree in
theorem OpenedStore.indexInv (hs : OpenedStore ctx known s) : IndexInv ctx known s := by
  refine ⟨hs.store, hs.nodup, fun _ => hs.unsealed, ?_, ?_⟩
  all_goals
    intro run entry hentry
    rw [hs.unsealed run] at hentry
    cases hentry

omit hfree in
theorem committed_of_publish (hknown : KnownBatch known batch)
    (h : publish ctx s batch = some (.ok s')) :
    s' = s ∨ ∃ missing proofs, (∀ f ∈ batch.facts ++ missing, f.row ∈ known) ∧
      Committed ctx s batch missing proofs s' := by
  rcases publish_cases h with ⟨rfl, -⟩ | ⟨intake, proofs, htake, -, hcommit⟩
  · exact .inl rfl
  · refine .inr ⟨intake.missingInputFacts, proofs, fun f hf => ?_, hcommit⟩
    rcases mem_append.mp hf with hf | hf
    · exact hknown.facts f hf
    · obtain ⟨edge, hedge, hrow⟩ := missing_of_takeWitnesses htake f hf
      exact hrow ▸ hknown.inputs edge hedge

theorem IndexInv.step (hs : IndexInv ctx known s)
    (h : StoreStep ctx known s s') : IndexInv ctx known s' := by
  cases h with
  | publish hknown h =>
    rcases committed_of_publish hknown h with rfl | ⟨missing, proofs, hrows, hcommit⟩
    · exact hs
    · exact hcommit.indexInv hfree hs hrows
  | rebuild h => exact hs.rebuild hfree h
  | rolledBack => exact hs

theorem indexInv_of_steps {s₀ : FactTables}
    (hstart : OpenedStore ctx known s₀) (hsteps : Relation.ReflTransGen (StoreStep ctx known) s₀ s) :
    IndexInv ctx known s := by
  induction hsteps with
  | refl => exact hstart.indexInv
  | tail _ hstep ih => exact ih.step hfree hstep

end

theorem factLookupFingerprint_eq_ok :
    factLookupFingerprint ctx true s runId = .ok digest ↔
      ∃ receipt, readLookupReceipt ctx s runId = some receipt ∧
        readyLookupFingerprint ctx s runId receipt = some digest := by
  unfold factLookupFingerprint
  cases hreceipt : readLookupReceipt ctx s runId with
  | none => simp
  | some receipt =>
    cases hready : readyLookupFingerprint ctx s runId receipt with
    | none => simp [hready]
    | some found => simp [hready, pure_eq_ok]

/-- An index that is not ready stays so when a batch is published into a run that has one. -/
theorem Committed.not_ready {missing : List MachineFact} {proofs : List ResultWitness}
    (hs : IndexInv ctx known s) (h : Committed ctx s batch missing proofs s')
    (hindex : indexesBatch ctx s.initialized batch.run.runId ≠ true) (digest : String) :
    factLookupFingerprint ctx true s' batch.run.runId ≠ .ok digest := by
  intro hready
  obtain ⟨receipt, hreceipt, hready⟩ := factLookupFingerprint_eq_ok.mp hready
  obtain ⟨-, entry, hentry, hbatch, -⟩ := readyLookupFingerprint_eq_some.mp hready
  rw [readLookupReceipt_append h.receipts] at hreceipt
  rw [h.indexMeta, if_neg hindex] at hentry
  refine h.batchId_ne hs hentry ?_
  rw [hbatch, ← Option.some.inj hreceipt]

theorem openedStore_empty (ctx : StoreContext) (known : Set MachineRow) :
    OpenedStore ctx known empty := by
  refine ⟨⟨nodup_nil, ?_, ?_⟩, nodup_nil, fun _ => rfl⟩
  · intro key row hrow
    cases hrow
  · intro b hb
    cases hb

theorem sample_collisionFree : CollisionFree sampleContext {siteReach, siteCall 'c'} := by
  have hne : sampleSha siteReach.preimage ≠ sampleSha (siteCall 'c').preimage := by decide +kernel
  have hid : ∀ row id, deriveMachineFactId sampleSha row = .ok id →
      id = ⟨.fact, sampleSha row.preimage⟩ := fun row id h => @derive_eq sampleContext row id h
  rintro row (rfl | rfl) row' (rfl | rfl) id h h'
  · rfl
  · exact absurd (StableId.mk.inj ((hid _ _ h).symm.trans (hid _ _ h'))).2 hne
  · exact absurd (StableId.mk.inj ((hid _ _ h').symm.trans (hid _ _ h))).2 hne
  · rfl

theorem sample_known : KnownBatch {siteReach, siteCall 'c'} sampleBatch := by
  constructor
  · intro f hf
    rw [mem_singleton.mp hf]
    exact .inl rfl
  · intro e he
    rw [mem_singleton.mp he]
    exact .inr rfl

/-- The first batch of a run seals its index. -/
theorem sampleBatch_indexed : ∃ s digest, publish sampleContext .empty sampleBatch = some (.ok s) ∧
    factLookupFingerprint sampleContext true s sampleBatch.run.runId = .ok digest := by
  have hrun : (((publish sampleContext .empty sampleBatch).bind (·.toOption)).bind fun s =>
      (factLookupFingerprint sampleContext true s sampleBatch.run.runId).toOption).isSome = true := by
    decide +kernel
  simp only [Option.isSome_iff_exists, Option.bind_eq_some_iff, toOption_eq_some] at hrun
  obtain ⟨digest, s, ⟨_, hs, rfl⟩, hdigest⟩ := hrun
  exact ⟨s, digest, hs, hdigest⟩

/-- In every state of a store, an index that answers is exact: its rows are those of the facts the
run binds, its digest is that of the receipt chain and the sorted ids, and publication into a run
with a batch or a fact never makes an index ready that was not. -/
theorem ready_index_exact (hfree : CollisionFree ctx known) {s₀ : FactTables}
    (hstart : OpenedStore ctx known s₀) (hsteps : Relation.ReflTransGen (StoreStep ctx known) s₀ s) :
    (∀ runId digest, factLookupFingerprint ctx true s runId = .ok digest →
      s.lookup.Nodup ∧ ExactIndex ctx known s runId.column ∧
      (∀ b ∈ s.currentBindings, b.runId = runId.column →
        ∃ fact, BoundFact ctx known s runId.column fact ∧ fact.factId.column = b.factId) ∧
      digest = snapshotDigest ctx (receiptDigest ctx runId (s.batchesOf runId.column))
        (s.currentIds runId.column)) ∧
    ∀ batch s', KnownBatch known batch → publish ctx s batch = some (.ok s') →
      (s.batchesOf batch.run.runId.column ≠ [] ∨
        ∃ b ∈ s.currentBindings, b.runId = batch.run.runId.column) →
      (∀ digest, factLookupFingerprint ctx true s batch.run.runId ≠ .ok digest) →
        ∀ digest, factLookupFingerprint ctx true s' batch.run.runId ≠ .ok digest := by
  have hs := indexInv_of_steps hfree hstart hsteps
  constructor
  · intro runId digest hready
    obtain ⟨receipt, hreceipt, hready⟩ := factLookupFingerprint_eq_ok.mp hready
    obtain ⟨hexact, hdigest⟩ := hs.ready hreceipt hready
    refine ⟨hs.nodup, hexact, fun b hb hrun => ?_, hdigest⟩
    exact hs.store.boundFact (mem_map.mpr ⟨b, hb, Prod.ext hrun rfl⟩)
  · intro batch s' hknown h hused hnot digest
    rcases committed_of_publish hknown h with rfl | ⟨missing, proofs, -, hcommit⟩
    · exact hnot digest
    · refine hcommit.not_ready hs (fun hindex => ?_) digest
      rcases (indexesBatch_iff hs).mp hindex with ⟨receipt, found, hr, hready⟩ | ⟨hr, hempty⟩
      · exact hnot found (factLookupFingerprint_eq_ok.mpr ⟨receipt, hr, hready⟩)
      · rcases hused with hbatch | ⟨b, hb, hrun⟩
        · rw [readLookupReceipt, Option.map_eq_none_iff, getLast?_eq_none_iff] at hr
          exact hbatch hr
        · exact hempty b.factId (mem_map.mpr ⟨b, hb, Prod.ext hrun rfl⟩)

theorem sample_index_exact : ∃ s digest, publish sampleContext .empty sampleBatch = some (.ok s) ∧
    factLookupFingerprint sampleContext true s sampleBatch.run.runId = .ok digest ∧
      ExactIndex sampleContext {siteReach, siteCall 'c'} s sampleBatch.run.runId.column := by
  obtain ⟨s, digest, hs, hready⟩ := sampleBatch_indexed
  have hexact := (ready_index_exact sample_collisionFree (openedStore_empty sampleContext _)
    (.single (.publish sample_known hs))).1 _ digest hready
  exact ⟨s, digest, hs, hready, hexact.2.1⟩

theorem first_publication_seals : ∃ s digest,
    (∀ d, factLookupFingerprint sampleContext true .empty sampleBatch.run.runId ≠ .ok d) ∧
      publish sampleContext .empty sampleBatch = some (.ok s) ∧
        factLookupFingerprint sampleContext true s sampleBatch.run.runId = .ok digest := by
  obtain ⟨s, digest, hs, hready⟩ := sampleBatch_indexed
  refine ⟨s, digest, fun d h => ?_, hs, hready⟩
  obtain ⟨receipt, hreceipt, -⟩ := factLookupFingerprint_eq_ok.mp h
  cases hreceipt

end Veritas

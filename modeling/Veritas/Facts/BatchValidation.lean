import Veritas.Facts.AnalysisFactBus

/-! Validation accepts exactly the closed, acyclic batches. -/
namespace Veritas

open Function StatusOr List

/-- A proof of the result cites the input, and the input is itself published. -/
def DependsOn (batch : AnalysisFactBatch) (result input : MachineRow) : Prop :=
  ∃ e ∈ batch.witnesses, e.result = result ∧ e.input = input ∧ ∃ f ∈ batch.facts, f.row = input

/-- What the bus asks of the facts and witnesses of a batch. -/
structure BatchClosed (sha256 : String → String) (batch : AnalysisFactBatch) : Prop where
  derived : ∀ f ∈ batch.facts, deriveMachineFactId sha256 f.row = .ok f.factId
  unique : (batch.facts.map (·.factId)).Nodup
  witnessed : ∀ f ∈ batch.facts, ∃ e ∈ batch.witnesses, e.result = f.row
  results : ∀ e ∈ batch.witnesses, ∃ f ∈ batch.facts, f.row = e.result
  inputs : ∀ e ∈ batch.witnesses, (∃ f ∈ batch.facts, f.row = e.input) ∨
    ∃ id ∈ batch.rootedInputFactIds, deriveMachineFactId sha256 e.input = .ok id
  acyclic : ∀ row, ¬ Relation.TransGen (DependsOn batch) row row

/-- Every string of the batch is as short as a `std::string` has to be. -/
structure AnalysisFactBatch.Fits (batch : AnalysisFactBatch) : Prop where
  facts : ∀ f ∈ batch.facts, f.row.Fits
  witnesses : ∀ e ∈ batch.witnesses, e.result.Fits ∧ e.input.Fits

variable {row : MachineRow} {entry : MachineFact × ℕ} {pre : List (MachineFact × ℕ)} {i : ℕ}
  {sha256 : String → String}

theorem validate_of_derive {id : StableId}
    (h : deriveMachineFactId sha256 row = .ok id) : validateMachineRow row = .ok () :=
  (bind_unit_eq_ok.mp h).1

variable {batch : AnalysisFactBatch}

theorem deriveBatchId_isSome
    (hfacts : ∀ f ∈ batch.facts, validateMachineRow f.row = .ok ())
    (hedges : ∀ e ∈ batch.witnesses,
      validateMachineRow e.result = .ok () ∧ validateMachineRow e.input = .ok ()) :
    ∃ id, deriveBatchId sha256 batch = some id := by
  obtain ⟨facts, hfactKeys⟩ : ∃ facts, batch.facts.mapM factField = some facts := by
    refine Ordered.mapM_isSome fun f hf => ?_
    obtain ⟨key, hkey⟩ := Option.isSome_iff_exists.mp (encodeMachineKey_isSome (hfacts f hf))
    exact ⟨_, by rw [factField, hkey]; rfl⟩
  obtain ⟨edges, hedgeKeys⟩ : ∃ edges, batch.witnesses.mapM edgeFields = some edges := by
    refine Ordered.mapM_isSome fun e he => ?_
    obtain ⟨hresult, hinput⟩ := hedges e he
    obtain ⟨key, hkey⟩ := Option.isSome_iff_exists.mp (encodeMachineKey_isSome hresult)
    obtain ⟨key', hkey'⟩ := Option.isSome_iff_exists.mp (encodeMachineKey_isSome hinput)
    exact ⟨_, by rw [edgeFields, hkey, hkey']; rfl⟩
  exact ⟨_, by rw [deriveBatchId, hfactKeys, hedgeKeys]; rfl⟩

theorem processReady_eq_drain (edges : List (ℕ × ℕ)) (fuel : ℕ) (s : Kahn.State ℕ) :
    processReady edges fuel s = Kahn.drain edges fuel s := by
  induction fuel generalizing s with
  | zero => rfl
  | succ fuel ih =>
    simp only [processReady, Kahn.drain]
    cases s.ready with
    | nil => rfl
    | cons u rest => exact ih _

theorem processedCount_eq_iff {count : ℕ} {edges : List (ℕ × ℕ)}
    (hclosed : ∀ e ∈ edges, e.1 < count ∧ e.2 < count) :
    processedCount count edges = count ↔ Kahn.Acyclic edges := by
  have hrange : ∀ e ∈ edges, e.1 ∈ List.range count ∧ e.2 ∈ List.range count := by
    intro e he
    exact ⟨mem_range.mpr (hclosed e he).1, mem_range.mpr (hclosed e he).2⟩
  have hlen := Kahn.length_processed_eq_iff nodup_range hrange
  rw [Kahn.processed, length_range] at hlen
  rw [processedCount, processReady_eq_drain]
  exact hlen

theorem scanFact_eq_ok {scan scan' : FactScan}
    (hmemo : scan.memo.Sound sha256) (hfits : entry.1.row.Fits) :
    scanFact sha256 scan entry = .ok scan' ↔
      deriveMachineFactId sha256 entry.1.row = .ok entry.1.factId ∧
        scan.factIndex entry.1.factId = none ∧
          scan' = ⟨(scan.memo.identify sha256 entry.1.row).2,
            update scan.factIndex entry.1.factId (some entry.2)⟩ := by
  obtain ⟨hanswer, -⟩ := identify_spec hmemo hfits
  unfold scanFact
  rw [← hanswer]
  rcases scan.memo.identify sha256 entry.1.row with ⟨status | derived, memo⟩
  · simp
  · by_cases hsame : derived = entry.1.factId
    · cases hfree : scan.factIndex entry.1.factId with
      | none => simp [hsame, pure_eq_ok, @eq_comm _ scan']
      | some i => simp [hsame]
    · simp [hsame]

/-- What the pass over the facts knows of the part it has seen. -/
structure FactsSeen (sha256 : String → String) (pre : List (MachineFact × ℕ)) (scan : FactScan) :
    Prop where
  sound : scan.memo.Sound sha256
  derived : ∀ entry ∈ pre, deriveMachineFactId sha256 entry.1.row = .ok entry.1.factId
  unique : (pre.map (·.1.factId)).Nodup
  index : ∀ id i, scan.factIndex id = some i ↔ ∃ entry ∈ pre, entry.1.factId = id ∧ entry.2 = i

theorem FactsSeen.factIndex_eq_none {scan : FactScan}
    (h : FactsSeen sha256 pre scan) {id : StableId} :
    scan.factIndex id = none ↔ id ∉ pre.map (·.1.factId) := by
  rw [Option.eq_none_iff_forall_not_mem]
  constructor
  · intro hnone hmem
    obtain ⟨entry, hentry, hid⟩ := mem_map.mp hmem
    exact hnone entry.2 ((h.index id entry.2).mpr ⟨entry, hentry, hid, rfl⟩)
  · intro hfresh i hi
    obtain ⟨entry, hentry, hid, -⟩ := (h.index id i).mp hi
    exact hfresh (mem_map.mpr ⟨entry, hentry, hid⟩)

theorem factsSeen_start (sha256 : String → String) :
    FactsSeen sha256 [] ⟨FactIdentityMemo.empty, fun _ => none⟩ where
  sound := FactIdentityMemo.empty_sound sha256
  derived := by simp
  unique := nodup_nil
  index := by simp

theorem FactsSeen.step {scan scan' : FactScan}
    (h : FactsSeen sha256 pre scan) (hfits : entry.1.row.Fits)
    (hscan : scanFact sha256 scan entry = .ok scan') : FactsSeen sha256 (pre ++ [entry]) scan' := by
  obtain ⟨hderived, hfree, rfl⟩ := (scanFact_eq_ok h.sound hfits).mp hscan
  have hfresh := h.factIndex_eq_none.mp hfree
  refine ⟨(identify_spec h.sound hfits).2, ?_, ?_, ?_⟩
  · intro e he
    rcases mem_append.mp he with he | he
    · exact h.derived e he
    · rw [mem_singleton.mp he]
      exact hderived
  · rw [map_append, nodup_append]
    refine ⟨h.unique, by simp, ?_⟩
    intro a ha b hb hab
    have hb : b = entry.1.factId := by simpa using hb
    exact hfresh (hb ▸ hab ▸ ha)
  · intro id i
    dsimp only
    by_cases hid : id = entry.1.factId
    · subst hid
      rw [update_self]
      constructor
      · intro hi
        exact ⟨entry, by simp, rfl, Option.some.inj hi⟩
      · rintro ⟨e, he, hsame, rfl⟩
        rcases mem_append.mp he with he | he
        · exact absurd (mem_map.mpr ⟨e, he, hsame⟩) hfresh
        · rw [mem_singleton.mp he]
    · rw [update_of_ne hid, h.index]
      constructor
      · rintro ⟨e, he, hsame⟩
        exact ⟨e, mem_append_left _ he, hsame⟩
      · rintro ⟨e, he, hsame, hi⟩
        rcases mem_append.mp he with he | he
        · exact ⟨e, he, hsame, hi⟩
        · rw [mem_singleton.mp he] at hsame
          exact absurd hsame.symm hid

theorem map_zipIdx_factId (facts : List MachineFact) :
    facts.zipIdx.map (·.1.factId) = facts.map (·.factId) := by
  have hcomp : (fun entry : MachineFact × ℕ => entry.1.factId) = (·.factId) ∘ Prod.fst := rfl
  rw [hcomp, ← map_map, zipIdx_map_fst]

variable {facts : List MachineFact}

theorem scanFacts_seen {scan : FactScan}
    (hfits : ∀ f ∈ facts, f.row.Fits) (hscan : facts.zipIdx.foldlM (scanFact sha256)
      ⟨FactIdentityMemo.empty, fun _ => none⟩ = .ok scan) :
    FactsSeen sha256 facts.zipIdx scan := by
  refine foldlM_invariant (P := fun pre scan => (∀ e ∈ pre, e.1.row.Fits) →
    FactsSeen sha256 pre scan) (fun _ => factsSeen_start sha256) ?_ hscan ?_
  · intro pre entry s s' hseen hstep hpre
    have hbefore := hseen fun e he => hpre e (mem_append_left _ he)
    exact hbefore.step (hpre entry (by simp)) hstep
  · intro entry he
    exact hfits _ (fst_mem_of_mem_zipIdx he)

theorem scanFacts_isOk
    (hfits : ∀ f ∈ facts, f.row.Fits)
    (hderived : ∀ f ∈ facts, deriveMachineFactId sha256 f.row = .ok f.factId)
    (hunique : (facts.map (·.factId)).Nodup) :
    ∃ scan, facts.zipIdx.foldlM (scanFact sha256) ⟨FactIdentityMemo.empty, fun _ => none⟩ =
      .ok scan := by
  rw [← map_zipIdx_factId] at hunique
  obtain ⟨scan, hscan, -⟩ := foldlM_isOk (f := scanFact sha256) (l := facts.zipIdx)
    (FactsSeen sha256) (factsSeen_start sha256) (by
    intro pre entry post hsplit s hseen
    have hmem : entry.1 ∈ facts := by
      have hzip : entry ∈ facts.zipIdx := by
        rw [hsplit]
        exact mem_append_right _ mem_cons_self
      exact fst_mem_of_mem_zipIdx hzip
    have hfresh : entry.1.factId ∉ pre.map (·.1.factId) := by
      rw [hsplit, map_append, map_cons] at hunique
      intro hbad
      exact (nodup_append.mp hunique).2.2 _ hbad _ mem_cons_self rfl
    have hstep := (scanFact_eq_ok hseen.sound (hfits _ hmem)).mpr
      ⟨hderived _ hmem, hseen.factIndex_eq_none.mpr hfresh, rfl⟩
    exact ⟨_, hstep, hseen.step (hfits _ hmem) hstep⟩)
  exact ⟨scan, hscan⟩

/-- The fact at a position of the batch carries the row. -/
def RowAt (facts : List MachineFact) (i : ℕ) (row : MachineRow) : Prop :=
  ∃ f, facts[i]? = some f ∧ f.row = row

theorem exists_rowAt :
    (∃ i, RowAt facts i row) ↔ ∃ f ∈ facts, f.row = row := by
  simp only [RowAt, mem_iff_getElem?]
  constructor
  · rintro ⟨i, f, hf, hrow⟩
    exact ⟨f, ⟨i, hf⟩, hrow⟩
  · rintro ⟨f, ⟨i, hf⟩, hrow⟩
    exact ⟨i, f, hf, hrow⟩

theorem RowAt.row_unique {row' : MachineRow} (h : RowAt facts i row)
    (h' : RowAt facts i row') : row = row' := by
  obtain ⟨f, hf, hrow⟩ := h
  obtain ⟨f', hf', hrow'⟩ := h'
  rw [hf] at hf'
  rw [← hrow, ← hrow', Option.some.inj hf']

theorem RowAt.lt (h : RowAt facts i row) : i < facts.length := by
  obtain ⟨f, hf, -⟩ := h
  exact (List.getElem?_eq_some_iff.mp hf).1

section Witnesses

variable {sha256 : String → String} {batch : AnalysisFactBatch} {facts : FactScan}

theorem publishedAt_eq_some (hseen : FactsSeen sha256 batch.facts.zipIdx facts) {id : StableId}
    (hid : deriveMachineFactId sha256 row = .ok id) :
    publishedAt batch.facts facts.factIndex id row = some i ↔ RowAt batch.facts i row := by
  rw [publishedAt, Option.filter_eq_some_iff, hseen.index]
  simp only [decide_eq_true_eq, Option.map_eq_some_iff]
  constructor
  · rintro ⟨-, f, hf, hrow⟩
    exact ⟨f, hf, hrow⟩
  · rintro ⟨f, hf, hrow⟩
    have hmem : (f, i) ∈ batch.facts.zipIdx := mk_mem_zipIdx_iff_getElem?.mpr hf
    have hsame : f.factId = id := by
      have hderived := hseen.derived _ hmem
      rw [hrow, hid] at hderived
      exact (Except.ok.inj hderived).symm
    exact ⟨⟨(f, i), hmem, hsame, rfl⟩, f, hf, hrow⟩

theorem publishedAt_isNone (hseen : FactsSeen sha256 batch.facts.zipIdx facts) {id : StableId}
    (hid : deriveMachineFactId sha256 row = .ok id) :
    (publishedAt batch.facts facts.factIndex id row).isNone = false ↔
      ∃ i, RowAt batch.facts i row := by
  rw [Option.isNone_eq_false_iff, Option.isSome_iff_exists]
  exact exists_congr fun _ => publishedAt_eq_some hseen hid

variable {edge : MachineEdge} {scan : WitnessScan}

theorem scanWitness_eq_ok {scan' : WitnessScan} {factIndex : StableId → Option ℕ}
    (hmemo : scan.memo.Sound sha256) (hresult : edge.result.Fits) (hinput : edge.input.Fits) :
    scanWitness sha256 batch factIndex scan edge = .ok scan' ↔
      ∃ result input, deriveMachineFactId sha256 edge.result = .ok result ∧
        deriveMachineFactId sha256 edge.input = .ok input ∧
          scan' = scan.record batch factIndex edge result input
            ((scan.memo.identify sha256 edge.result).2.identify sha256 edge.input).2 := by
  obtain ⟨hfirst, hmid⟩ := identify_spec hmemo hresult
  obtain ⟨hsecond, -⟩ := identify_spec hmid hinput
  unfold scanWitness
  rw [← hfirst, ← hsecond]
  rcases scan.memo.identify sha256 edge.result with ⟨status | result, memo⟩
  · simp
  · dsimp only
    rcases memo.identify sha256 edge.input with ⟨status | input, memo⟩
    · simp
    · simp [pure_eq_ok, @eq_comm _ scan']

/-- What the pass over the witnesses knows of the part it has seen. -/
structure WitnessesSeen (sha256 : String → String) (batch : AnalysisFactBatch)
    (pre : List MachineEdge) (scan : WitnessScan) : Prop where
  sound : scan.memo.Sound sha256
  dependencies : ∀ a b, (a, b) ∈ dependencies scan.endpoints ↔
    ∃ e ∈ pre, RowAt batch.facts a e.input ∧ RowAt batch.facts b e.result
  witnessed : ∀ i, scan.witnessed i = true ↔ ∃ e ∈ pre, RowAt batch.facts i e.result
  inputs : scan.inputOutsideRootSet = false ↔ ∀ e ∈ pre, (∃ i, RowAt batch.facts i e.input) ∨
    ∃ id ∈ batch.rootedInputFactIds, deriveMachineFactId sha256 e.input = .ok id
  results : scan.resultOutsidePublishedSet = false ↔ ∀ e ∈ pre, ∃ i, RowAt batch.facts i e.result

theorem witnessesSeen_start (hmemo : facts.memo.Sound sha256) :
    WitnessesSeen sha256 batch [] ⟨facts.memo, [], fun _ => false, false, false⟩ where
  sound := hmemo
  dependencies := by simp [dependencies]
  witnessed := by simp
  inputs := by simp
  results := by simp

theorem mem_dependencies_append {endpoints : List WitnessEndpoints} {p : WitnessEndpoints}
    {a b : ℕ} : (a, b) ∈ dependencies (endpoints ++ [p]) ↔
      (a, b) ∈ dependencies endpoints ∨ p.input = some a ∧ p.result = some b := by
  obtain ⟨result, input⟩ := p
  rw [dependencies, filterMap_append, mem_append]
  refine or_congr Iff.rfl ?_
  cases input <;> cases result <;> simp [eq_comm]

section

variable (hfacts : FactsSeen sha256 batch.facts.zipIdx facts)
include hfacts

theorem WitnessesSeen.step {pre : List MachineEdge} {scan' : WitnessScan}
    (h : WitnessesSeen sha256 batch pre scan)
    (hresult : edge.result.Fits) (hinput : edge.input.Fits)
    (hscan : scanWitness sha256 batch facts.factIndex scan edge = .ok scan') :
    WitnessesSeen sha256 batch (pre ++ [edge]) scan' := by
  obtain ⟨result, input, hr, hi, rfl⟩ := (scanWitness_eq_ok h.sound hresult hinput).mp hscan
  have hmid := (identify_spec h.sound hresult).2
  refine ⟨(identify_spec hmid hinput).2, ?_, ?_, ?_, ?_⟩
  · intro a b
    rw [WitnessScan.record, mem_dependencies_append, h.dependencies]
    rw [publishedAt_eq_some hfacts hr, publishedAt_eq_some hfacts hi]
    simp only [mem_append, mem_singleton, or_and_right, exists_or, exists_eq_left]
  · intro i
    rw [WitnessScan.record, Bool.or_eq_true, h.witnessed, decide_eq_true_eq,
      publishedAt_eq_some hfacts hr]
    simp only [mem_append, mem_singleton, or_and_right, exists_or, exists_eq_left]
  · have hroot : (decide (input ∉ batch.rootedInputFactIds)) = false ↔
        ∃ id ∈ batch.rootedInputFactIds, deriveMachineFactId sha256 edge.input = .ok id := by
      rw [hi]
      simp
    rw [WitnessScan.record, Bool.or_eq_false_iff, Bool.and_eq_false_iff, h.inputs, hroot,
      publishedAt_isNone hfacts hi]
    simp only [forall_mem_append, forall_mem_singleton]
  · rw [WitnessScan.record, Bool.or_eq_false_iff, h.results, publishedAt_isNone hfacts hr]
    simp only [forall_mem_append, forall_mem_singleton]

theorem scanWitnesses_seen (hfits : ∀ e ∈ batch.witnesses, e.result.Fits ∧ e.input.Fits)
    (hscan : batch.witnesses.foldlM (scanWitness sha256 batch facts.factIndex)
      ⟨facts.memo, [], fun _ => false, false, false⟩ = .ok scan) :
    WitnessesSeen sha256 batch batch.witnesses scan := by
  refine foldlM_invariant (P := fun pre scan =>
    (∀ e ∈ pre, e.result.Fits ∧ e.input.Fits) → WitnessesSeen sha256 batch pre scan)
    (fun _ => witnessesSeen_start hfacts.sound) ?_ hscan hfits
  intro pre edge s s' hseen hstep hpre
  have hbefore := hseen fun e he => hpre e (mem_append_left _ he)
  obtain ⟨hresult, hinput⟩ := hpre edge (by simp)
  exact hbefore.step hfacts hresult hinput hstep

theorem scanWitnesses_isOk (hfits : ∀ e ∈ batch.witnesses, e.result.Fits ∧ e.input.Fits)
    (hderived : ∀ e ∈ batch.witnesses, ∃ result input,
      deriveMachineFactId sha256 e.result = .ok result ∧
        deriveMachineFactId sha256 e.input = .ok input) :
    ∃ scan, batch.witnesses.foldlM (scanWitness sha256 batch facts.factIndex)
      ⟨facts.memo, [], fun _ => false, false, false⟩ = .ok scan := by
  obtain ⟨scan, hscan, -⟩ := foldlM_isOk
    (f := scanWitness sha256 batch facts.factIndex) (l := batch.witnesses)
    (WitnessesSeen sha256 batch) (witnessesSeen_start hfacts.sound) (by
    intro pre edge post hsplit s hseen
    have hmem : edge ∈ batch.witnesses := by
      rw [hsplit]
      exact mem_append_right _ mem_cons_self
    obtain ⟨hresult, hinput⟩ := hfits edge hmem
    obtain ⟨result, input, hr, hi⟩ := hderived edge hmem
    obtain ⟨next, hstep⟩ : ∃ next, scanWitness sha256 batch facts.factIndex s edge = .ok next :=
      ⟨_, (scanWitness_eq_ok hseen.sound hresult hinput).mpr ⟨result, input, hr, hi, rfl⟩⟩
    exact ⟨next, hstep, hseen.step hfacts hresult hinput hstep⟩)
  exact ⟨scan, hscan⟩

theorem FactsSeen.rowAt_injective {j : ℕ}
    (hi : RowAt batch.facts i row) (hj : RowAt batch.facts j row) : i = j := by
  obtain ⟨f, hf, hrow⟩ := hi
  have hderived := hfacts.derived _ (mk_mem_zipIdx_iff_getElem?.mpr hf)
  have hati := (publishedAt_eq_some hfacts hderived).mpr ⟨f, hf, rfl⟩
  have hatj := (publishedAt_eq_some hfacts hderived).mpr (hrow ▸ hj)
  rw [hati] at hatj
  exact Option.some.inj hatj

/-- The counted dependencies have a cycle exactly when the published rows have one. -/
theorem acyclic_dependencies_iff (hseen : WitnessesSeen sha256 batch batch.witnesses scan)
    (hresults : ∀ e ∈ batch.witnesses, ∃ i, RowAt batch.facts i e.result) :
    Kahn.Acyclic (dependencies scan.endpoints) ↔
      ∀ row, ¬ Relation.TransGen (DependsOn batch) row row := by
  constructor
  · intro hacyclic row hcycle
    have hstep : ∀ a b, DependsOn batch a b → ∃ i j, RowAt batch.facts i b ∧
        RowAt batch.facts j a ∧ (i, j) ∈ dependencies scan.endpoints := by
      rintro a b ⟨e, he, rfl, rfl, hinput⟩
      obtain ⟨i, hi⟩ := exists_rowAt.mpr hinput
      obtain ⟨j, hj⟩ := hresults e he
      exact ⟨i, j, hi, hj, (hseen.dependencies i j).mpr ⟨e, he, hi, hj⟩⟩
    obtain ⟨i, hloop⟩ := Kahn.exists_cycle_of_step hcycle hstep hfacts.rowAt_injective
    exact hacyclic i hloop
  · intro hacyclic v hcycle
    have hstep : ∀ a b, (a, b) ∈ dependencies scan.endpoints → ∃ r r',
        RowAt batch.facts b r ∧ RowAt batch.facts a r' ∧ DependsOn batch r r' := by
      intro a b he
      obtain ⟨e, he, hinput, hresult⟩ := (hseen.dependencies a b).mp he
      exact ⟨_, _, hresult, hinput, e, he, rfl, rfl, exists_rowAt.mp ⟨a, hinput⟩⟩
    obtain ⟨r, hloop⟩ := Kahn.exists_cycle_of_step hcycle hstep RowAt.row_unique
    exact hacyclic r hloop

/-- The checks after the pass hold exactly when the witnesses are closed and acyclic. -/
theorem witnessChecks_iff (hseen : WitnessesSeen sha256 batch batch.witnesses scan) :
    ((¬ ∃ i ∈ List.range batch.facts.length, ¬ scan.witnessed i) ∧ ¬ scan.inputOutsideRootSet ∧
      ¬ scan.resultOutsidePublishedSet ∧
        ¬ processedCount batch.facts.length (dependencies scan.endpoints) ≠ batch.facts.length) ↔
      (∀ f ∈ batch.facts, ∃ e ∈ batch.witnesses, e.result = f.row) ∧
      (∀ e ∈ batch.witnesses, (∃ f ∈ batch.facts, f.row = e.input) ∨
        ∃ id ∈ batch.rootedInputFactIds, deriveMachineFactId sha256 e.input = .ok id) ∧
      (∀ e ∈ batch.witnesses, ∃ f ∈ batch.facts, f.row = e.result) ∧
      ∀ row, ¬ Relation.TransGen (DependsOn batch) row row := by
  have hclosed : ∀ d ∈ dependencies scan.endpoints,
      d.1 < batch.facts.length ∧ d.2 < batch.facts.length := by
    intro d hd
    obtain ⟨e, -, hinput, hresult⟩ := (hseen.dependencies d.1 d.2).mp hd
    exact ⟨hinput.lt, hresult.lt⟩
  have hwitnessed : (¬ ∃ i ∈ List.range batch.facts.length, ¬ scan.witnessed i) ↔
      ∀ f ∈ batch.facts, ∃ e ∈ batch.witnesses, e.result = f.row := by
    simp only [not_exists, not_and, not_not, mem_range]
    simp only [hseen.witnessed]
    constructor
    · intro h f hf
      obtain ⟨i, hi⟩ := mem_iff_getElem?.mp hf
      obtain ⟨e, he, hrow⟩ := h i (List.getElem?_eq_some_iff.mp hi).1
      exact ⟨e, he, hrow.row_unique ⟨f, hi, rfl⟩⟩
    · intro h i hi
      have hat : batch.facts[i]? = some batch.facts[i] := getElem?_eq_getElem hi
      obtain ⟨e, he, hrow⟩ := h _ (getElem_mem hi)
      exact ⟨e, he, _, hat, hrow.symm⟩
  have hinputs := hseen.inputs
  have hresults := hseen.results
  rw [hwitnessed, Bool.not_eq_true, Bool.not_eq_true, hinputs, hresults, not_ne_iff,
    processedCount_eq_iff hclosed]
  simp only [exists_rowAt]
  refine and_congr_right fun _ => and_congr_right fun _ => and_congr_right fun hpublished => ?_
  exact acyclic_dependencies_iff hfacts hseen fun e he => exists_rowAt.mpr (hpublished e he)

end

end Witnesses

/-- The two passes and the checks after them succeed exactly on closed, acyclic batches. -/
theorem scans_ok_iff (hfits : batch.Fits) :
    (∃ facts, batch.facts.zipIdx.foldlM (scanFact sha256)
      ⟨FactIdentityMemo.empty, fun _ => none⟩ = .ok facts ∧
        validateWitnesses sha256 batch facts = .ok ()) ↔ BatchClosed sha256 batch := by
  simp only [validateWitnesses, bind_eq_ok, guard_eq_ok, throwIf_eq_ok]
  constructor
  · rintro ⟨facts, hfacts, scan, hscan, hchecks⟩
    have hseen := scanFacts_seen hfits.facts hfacts
    have hwitnesses := scanWitnesses_seen hseen hfits.witnesses hscan
    obtain ⟨hwitnessed, hinputs, hresults, hacyclic⟩ :=
      (witnessChecks_iff hseen hwitnesses).mp hchecks
    refine ⟨?_, ?_, hwitnessed, hresults, hinputs, hacyclic⟩
    · intro f hf
      obtain ⟨i, hi⟩ := mem_iff_getElem?.mp hf
      exact hseen.derived (f, i) (mk_mem_zipIdx_iff_getElem?.mpr hi)
    · rw [← map_zipIdx_factId]
      exact hseen.unique
  · intro h
    obtain ⟨facts, hfacts⟩ := scanFacts_isOk hfits.facts h.derived h.unique
    have hseen := scanFacts_seen hfits.facts hfacts
    have hderived : ∀ e ∈ batch.witnesses, ∃ result input,
        deriveMachineFactId sha256 e.result = .ok result ∧
          deriveMachineFactId sha256 e.input = .ok input := by
      intro e he
      obtain ⟨f, hf, hrow⟩ := h.results e he
      rcases h.inputs e he with ⟨g, hg, hinput⟩ | ⟨id, -, hid⟩
      · exact ⟨_, _, hrow ▸ h.derived f hf, hinput ▸ h.derived g hg⟩
      · exact ⟨_, _, hrow ▸ h.derived f hf, hid⟩
    obtain ⟨scan, hscan⟩ := scanWitnesses_isOk hseen hfits.witnesses hderived
    have hwitnesses := scanWitnesses_seen hseen hfits.witnesses hscan
    exact ⟨facts, hfacts, scan, hscan, (witnessChecks_iff hseen hwitnesses).mpr
      ⟨h.witnessed, h.inputs, h.results, h.acyclic⟩⟩

/-- Everything an accepted batch was checked for. -/
theorem validateBatch_eq_ok
    (hfits : batch.Fits) : validateBatch sha256 batch = some (.ok ()) ↔
      deriveBatchId sha256 batch = some batch.batchId ∧ batch.expectedComponents.Nodup ∧
        (batch.completedComponents.map (·.key)).Nodup ∧
          (∀ key, key ∈ batch.expectedComponents ↔ key ∈ batch.completedComponents.map (·.key)) ∧
            BatchClosed sha256 batch := by
  have hsets : batch.expectedComponents.toFinset = (batch.completedComponents.map
      (·.key)).toFinset ↔ ∀ key, key ∈ batch.expectedComponents ↔
        key ∈ batch.completedComponents.map (·.key) := by
    simp only [Finset.ext_iff, mem_toFinset]
  have hcard : batch.expectedComponents.toFinset.card = batch.expectedComponents.length ↔
      batch.expectedComponents.Nodup := Multiset.toFinset_card_eq_card_iff_nodup
  rw [validateBatch, Option.map_eq_some_iff, ← scans_ok_iff hfits, ← hsets, ← hcard]
  simp only [guard_eq_ok, bind_eq_ok, ne_eq, not_not]
  constructor
  · rintro ⟨id, hid, hsame, hchecks⟩
    exact ⟨hsame ▸ hid, hchecks⟩
  · rintro ⟨hid, hchecks⟩
    exact ⟨batch.batchId, hid, rfl, hchecks⟩

/-- A batch with its canonical id and the components it promised is accepted exactly when its
facts and witnesses are closed and acyclic. -/
theorem validateBatch_ok_iff {sha256 : String → String} {batch : AnalysisFactBatch}
    (hfits : batch.Fits) (hid : deriveBatchId sha256 batch = some batch.batchId)
    (hexpected : batch.expectedComponents.Nodup)
    (hcompleted : (batch.completedComponents.map (·.key)).Nodup)
    (hsame : ∀ key, key ∈ batch.expectedComponents ↔ key ∈ batch.completedComponents.map (·.key)) :
    validateBatch sha256 batch = some (.ok ()) ↔ BatchClosed sha256 batch := by
  rw [validateBatch_eq_ok hfits]
  constructor
  · intro h
    exact h.2.2.2.2
  · intro h
    exact ⟨hid, hexpected, hcompleted, hsame, h⟩

/-- A function that calls itself at one site, and what it therefore reaches. -/
def selfCall : MachineRow :=
  ⟨RelationId.directCall.toMachine, [.stableId ⟨.callSite, "c"⟩, .stableId ⟨.functionVariant, "f"⟩,
    .stableId ⟨.functionVariant, "f"⟩, .dispatchKind 0, .epistemic 0]⟩

def selfReach : MachineRow :=
  ⟨RelationId.reachableCall.toMachine, [.stableId ⟨.functionVariant, "f"⟩,
    .stableId ⟨.functionVariant, "f"⟩, .epistemic 0]⟩

/-- One reachability component whose only fact cites the same root twice. -/
def selfReachBatch : AnalysisFactBatch where
  batchId := ⟨.fact, ""⟩
  run := ⟨⟨.analysisRun, "r"⟩, .souffle⟩
  expectedComponents := [⟨⟨.scc, "s"⟩, .reachability⟩]
  completedComponents := [⟨⟨⟨.scc, "s"⟩, .reachability⟩, "object",
    ⟨⟨.scc, "s"⟩, .reachability, "l", "x", "y", [], [], []⟩⟩]
  rootedInputFactIds := [⟨.fact, selfCall.preimage⟩]
  rootedInputFacts := []
  facts := [⟨⟨.fact, selfReach.preimage⟩, selfReach⟩]
  witnesses := [⟨selfReach, "reach.base", "d", selfCall, 0⟩,
    ⟨selfReach, "reach.base", "d", selfCall, 1⟩]
  diagnostics := []

def selfReachPublished : AnalysisFactBatch :=
  { selfReachBatch with batchId := ((deriveBatchId id selfReachBatch).getD ⟨.fact, ""⟩) }

theorem selfReach_accepted :
    BatchClosed id selfReachPublished ∧ validateBatch id selfReachPublished = some (.ok ()) := by
  have hvalid : validateBatch id selfReachPublished = some (.ok ()) := by decide +kernel
  have hid : deriveBatchId id selfReachPublished = some selfReachPublished.batchId := by
    decide +kernel
  have hfits : selfReachPublished.Fits := ⟨by decide +kernel, by decide +kernel⟩
  exact ⟨(validateBatch_ok_iff hfits hid (nodup_singleton _) (nodup_singleton _)
    fun key => Iff.rfl).mp hvalid, hvalid⟩

end Veritas

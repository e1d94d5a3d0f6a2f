import Veritas.Facts.CanonicalForm

/-! What a successful canonicalization publishes, over keys alone. -/
namespace Veritas

open Hypergraph Relaxation Ordered StatusOr List

theorem witnessOrder_lt_of_ordinal {result rule ordinal ordinal' input input' : ℕ}
    (h : ordinal < ordinal') :
    witnessOrder result rule ordinal input < witnessOrder result rule ordinal' input' := by
  simp [witnessOrder, Prod.Lex.toLex_lt_toLex, h]

theorem sortByKeys_of_sorted {α κ : Type} [LinearOrder κ] {entries : List (κ × α)}
    (h : entries.Pairwise fun a b => a.1 ≤ b.1) : sortByKeys entries = entries.map (·.2) := by
  rw [sortByKeys, h.insertionSort_eq]

section Emit

variable {sha256 : String → String} {p : Prepared} {roots results : List SemanticRow}
  {edges : List WitnessEdge} (hp : Prepares p roots results edges)
  (hadm : Admissible roots results edges)

theorem Admissible.valid (hadm : Admissible roots results edges) :
    ∀ row ∈ roots ++ results, validateSemanticRow row = .ok () := by
  intro row hrow
  rcases mem_append.mp hrow with h | h
  · exact hadm.roots_valid row h
  · exact hadm.results_valid row h

variable {row : SemanticRow} {step : ProofStep} {n : ℕ}

theorem Admissible.rowOfKey_eq_some (hadm : Admissible roots results edges) {k : String} :
    rowOfKey roots results k = some row ↔ row ∈ roots ++ results ∧ encodeSemanticKey row = k :=
  find?_eq_some_of_inj fun a ha b hb => encodeSemanticKey_inj (hadm.valid a ha) (hadm.valid b hb)

/-- The inputs of a step stand at distinct, ascending ordinals. -/
theorem Admissible.ascending (hadm : Admissible roots results edges) (h : step ∈ proofSteps edges) :
    Ascending step.inputs := by
  obtain ⟨t, -, rfl⟩ := mem_map.mp h
  refine List.Pairwise.sortedLT (pairwise_map.mpr ?_)
  rw [proofStep, pairwise_map]
  refine (sortedLT_ascending _).pairwise.imp_of_mem fun {a b} ha hb hlt => ?_
  rcases Prod.Lex.lt_iff.mp hlt with hlt | ⟨heq, hlt⟩
  · exact hlt
  · obtain ⟨e, he, hfire, hord, hkey⟩ := mem_proofStep_inputs.mp (mem_map_of_mem (f := ofLex) ha)
    obtain ⟨e', he', hfire', hord', hkey'⟩ :=
      mem_proofStep_inputs.mp (mem_map_of_mem (f := ofLex) hb)
    have hsame := hadm.functional e he e' he' (hfire.trans hfire'.symm)
      (hord.trans (heq.trans hord'.symm))
    rw [hkey, hkey'] at hsame
    exact absurd hsame hlt.ne

include hp hadm

theorem Prepares.rowOf_eq (hn : n ∈ idsOf p.index.rows) :
    p.index.rowOf n = rowOfKey roots results (nameOf p.index.rows n) := by
  have hnames := names_nameOf hn
  have hkey : ∀ {row}, p.index.rows.Names n (encodeSemanticKey row) ↔
      encodeSemanticKey row = nameOf p.index.rows n := by
    intro row
    exact ⟨fun h => h.unique hnames, fun h => h ▸ hnames⟩
  have hroot := hp.indexes.root n
  have hresult := hp.indexes.result n
  simp only [hkey] at hroot hresult
  refine Option.ext fun row => ?_
  rw [hadm.rowOfKey_eq_some, RowIndex.rowOf, mem_append]
  cases hopt : p.index.rootRows n with
  | none =>
    have hnot : ¬ (row ∈ roots ∧ encodeSemanticKey row = nameOf p.index.rows n) := by
      rw [← hroot, hopt]
      simp
    rw [Option.orElse_none, hresult]
    tauto
  | some first =>
    obtain ⟨hmem, hfirst⟩ := (hroot first).mp hopt
    rw [Option.orElse_some, Option.some.injEq]
    constructor
    · rintro rfl
      exact ⟨.inl hmem, hfirst⟩
    · rintro ⟨hrow, heq⟩
      exact encodeSemanticKey_inj (hadm.roots_valid _ hmem)
        (hadm.valid _ (mem_append.mpr hrow)) (hfirst.trans heq.symm)

theorem Prepares.inputs_ascending {d : Derivation ℕ ℕ} (hd : d ∈ p.derivations) :
    d.inputs.Pairwise fun a b => a.1 < b.1 := by
  obtain ⟨g, hg⟩ := hp.named
  have hstep : d.map (nameOf p.index.rows) g ∈ proofSteps edges := by
    rw [← hg]
    exact mem_map_of_mem hd
  have hasc := pairwise_map.mp (hadm.ascending hstep).pairwise
  rw [Derivation.map, pairwise_map] at hasc
  exact hasc

omit hadm in
/-- A result without a proof stops the selection. -/
theorem Prepares.emit_none (hrow : p.index.resultRows n = some row)
    (hnone : chosenStep roots edges (encodeSemanticKey row) = none) :
    p.emit sha256 n = noFiniteProof := by
  have hnames := ((hp.indexes.result n row).mp hrow).2
  have hn := mem_idsOf hnames
  rw [chosenStep, ← nameOf_eq hnames, ← hp.costs_named.2 n hn] at hnone
  rw [Prepared.emit, emitResult]
  split_ifs at hnone ⊢ with hcost
  · rfl
  · obtain ⟨g, hg⟩ := hp.selected_named hn
    rw [← hg, Option.map_eq_none_iff] at hnone
    rw [hnone]

variable (sha256) in
/-- A result with a proof is emitted with the edges of its step. -/
theorem Prepares.emit_some (hrow : p.index.resultRows n = some row)
    (hstep : chosenStep roots edges (encodeSemanticKey row) = some step) :
    ∃ wes, p.emit sha256 n = .ok ((p.index.rows.rank n, factOf sha256 row), wes) ∧
      wes.map (·.2) = stepEdges roots results row step ∧
        wes.Pairwise (fun a b => a.1 ≤ b.1) ∧
          ∀ w ∈ wes, (ofLex w.1).1 = p.index.rows.rank n := by
  obtain ⟨hmem, hnames⟩ := (hp.indexes.result n row).mp hrow
  have hn := mem_idsOf hnames
  rw [chosenStep, ← nameOf_eq hnames, ← hp.costs_named.2 n hn] at hstep
  split_ifs at hstep with hcost
  obtain ⟨g, hg⟩ := hp.selected_named hn
  rw [← hg, Option.map_eq_some_iff] at hstep
  obtain ⟨⟨selected, cost⟩, hselect, rfl⟩ := hstep
  have hsel := Prepared.mem_costed (mem_filter.mp (mem_of_selectProof hselect)).1
  have hasc := hp.inputs_ascending hadm hsel
  have hfact : makeFact sha256 row = .ok (factOf sha256 row) := by
    rw [makeFact, deriveFactId, hadm.results_valid row hmem]
    rfl
  refine ⟨_, by simp only [Prepared.emit, emitResult, if_neg hcost, hselect, hrow, hfact]; rfl,
    ?_, ?_, ?_⟩
  · rw [map_filterMap, stepEdges, Derivation.map, filterMap_map]
    refine filterMap_congr fun q hq => ?_
    have hq' := (hp.rows selected hsel).2 q hq
    obtain ⟨ordinal, input⟩ := q
    simp only [Function.comp, Prod.map, id, hp.rowOf_eq hadm hq', Option.map_map]
    rfl
  · rw [pairwise_filterMap]
    refine hasc.imp fun {a b} hab w hw w' hw' => ?_
    obtain ⟨input, -, rfl⟩ := Option.map_eq_some_iff.mp hw
    obtain ⟨input', -, rfl⟩ := Option.map_eq_some_iff.mp hw'
    exact (witnessOrder_lt_of_ordinal hab).le
  · intro w hw
    obtain ⟨q, -, hq⟩ := mem_filterMap.mp hw
    obtain ⟨input, -, rfl⟩ := Option.map_eq_some_iff.mp hq
    rfl

theorem Prepares.sortedResults_eq :
    sortedResults results = p.resultOrder.filterMap p.index.resultRows := by
  rw [sortedResults, ← hp.resultOrder_names, filterMap_map]
  refine filterMap_congr fun n hn => ?_
  obtain ⟨row, hrow, hnames⟩ := hp.mem_resultOrder.mp hn
  have hinj : ∀ a ∈ results, ∀ b ∈ results, encodeSemanticKey a = encodeSemanticKey b → a = b :=
    fun a ha b hb => encodeSemanticKey_inj (hadm.results_valid a ha) (hadm.results_valid b hb)
  rw [Function.comp, nameOf_eq hnames, (find?_eq_some_of_inj hinj).mpr ⟨hrow, rfl⟩]
  exact ((hp.indexes.result n row).mpr ⟨hrow, hnames⟩).symm

theorem Prepares.emit_ok {em : (ℕ × AnalysisFact) × List (WitnessOrder × WitnessEdge)}
    (hrow : p.index.resultRows n = some row) (h : p.emit sha256 n = .ok em) :
    ∃ step, chosenStep roots edges (encodeSemanticKey row) = some step ∧
      em.1 = (p.index.rows.rank n, factOf sha256 row) ∧
        em.2.map (·.2) = stepEdges roots results row step ∧
          em.2.Pairwise (fun a b => a.1 ≤ b.1) ∧
            ∀ w ∈ em.2, (ofLex w.1).1 = p.index.rows.rank n := by
  cases hstep : chosenStep roots edges (encodeSemanticKey row) with
  | none =>
    rw [hp.emit_none hrow hstep] at h
    cases h
  | some step =>
    obtain ⟨wes, hemit, hrest⟩ := hp.emit_some sha256 hadm hrow hstep
    rw [h] at hemit
    obtain rfl := Except.ok.inj hemit
    exact ⟨step, rfl, rfl, hrest⟩

/-- What a run of emissions publishes. -/
theorem Prepares.emitted {order : List ℕ}
    {emitted : List ((ℕ × AnalysisFact) × List (WitnessOrder × WitnessEdge))}
    (h : List.Forall₂ (fun n em => p.emit sha256 n = .ok em) order emitted)
    (hrows : ∀ n ∈ order, ∃ row, p.index.resultRows n = some row) :
    emitted.map (·.1.2) = (order.filterMap p.index.resultRows).map (factOf sha256) ∧
      emitted.map (·.1.1) = order.map p.index.rows.rank ∧
        (emitted.flatMap (·.2)).map (·.2) =
          ((order.filterMap p.index.resultRows).filterMap fun row =>
            (chosenStep roots edges (encodeSemanticKey row)).map (row, ·)).flatMap
              (fun c => stepEdges roots results c.1 c.2) ∧
            ∀ em ∈ emitted, em.2.Pairwise (fun a b => a.1 ≤ b.1) ∧
              ∀ w ∈ em.2, (ofLex w.1).1 = em.1.1 := by
  induction h with
  | nil => simp
  | @cons n em order emitted hemit _ ih =>
    obtain ⟨hfacts, hranks, hedges, hsorted⟩ := ih fun m hm => hrows m (mem_cons_of_mem _ hm)
    obtain ⟨row, hrow⟩ := hrows n mem_cons_self
    obtain ⟨step, hstep, hfact, hwit, hpair, hrank⟩ := hp.emit_ok hadm hrow hemit
    refine ⟨?_, ?_, ?_, ?_⟩
    · rw [map_cons, hfacts, filterMap_cons_some hrow, map_cons, hfact]
    · rw [map_cons, hranks, map_cons, hfact]
    · rw [flatMap_cons, map_append, hedges, hwit, filterMap_cons_some hrow,
        filterMap_cons_some (by rw [hstep]; rfl), flatMap_cons]
    · intro em' hem'
      rcases mem_cons.mp hem' with rfl | hem'
      · rw [hfact]
        exact ⟨hpair, hrank⟩
      · exact hsorted em' hem'

omit hadm in
theorem Prepares.resultOrder_rows (hn : n ∈ p.resultOrder) :
    ∃ row ∈ results, p.index.resultRows n = some row := by
  obtain ⟨row, hrow, hnames⟩ := hp.mem_resultOrder.mp hn
  exact ⟨row, hrow, (hp.indexes.result n row).mpr ⟨hrow, hnames⟩⟩

variable (sha256) in
/-- The selection succeeds when every result has a step. -/
theorem Prepares.select_isOk : (∃ s, p.select sha256 = .ok s) ↔
    ∀ row ∈ results, (chosenStep roots edges (encodeSemanticKey row)).isSome := by
  rw [hp.select_eq hadm]
  constructor
  · rintro ⟨s, hs⟩ row hrow
    obtain ⟨emitted, hemitted, -⟩ := bind_eq_ok.mp hs
    have hnames := Interner.names_of_mem (hp.indexes.result_key hrow)
    obtain ⟨em, -, hem⟩ := forall_of_mapM hemitted _ (hp.mem_resultOrder.mpr ⟨row, hrow, hnames⟩)
    obtain ⟨step, hstep, -⟩ := hp.emit_ok hadm ((hp.indexes.result _ row).mpr ⟨hrow, hnames⟩) hem
    rw [hstep]
    rfl
  · intro hall
    have hemits : ∀ n ∈ p.resultOrder, ∃ em, p.emit sha256 n = .ok em := by
      intro n hn
      obtain ⟨row, hrow, hsome⟩ := hp.resultOrder_rows hn
      obtain ⟨step, hstep⟩ := Option.isSome_iff_exists.mp (hall row hrow)
      obtain ⟨wes, hemit, -⟩ := hp.emit_some sha256 hadm hsome hstep
      exact ⟨_, hemit⟩
    obtain ⟨emitted, hemitted⟩ := mapM_isOk _ _ hemits
    exact ⟨_, bind_eq_ok.mpr ⟨emitted, hemitted, rfl⟩⟩

/-- A selection is already in the order it is sorted into. -/
theorem Prepares.select_published {s : Selection} (h : p.select sha256 = .ok s) :
    sortByKeys s.facts = publishedFacts results sha256 ∧
      sortByKeys s.witnesses = publishedEdges roots results edges := by
  rw [hp.select_eq hadm] at h
  obtain ⟨emitted, hemitted, hs⟩ := bind_eq_ok.mp h
  obtain rfl := pure_eq_ok.mp hs
  obtain ⟨hfacts, hranks, hedges, hsorted⟩ := hp.emitted hadm (mapM_eq_ok.mp hemitted)
    fun n hn => (hp.resultOrder_rows hn).imp fun row hrow => hrow.2
  have hlt : emitted.Pairwise fun a b => a.1.1 < b.1.1 := by
    have hpair : (emitted.map (·.1.1)).Pairwise (· < ·) := by
      rw [hranks, pairwise_map]
      refine hp.resultOrder_sorted.imp_of_mem fun {a b} ha hb hab => ?_
      obtain ⟨row, -, hrow⟩ := hp.mem_resultOrder.mp ha
      obtain ⟨row', -, hrow'⟩ := hp.mem_resultOrder.mp hb
      rw [nameOf_eq hrow, nameOf_eq hrow'] at hab
      exact (Interner.rank_lt_iff hrow hrow').mpr hab
    exact pairwise_map.mp hpair
  constructor
  · rw [sortByKeys_of_sorted (pairwise_map.mpr (hlt.imp le_of_lt)), map_map,
      publishedFacts, hp.sortedResults_eq hadm, ← hfacts]
    rfl
  · have hpair : (emitted.flatMap (·.2)).Pairwise fun a b => a.1 ≤ b.1 := by
      refine pairwise_flatMap.mpr ⟨fun em hem => (hsorted em hem).1, ?_⟩
      refine hlt.imp_of_mem fun {a b} ha hb hab w hw w' hw' => ?_
      refine (Prod.Lex.lt_iff.mpr (.inl ?_)).le
      rw [(hsorted a ha).2 w hw, (hsorted b hb).2 w' hw']
      exact hab
    rw [sortByKeys_of_sorted hpair, hedges, publishedEdges, chosenSteps, hp.sortedResults_eq hadm]

end Emit

/-- When canonicalization succeeds, and with what. -/
theorem canonicalize_eq_ok {sha256 : String → String} {request : CanonicalizationRequest}
    {c : CanonicalizedResult} : canonicalize sha256 request = .ok c ↔
    ∃ raw, request.evaluation = some raw ∧
      let roots := rootRowsOf (request.localRoots ++ request.successorRoots)
      let facts := publishedFacts raw.results sha256
      let witnesses := publishedEdges roots raw.results raw.witnesses
      let hashes := computeCanonicalResultHashes sha256 facts witnesses
      Admissible roots raw.results raw.witnesses ∧
        (∀ row ∈ raw.results,
          (chosenStep roots raw.witnesses (encodeSemanticKey row)).isSome) ∧
          c = ⟨facts, witnesses, hashes.fixpointHash, hashes.externalHash, raw.diagnostics⟩ := by
  obtain ⟨locals, successors, evaluation⟩ := request
  cases evaluation with
  | none => simp [canonicalize]
  | some raw =>
    simp only [Option.some.injEq, exists_eq_left']
    constructor
    · intro h
      obtain ⟨p, hprep, h⟩ := bind_eq_ok.mp h
      obtain ⟨s, hs, h⟩ := bind_eq_ok.mp h
      obtain ⟨hadm, hp⟩ := prepare_spec hprep
      obtain ⟨hfacts, hwit⟩ := hp.select_published hadm hs
      refine ⟨hadm, (hp.select_isOk sha256 hadm).mp ⟨s, hs⟩, ?_⟩
      rw [← hfacts, ← hwit]
      exact (pure_eq_ok.mp h).symm
    · rintro ⟨hadm, hall, rfl⟩
      obtain ⟨p, hprep⟩ := prepare_isOk hadm
      obtain ⟨-, hp⟩ := prepare_spec hprep
      obtain ⟨s, hs⟩ := (hp.select_isOk sha256 hadm).mpr hall
      obtain ⟨hfacts, hwit⟩ := hp.select_published hadm hs
      rw [← hfacts, ← hwit]
      refine bind_eq_ok.mpr ⟨p, hprep, bind_eq_ok.mpr ⟨s, hs, ?_⟩⟩
      exact pure_eq_ok.mpr rfl

/-- Once the checks pass, only results without a chosen step are in the way. -/
theorem canonicalize_isOk_iff {sha256 : String → String} {locals successors : List RootedInputFact}
    {raw : RawWpaEvaluation}
    (hadm : Admissible (rootRowsOf (locals ++ successors)) raw.results raw.witnesses) :
    (∃ c, canonicalize sha256 ⟨locals, successors, some raw⟩ = .ok c) ↔ ∀ row ∈ raw.results,
      (chosenStep (rootRowsOf (locals ++ successors)) raw.witnesses
        (encodeSemanticKey row)).isSome := by
  constructor
  · rintro ⟨c, hc⟩
    obtain ⟨raw', hraw, -, hall, -⟩ := canonicalize_eq_ok.mp hc
    obtain rfl := Option.some.inj hraw
    exact hall
  · intro hall
    exact ⟨_, canonicalize_eq_ok.mpr ⟨raw, rfl, hadm, hall, rfl⟩⟩

end Veritas

import Veritas.Facts.Acceptance

/-! The canonical result and its hashes do not depend on the order a producer emits in. -/
namespace Veritas

open Ordered List

/-- Edges by result, rule, ordinal and input. -/
def WitnessEdge.orderKey (edge : WitnessEdge) : String ×ₗ String ×ₗ ℕ ×ₗ String :=
  toLex (encodeSemanticKey edge.result, toLex (edge.ruleId,
    toLex (edge.inputOrdinal, encodeSemanticKey edge.input)))

/-- The fields of one edge, as they are hashed. -/
def orderKeyFields (k : String ×ₗ String ×ₗ ℕ ×ₗ String) : List String :=
  [(ofLex k).1, (ofLex (ofLex k).2).1, (ofLex (ofLex (ofLex k).2).2).2,
    (ofLex (ofLex (ofLex k).2).2).1.repr]

theorem mem_internAll {keys : List String} {k : String} : k ∈ (internAll keys).keys ↔ k ∈ keys := by
  have hfold : ∀ (t : Interner String),
      k ∈ (keys.foldl (fun t k => (t.intern k).1) t).keys ↔ k ∈ t.keys ∨ k ∈ keys := by
    induction keys with
    | nil => simp
    | cons first keys ih =>
      intro t
      rw [foldl_cons, ih, (t.intern_names first).2.2, mem_cons, or_assoc]
  rw [internAll, hfold]
  simp [Interner.empty]

section Ranks

variable {keys : List String} {k k' : String}

theorem rankOf_names (h : k ∈ keys) : ∃ i, (internAll keys).Names i k ∧
    rankOf (internAll keys) k = (internAll keys).rank i := by
  have hnames := Interner.names_of_mem (mem_internAll.mpr h)
  refine ⟨_, hnames, ?_⟩
  rw [rankOf, Interner.find_eq_some.mpr hnames]
  rfl

theorem keyOfRank_rankOf (h : k ∈ keys) :
    keyOfRank (internAll keys) (rankOf (internAll keys) k) = k := by
  obtain ⟨i, hnames, hrank⟩ := rankOf_names h
  rw [hrank]
  exact (keyOfRank_rank (mem_idsOf hnames)).trans (nameOf_eq hnames)

theorem rankOf_le_iff (h : k ∈ keys) (h' : k' ∈ keys) :
    rankOf (internAll keys) k ≤ rankOf (internAll keys) k' ↔ k ≤ k' := by
  obtain ⟨i, hnames, hrank⟩ := rankOf_names h
  obtain ⟨i', hnames', hrank'⟩ := rankOf_names h'
  rw [hrank, hrank', Interner.rank_le_iff hnames hnames']

theorem rankOf_lt_iff (h : k ∈ keys) (h' : k' ∈ keys) :
    rankOf (internAll keys) k < rankOf (internAll keys) k' ↔ k < k' := by
  rw [← not_le, ← not_le, rankOf_le_iff h' h]

theorem rankOf_eq_iff (h : k ∈ keys) (h' : k' ∈ keys) :
    rankOf (internAll keys) k = rankOf (internAll keys) k' ↔ k = k' := by
  rw [le_antisymm_iff, le_antisymm_iff, rankOf_le_iff h h', rankOf_le_iff h' h]

end Ranks

section Hashes

variable {sha256 : String → String} {facts : List AnalysisFact} {witnesses : List WitnessEdge}

/-- An edge order over ranks, read back as keys. -/
def readBack (rows labels : Interner String) (w : WitnessOrder) : String ×ₗ String ×ₗ ℕ ×ₗ String :=
  toLex (keyOfRank rows (ofLex w).1, toLex (keyOfRank labels (ofLex (ofLex w).2).1,
    toLex ((ofLex (ofLex (ofLex w).2).2).1, keyOfRank rows (ofLex (ofLex (ofLex w).2).2).2)))

/-- Sorting ranks and reading keys back is sorting keys. -/
theorem map_keyOfRank_sort {keys l : List String} (h : ∀ k ∈ l, k ∈ keys) :
    ((l.map (rankOf (internAll keys))).insertionSort (· ≤ ·)).map (keyOfRank (internAll keys)) =
      l.insertionSort (· ≤ ·) := by
  have hsort := map_decode_sort (l := l) (f := keyOfRank (internAll keys))
    (fun k hk => keyOfRank_rankOf (h k hk)) fun k hk k' hk' => rankOf_le_iff (h k hk) (h k' hk')
  rwa [map_id'] at hsort

theorem map_readBack_sort {keys labels : List String}
    (hrows : ∀ e ∈ witnesses, encodeSemanticKey e.result ∈ keys ∧ encodeSemanticKey e.input ∈ keys)
    (hlabels : ∀ e ∈ witnesses, e.ruleId ∈ labels) :
    ((witnesses.map fun edge => witnessOrder (rankOf (internAll keys)
        (encodeSemanticKey edge.result)) (rankOf (internAll labels) edge.ruleId) edge.inputOrdinal
          (rankOf (internAll keys) (encodeSemanticKey edge.input))).insertionSort (· ≤ ·)).map
        (readBack (internAll keys) (internAll labels)) =
      (witnesses.map (·.orderKey)).insertionSort (· ≤ ·) := by
  refine map_decode_sort ?_ ?_
  · intro e he
    simp only [readBack, witnessOrder, ofLex_toLex, keyOfRank_rankOf (hrows e he).1,
      keyOfRank_rankOf (hrows e he).2, keyOfRank_rankOf (hlabels e he), WitnessEdge.orderKey]
  · intro e he e' he'
    simp only [witnessOrder, WitnessEdge.orderKey, Prod.Lex.toLex_le_toLex,
      rankOf_lt_iff (hrows e he).1 (hrows e' he').1, rankOf_eq_iff (hrows e he).1 (hrows e' he').1,
      rankOf_lt_iff (hlabels e he) (hlabels e' he'), rankOf_eq_iff (hlabels e he) (hlabels e' he'),
      rankOf_le_iff (hrows e he).2 (hrows e' he').2]

theorem computeCanonicalResultHashes_eq : computeCanonicalResultHashes sha256 facts witnesses =
    let externalHash := sha256 (appendFields ("veritas.wpa.external.v1" ::
      (facts.map (encodeSemanticKey ·.row)).insertionSort (· ≤ ·)))
    ⟨sha256 (appendFields ("veritas.wpa.fixpoint.v1" :: externalHash ::
      ((witnesses.map (·.orderKey)).insertionSort (· ≤ ·)).flatMap orderKeyFields)),
      externalHash⟩ := by
  generalize hkeys : facts.map (encodeSemanticKey ·.row) ++ witnesses.flatMap (fun edge =>
    [encodeSemanticKey edge.result, encodeSemanticKey edge.input]) = keys
  have hfact : ∀ k ∈ facts.map (encodeSemanticKey ·.row), k ∈ keys := by
    intro k hk
    rw [← hkeys]
    exact mem_append_left _ hk
  have hedge : ∀ e ∈ witnesses,
      encodeSemanticKey e.result ∈ keys ∧ encodeSemanticKey e.input ∈ keys := by
    intro e he
    have hmem : ∀ k ∈ [encodeSemanticKey e.result, encodeSemanticKey e.input], k ∈ keys := by
      intro k hk
      rw [← hkeys]
      exact mem_append_right _ (mem_flatMap.mpr ⟨e, he, hk⟩)
    exact ⟨hmem _ (by simp), hmem _ (by simp)⟩
  have hlabel : ∀ e ∈ witnesses, e.ruleId ∈ witnesses.map (·.ruleId) :=
    fun e he => mem_map_of_mem he
  rw [← map_readBack_sort hedge hlabel, ← map_keyOfRank_sort hfact, flatMap_map, map_map,
    computeCanonicalResultHashes, hkeys]
  rfl

theorem computeCanonicalResultHashes_perm {facts' : List AnalysisFact}
    {witnesses' : List WitnessEdge} (hfacts : facts'.Perm facts)
    (hwitnesses : witnesses'.Perm witnesses) :
    computeCanonicalResultHashes sha256 facts' witnesses' =
      computeCanonicalResultHashes sha256 facts witnesses := by
  rw [computeCanonicalResultHashes_eq, computeCanonicalResultHashes_eq,
    insertionSort_congr (hfacts.map _), insertionSort_congr (hwitnesses.map _)]

end Hashes

/-- Requests that list the same roots, results and edges, in any order and number. -/
structure CanonicalizationRequest.SameEntries (a b : CanonicalizationRequest) : Prop where
  localRoots : ∀ root, root ∈ a.localRoots ↔ root ∈ b.localRoots
  successorRoots : ∀ root, root ∈ a.successorRoots ↔ root ∈ b.successorRoots
  evaluation : Option.Rel (fun x y => (∀ row, row ∈ x.results ↔ row ∈ y.results) ∧
    ∀ edge, edge ∈ x.witnesses ↔ edge ∈ y.witnesses) a.evaluation b.evaluation

section Congr

variable {roots roots' results results' : List SemanticRow} {edges edges' : List WitnessEdge}
  (hroots : ∀ row, row ∈ roots ↔ row ∈ roots')
  (hresults : ∀ row, row ∈ results ↔ row ∈ results')
  (hedges : ∀ edge, edge ∈ edges ↔ edge ∈ edges')

theorem mem_map_congr {α β : Type} {l l' : List α} (f : α → β) (h : ∀ a, a ∈ l ↔ a ∈ l') (b : β) :
    b ∈ l.map f ↔ b ∈ l'.map f := by
  simp only [mem_map, h]

include hedges in
theorem proofSteps_congr : proofSteps edges = proofSteps edges' := by
  have hstep : proofStep edges = proofStep edges' := by
    funext firing
    have hfilter : ∀ e, e ∈ edges.filter (·.firing = firing) ↔
        e ∈ edges'.filter (·.firing = firing) := by
      simp only [mem_filter, hedges, implies_true]
    rw [proofStep, proofStep, sortUnique_congr (mem_map_congr _ hfilter)]
  rw [proofSteps, proofSteps, hstep, sortUnique_congr (mem_map_congr _ hedges)]

include hroots hedges in
theorem chosenStep_congr : chosenStep roots edges = chosenStep roots' edges' := by
  have hroot : isRootKey roots = isRootKey roots' := by
    funext k
    simp only [isRootKey, mem_map_congr encodeSemanticKey hroots k]
  have hcosts : stepCosts roots edges = stepCosts roots' edges' := by
    rw [stepCosts, stepCosts, hroot, proofSteps_congr hedges]
  funext k
  rw [chosenStep, chosenStep, hcosts, proofSteps_congr hedges]

include hroots hresults hedges in
theorem Admissible.congr (h : Admissible roots results edges) :
    Admissible roots' results' edges' := by
  have hrows : ∀ row, row ∈ roots ++ results ↔ row ∈ roots' ++ results' := by
    simp only [mem_append, hroots, hresults, implies_true]
  refine ⟨?_, ?_, ?_, ?_, ?_, ?_, ?_, ?_⟩
  · exact fun row hrow => h.roots_valid row ((hroots row).mpr hrow)
  · exact fun row hrow => h.results_valid row ((hresults row).mpr hrow)
  · exact fun e he => (mem_map_congr _ hresults _).mp (h.published e ((hedges e).mpr he))
  · exact fun e he => h.rule e ((hedges e).mpr he)
  · exact fun e he => h.input_valid e ((hedges e).mpr he)
  · exact fun e he => (mem_map_congr _ hrows _).mp (h.cited e ((hedges e).mpr he))
  · exact fun e he e' he' => h.functional e ((hedges e).mpr he) e' ((hedges e').mpr he')
  · intro e he rule hrule n
    rw [← h.arity e ((hedges e).mpr he) rule hrule n]
    simp only [hedges]

include hroots hresults hedges in
theorem published_congr (h : Admissible roots results edges) (sha256 : String → String) :
    publishedFacts results sha256 = publishedFacts results' sha256 ∧
      publishedEdges roots results edges = publishedEdges roots' results' edges' := by
  have h' := h.congr hroots hresults hedges
  have hrow : rowOfKey roots results = rowOfKey roots' results' := by
    funext k
    refine Option.ext fun row => ?_
    rw [h.rowOfKey_eq_some, h'.rowOfKey_eq_some, mem_append, mem_append, hroots, hresults]
  have hsorted : sortedResults results = sortedResults results' := by
    have hfind : ∀ k, results.find? (encodeSemanticKey · = k) =
        results'.find? (encodeSemanticKey · = k) := by
      intro k
      refine Option.ext fun row => ?_
      rw [find?_eq_some_of_inj fun a ha b hb => encodeSemanticKey_inj (h.results_valid a ha)
        (h.results_valid b hb), find?_eq_some_of_inj fun a ha b hb => encodeSemanticKey_inj
          (h'.results_valid a ha) (h'.results_valid b hb), hresults]
    simp only [sortedResults, sortUnique_congr (mem_map_congr _ hresults), hfind]
  have hedge : stepEdges roots results = stepEdges roots' results' := by
    funext row step
    simp only [stepEdges, hrow]
  have hchosen : chosenSteps roots results edges = chosenSteps roots' results' edges' := by
    simp only [chosenSteps, hsorted, chosenStep_congr hroots hedges]
  constructor
  · rw [publishedFacts, publishedFacts, hsorted]
  · rw [publishedEdges, publishedEdges, hedge, hchosen]

end Congr

/-- What a result publishes: everything but the diagnostics. -/
def CanonicalizedResult.published (c : CanonicalizedResult) :
    List AnalysisFact × List WitnessEdge × CanonicalResultHashes :=
  (c.facts, c.witnesses, ⟨c.fixpointHash, c.externalHash⟩)

theorem canonicalize_same {sha256 : String → String} {a b : CanonicalizationRequest}
    (h : a.SameEntries b) {c : CanonicalizedResult} (hc : canonicalize sha256 a = .ok c) :
    ∃ c', canonicalize sha256 b = .ok c' ∧ c'.published = c.published := by
  obtain ⟨raw, hraw, hadm, hall, rfl⟩ := canonicalize_eq_ok.mp hc
  obtain ⟨hlocal, hsucc, heval⟩ := h
  rw [hraw] at heval
  cases hraw' : b.evaluation with
  | none =>
    rw [hraw'] at heval
    cases heval
  | some raw' =>
    rw [hraw'] at heval
    cases heval with
    | some hsame =>
      obtain ⟨hresults, hedges⟩ := hsame
      have hroots : ∀ row, row ∈ rootRowsOf (a.localRoots ++ a.successorRoots) ↔
          row ∈ rootRowsOf (b.localRoots ++ b.successorRoots) := by
        refine mem_map_congr _ fun root => ?_
        rw [mem_append, mem_append, hlocal, hsucc]
      obtain ⟨hfacts, hwitnesses⟩ := published_congr hroots hresults hedges hadm sha256
      refine ⟨_, canonicalize_eq_ok.mpr ⟨raw', hraw', hadm.congr hroots hresults hedges, ?_, rfl⟩,
        ?_⟩
      · intro row hrow
        rw [← chosenStep_congr hroots hedges]
        exact hall row ((hresults row).mpr hrow)
      · rw [CanonicalizedResult.published, CanonicalizedResult.published, hfacts, hwitnesses]

theorem CanonicalizationRequest.SameEntries.symm {a b : CanonicalizationRequest}
    (h : a.SameEntries b) : b.SameEntries a := by
  cases a
  cases b
  obtain ⟨hlocal, hsucc, heval⟩ := h
  refine ⟨fun root => (hlocal root).symm, fun root => (hsucc root).symm, ?_⟩
  cases heval with
  | none => exact .none
  | some hsame => exact .some ⟨fun row => (hsame.1 row).symm, fun edge => (hsame.2 edge).symm⟩

/-- Requests with the same entries fail together or publish the same, and the stored hashes are
those of the published facts and witnesses in any order. -/
theorem canonicalize_order_independent (sha256 : String → String) {a b : CanonicalizationRequest}
    (h : a.SameEntries b) :
    (canonicalize sha256 a).toOption.map (·.published) =
        (canonicalize sha256 b).toOption.map (·.published) ∧
      ∀ c, canonicalize sha256 a = .ok c → ∀ facts witnesses, facts.Perm c.facts →
        witnesses.Perm c.witnesses → computeCanonicalResultHashes sha256 facts witnesses =
          ⟨c.fixpointHash, c.externalHash⟩ := by
  constructor
  · cases ha : canonicalize sha256 a with
    | ok c =>
      obtain ⟨c', hc', hsame⟩ := canonicalize_same h ha
      rw [hc']
      exact congrArg some hsame.symm
    | error e =>
      cases hb : canonicalize sha256 b with
      | error e' => rfl
      | ok c' =>
        obtain ⟨c, hc, -⟩ := canonicalize_same h.symm hb
        rw [ha] at hc
        cases hc
  · intro c hc facts witnesses hfacts hwitnesses
    rw [computeCanonicalResultHashes_perm hfacts hwitnesses]
    obtain ⟨raw, -, -, -, rfl⟩ := canonicalize_eq_ok.mp hc
    rfl

/-- The root twice, results and edges backwards: what is published stays. -/
theorem canonicalize_copyLevel_reversed :
    let raw := towerRaw 1 (copyLevel 1) 2
    let a : CanonicalizationRequest := ⟨[towerRoot], [], some raw⟩
    let b : CanonicalizationRequest := ⟨[towerRoot, towerRoot], [],
      some ⟨raw.results.reverse, raw.witnesses.reverse, []⟩⟩
    a.SameEntries b ∧ (canonicalize id a).toOption.map (·.published) =
      (canonicalize id b).toOption.map (·.published) := by
  intro raw a b
  have hsame : a.SameEntries b := by
    refine ⟨fun root => ?_, fun root => Iff.rfl, .some ⟨fun row => ?_, fun edge => ?_⟩⟩
    · change root ∈ [towerRoot] ↔ root ∈ [towerRoot, towerRoot]
      simp
    · exact mem_reverse.symm
    · exact mem_reverse.symm
  exact ⟨hsame, (canonicalize_order_independent id hsame).1⟩

end Veritas

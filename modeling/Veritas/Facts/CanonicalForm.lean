import Veritas.Facts.ProofSteps

/-! The canonicalizer over keys: which step proves each result, and what is published. -/
namespace Veritas

open Hypergraph Relaxation Ordered List

section Definitions

variable (roots results : List SemanticRow) (edges : List WitnessEdge)

def isRootKey (k : String) : Bool := k ∈ roots.map encodeSemanticKey

/-- The relaxed cost of each proof step, and of each key. -/
def stepCosts : List UInt64 × (String → UInt64) :=
  relaxList (isRootKey roots) ((proofSteps edges).map (·.edge))

/-- The step selected for a key, if the key has a finite proof. -/
def chosenStep (k : String) : Option ProofStep :=
  if (stepCosts roots edges).2 k = unproven then none
  else (selectProof (·.spec.priority)
    (((proofSteps edges).zip (stepCosts roots edges).1).filter (·.1.result = k))).map (·.1)

/-- The distinct results by key. -/
def sortedResults : List SemanticRow :=
  (sortUnique (results.map encodeSemanticKey)).filterMap fun k =>
    results.find? (encodeSemanticKey · = k)

def rowOfKey (k : String) : Option SemanticRow :=
  (roots ++ results).find? (encodeSemanticKey · = k)

/-- The edges published for a row and its step. -/
def stepEdges (row : SemanticRow) (step : ProofStep) : List WitnessEdge :=
  step.inputs.filterMap fun (ordinal, k) =>
    (rowOfKey roots results k).map fun input => ⟨row, step.spec.id, "", input, ordinal⟩

/-- Every result that has a step, with the step. -/
def chosenSteps : List (SemanticRow × ProofStep) :=
  (sortedResults results).filterMap fun row =>
    (chosenStep roots edges (encodeSemanticKey row)).map (row, ·)

def factOf (sha256 : String → String) (row : SemanticRow) : AnalysisFact :=
  ⟨makeStableId sha256 .fact (writePreimage row), row⟩

def publishedFacts (sha256 : String → String) : List AnalysisFact :=
  (sortedResults results).map (factOf sha256)

def publishedEdges : List WitnessEdge :=
  (chosenSteps roots results edges).flatMap fun c => stepEdges roots results c.1 c.2

end Definitions

section Cursor

variable {p : Prepared} {roots results : List SemanticRow} {edges : List WitnessEdge}
  (hp : Prepares p roots results edges)

/-- The ids of the results, by rank. -/
def Prepared.resultOrder (p : Prepared) : List ℕ :=
  p.index.resultRowIds.insertionSort fun a b => p.index.rows.rank a ≤ p.index.rows.rank b

/-- The derivations with their costs, as the selection reads them. -/
def Prepared.costed (p : Prepared) : List (Derivation ℕ ℕ × UInt64) :=
  p.derivations.zip (relaxDerivations p.index p.derivations).1

include hp

theorem Prepares.mem_resultOrder {id : ℕ} : id ∈ p.resultOrder ↔
    ∃ row ∈ results, p.index.rows.Names id (encodeSemanticKey row) := by
  rw [Prepared.resultOrder, (perm_insertionSort _ _).mem_iff, hp.indexes.ids,
    hp.indexes.result_isSome]
  simp only [mem_map, exists_exists_and_eq_and]

theorem Prepares.resultOrder_names :
    p.resultOrder.map (nameOf p.index.rows) = sortUnique (results.map encodeSemanticKey) := by
  have hids : ∀ id ∈ p.index.resultRowIds, id ∈ idsOf p.index.rows := by
    intro id hid
    rw [hp.indexes.ids, hp.indexes.result_isSome] at hid
    obtain ⟨k, -, hk⟩ := hid
    exact mem_idsOf hk
  have hmap : p.resultOrder.map (nameOf p.index.rows) =
      (p.index.resultRowIds.map (nameOf p.index.rows)).insertionSort (· ≤ ·) := by
    refine map_insertionSort _ _ _ _ fun a ha b hb => ?_
    exact Interner.rank_le_iff (names_nameOf (hids a ha)) (names_nameOf (hids b hb))
  have hnodup : (p.index.resultRowIds.map (nameOf p.index.rows)).Nodup := by
    refine (nodup_map_iff_inj_on hp.indexes.nodup).mpr fun a ha b hb heq => ?_
    exact nameOf_injOn p.index.rows (hids a ha) (hids b hb) heq
  refine eq_of_sortedLT ?_ (sortedLT_ascending _) fun k => ?_
  · rw [hmap]
    exact (pairwise_insertionSort _ _).sortedLE.sortedLT_of_nodup
      ((perm_insertionSort _ _).nodup_iff.mpr hnodup)
  · rw [mem_sortUnique]
    simp only [mem_map, hp.mem_resultOrder]
    constructor
    · rintro ⟨id, ⟨row, hrow, hnames⟩, rfl⟩
      exact ⟨row, hrow, (nameOf_eq hnames).symm⟩
    · rintro ⟨row, hrow, rfl⟩
      have hnames := Interner.names_of_mem (hp.indexes.result_key hrow)
      exact ⟨_, ⟨row, hrow, hnames⟩, nameOf_eq hnames⟩

theorem Prepares.resultOrder_sorted :
    p.resultOrder.Pairwise fun a b => nameOf p.index.rows a < nameOf p.index.rows b := by
  have hsorted := (sortedLT_ascending (results.map encodeSemanticKey).toFinset).pairwise
  have hnames := hp.resultOrder_names
  rw [sortUnique] at hnames
  rw [← hnames] at hsorted
  exact pairwise_map.mp hsorted

/-- Derivations stand in the order of their results' keys. -/
theorem Prepares.derivations_sorted : p.derivations.Pairwise fun a b =>
    nameOf p.index.rows a.result ≤ nameOf p.index.rows b.result := by
  obtain ⟨g, hg⟩ := hp.named
  have hsorted := (sortedLT_ascending (edges.map (·.firing)).toFinset).pairwise
  have hsteps : (proofSteps edges).Pairwise fun a b => a.result ≤ b.result := by
    rw [proofSteps, pairwise_map]
    refine hsorted.imp fun {t t'} ht => ?_
    rcases Prod.Lex.lt_iff.mp ht with hlt | ⟨heq, -⟩
    · exact hlt.le
    · exact heq.le
  rw [← hg, pairwise_map] at hsteps
  exact hsteps

omit hp in
theorem Prepared.costed_fst (p : Prepared) : p.costed.map (·.1) = p.derivations := by
  refine map_fst_zip (le_of_eq ?_)
  rw [relaxDerivations, length_relaxList, length_map]

theorem Prepares.costed_sorted : p.costed.Pairwise fun a b =>
    nameOf p.index.rows a.1.result ≤ nameOf p.index.rows b.1.result := by
  have hsorted := hp.derivations_sorted
  rw [← p.costed_fst, pairwise_map] at hsorted
  exact hsorted

omit hp in
theorem Prepared.mem_costed {q : Derivation ℕ ℕ × UInt64} (h : q ∈ p.costed) :
    q.1 ∈ p.derivations := by
  rw [← p.costed_fst]
  exact mem_map_of_mem h

/-- Every derivation proves a published result. -/
theorem Prepares.result_mem (hadm : Admissible roots results edges) {d : Derivation ℕ ℕ}
    (hd : d ∈ p.derivations) : d.result ∈ p.resultOrder := by
  obtain ⟨g, hg⟩ := hp.named
  have hstep : d.map (nameOf p.index.rows) g ∈ proofSteps edges := by
    rw [← hg]
    exact mem_map_of_mem hd
  obtain ⟨t, ht, heq⟩ := mem_map.mp hstep
  rw [mem_sortUnique] at ht
  obtain ⟨e, he, rfl⟩ := mem_map.mp ht
  have hresult : encodeSemanticKey e.result = nameOf p.index.rows d.result :=
    congrArg Derivation.result heq
  obtain ⟨row, hrow, hkey⟩ := mem_map.mp (hadm.published e he)
  refine hp.mem_resultOrder.mpr ⟨row, hrow, ?_⟩
  rw [hkey, hresult]
  exact names_nameOf (hp.rows d hd).1

/-- The run at the cursor holds all derivations of its result. -/
theorem Prepares.cursor (hadm : Admissible roots results edges) {pre post : List ℕ} {id : ℕ}
    (hsplit : p.resultOrder = pre ++ id :: post) :
    let remaining := p.costed.filter (·.1.result ∉ pre)
    remaining.takeWhile (·.1.result = id) = p.costed.filter (·.1.result = id) ∧
      remaining.dropWhile (·.1.result = id) = p.costed.filter (·.1.result ∉ pre ++ [id]) := by
  intro remaining
  have hsorted := hp.resultOrder_sorted
  rw [hsplit, pairwise_append, pairwise_cons] at hsorted
  obtain ⟨-, ⟨hpost, -⟩, hpre⟩ := hsorted
  have hid : id ∈ idsOf p.index.rows := by
    obtain ⟨row, -, hnames⟩ := hp.mem_resultOrder.mp (by rw [hsplit]; simp : id ∈ p.resultOrder)
    exact mem_idsOf hnames
  have hge : ∀ q ∈ remaining, nameOf p.index.rows id ≤ nameOf p.index.rows q.1.result := by
    intro q hq
    obtain ⟨hmem, hnot⟩ := mem_filter.mp hq
    have hres := hp.result_mem hadm (Prepared.mem_costed hmem)
    rw [hsplit, mem_append, mem_cons] at hres
    rcases hres with hres | hres | hres
    · exact absurd hres (of_decide_eq_true hnot)
    · rw [hres]
    · exact (hpost _ hres).le
  have hcut : remaining.Pairwise fun a b =>
      decide (b.1.result = id) = true → decide (a.1.result = id) = true := by
    refine List.Pairwise.imp_of_mem ?_ (hp.costed_sorted.sublist filter_sublist)
    intro a b ha hb hab hbid
    have hbid := of_decide_eq_true hbid
    rw [hbid] at hab
    have ha' := (hp.rows _ (Prepared.mem_costed (mem_filter.mp ha).1)).1
    exact decide_eq_true (nameOf_injOn _ ha' hid (le_antisymm hab (hge a ha)))
  obtain ⟨htake, hdrop⟩ := takeWhile_eq_filter hcut
  rw [htake, hdrop, filter_filter, filter_filter]
  constructor
  · refine filter_congr fun q _ => ?_
    by_cases hq : q.1.result = id
    · have hnot : id ∉ pre := fun hmem => lt_irrefl _ (hpre id hmem id mem_cons_self)
      simp [hq, hnot]
    · simp [hq]
  · refine filter_congr fun q _ => ?_
    by_cases hq : q.1.result = id <;> simp [hq]

end Cursor

theorem selectProof_map {δ δ' : Type} {f : δ → δ'} {priority : δ → ℕ} {priority' : δ' → ℕ}
    (h : ∀ d, priority' (f d) = priority d) (run : List (δ × UInt64)) :
    selectProof priority' (run.map (Prod.map f id)) =
      (selectProof priority run).map (Prod.map f id) := by
  have hstep : ∀ selected d, keepBetter priority' (selected.map (Prod.map f id))
      (Prod.map f id d) = (keepBetter priority selected d).map (Prod.map f id) := by
    intro selected d
    unfold keepBetter
    by_cases hd : d.2 = unproven
    · simp [hd]
    · cases selected with
      | none => simp [hd]
      | some s =>
        simp only [Option.map_some, Prod.map_fst, Prod.map_snd, id_eq, hd, if_false, h]
        split_ifs <;> rfl
  have hfold : ∀ selected, (run.map (Prod.map f id)).foldl (keepBetter priority')
      (selected.map (Prod.map f id)) =
        (run.foldl (keepBetter priority) selected).map (Prod.map f id) := by
    induction run with
    | nil => intro selected; rfl
    | cons d run ih =>
      intro selected
      rw [map_cons, foldl_cons, foldl_cons, hstep, ih]
  exact hfold none

/-- What the selection minimises, the order of the run apart. -/
def proofRank {δ : Type} (priority : δ → ℕ) (q : δ × UInt64) : ℕ ×ₗ ℕ :=
  toLex (q.2.toNat, priority q.1)

variable {δ : Type}

theorem proofRank_lt_iff {priority : δ → ℕ} {d s : δ × UInt64} :
    proofRank priority d < proofRank priority s ↔
      d.2 < s.2 ∨ (d.2 = s.2 ∧ priority d.1 < priority s.1) := by
  rw [proofRank, proofRank, Prod.Lex.toLex_lt_toLex, UInt64.lt_iff_toNat_lt, UInt64.toNat_inj]

/-- The selected proof is the first of the least ones, in a run that an order sorts. -/
structure Selected {δ : Type} (priority : δ → ℕ) (R : δ × UInt64 → δ × UInt64 → Prop)
    (run : List (δ × UInt64)) (s : δ × UInt64) : Prop where
  mem : s ∈ run
  proven : s.2 ≠ unproven
  least : ∀ q ∈ run, q.2 ≠ unproven → proofRank priority s < proofRank priority q ∨
    (proofRank priority s = proofRank priority q ∧ (s = q ∨ R s q))

variable {run : List (δ × UInt64)}

theorem Selected.cost_le {priority : δ → ℕ} {R : δ × UInt64 → δ × UInt64 → Prop}
    {s q : δ × UInt64} (h : Selected priority R run s) (hq : q ∈ run)
    (hne : q.2 ≠ unproven) : s.2.toNat ≤ q.2.toNat := by
  have hle : proofRank priority s ≤ proofRank priority q := by
    rcases h.least q hq hne with hlt | ⟨heq, -⟩
    · exact hlt.le
    · exact heq.le
  rcases Prod.Lex.toLex_le_toLex.mp hle with hlt | ⟨heq, -⟩
  · exact hlt.le
  · exact heq.le

theorem selectProof_spec (priority : δ → ℕ) {R : δ × UInt64 → δ × UInt64 → Prop}
    (hrun : run.Pairwise R) :
    (selectProof priority run = none → ∀ q ∈ run, q.2 = unproven) ∧
      ∀ s, selectProof priority run = some s → Selected priority R run s := by
  induction run using List.reverseRecOn with
  | nil => simp [selectProof]
  | append_singleton run d ih =>
    obtain ⟨hrun, -, hlast⟩ := pairwise_append.mp hrun
    have hlast : ∀ q ∈ run, R q d := fun q hq => hlast q hq d (mem_singleton_self d)
    obtain ⟨hnone, hsome⟩ := ih hrun
    rw [selectProof, foldl_append, ← selectProof, foldl_cons, foldl_nil]
    unfold keepBetter
    by_cases hd : d.2 = unproven
    · rw [if_pos hd]
      refine ⟨fun h q hq => ?_, fun s hs => ?_⟩
      · rcases mem_append.mp hq with hq | hq
        · exact hnone h q hq
        · rwa [mem_singleton.mp hq]
      · obtain ⟨hmem, hproven, hleast⟩ := hsome s hs
        refine ⟨mem_append_left _ hmem, hproven, fun q hq hne => ?_⟩
        rcases mem_append.mp hq with hq | hq
        · exact hleast q hq hne
        · exact absurd (mem_singleton.mp hq ▸ hd) hne
    · rw [if_neg hd]
      cases hsel : selectProof priority run with
      | none =>
        refine ⟨fun h => by simp at h, fun s hs => ?_⟩
        obtain rfl := Option.some.inj hs
        refine ⟨mem_append_right _ (mem_singleton_self d), hd, fun q hq hne => ?_⟩
        rcases mem_append.mp hq with hq | hq
        · exact absurd (hnone hsel q hq) hne
        · exact .inr ⟨by rw [mem_singleton.mp hq], .inl (mem_singleton.mp hq).symm⟩
      | some s =>
        obtain ⟨hmem, hproven, hleast⟩ := hsome s hsel
        simp only [← proofRank_lt_iff]
        split_ifs with hlt
        · refine ⟨fun h => by simp at h, fun s' hs' => ?_⟩
          obtain rfl := Option.some.inj hs'
          refine ⟨mem_append_right _ (mem_singleton_self d), hd, fun q hq hne => ?_⟩
          rcases mem_append.mp hq with hq | hq
          · rcases hleast q hq hne with hless | ⟨heq, -⟩
            · exact .inl (hlt.trans hless)
            · exact .inl (heq ▸ hlt)
          · exact .inr ⟨by rw [mem_singleton.mp hq], .inl (mem_singleton.mp hq).symm⟩
        · refine ⟨fun h => by simp at h, fun s' hs' => ?_⟩
          obtain rfl := Option.some.inj hs'
          refine ⟨mem_append_left _ hmem, hproven, fun q hq hne => ?_⟩
          rcases mem_append.mp hq with hq | hq
          · exact hleast q hq hne
          · obtain rfl := mem_singleton.mp hq
            rcases lt_or_eq_of_le (not_lt.mp hlt) with hless | heq
            · exact .inl hless
            · exact .inr ⟨heq, .inr (hlast _ hmem)⟩

theorem mem_of_selectProof {priority : δ → ℕ}
    {q : δ × UInt64} (h : selectProof priority run = some q) : q ∈ run :=
  ((selectProof_spec priority (List.pairwise_of_forall fun _ _ => trivial)).2 q h).mem

section Select

variable {sha256 : String → String} {p : Prepared} {roots results : List SemanticRow}
  {edges : List WitnessEdge} (hp : Prepares p roots results edges)
  (hadm : Admissible roots results edges)

/-- One result emitted from all its derivations. -/
def Prepared.emit (sha256 : String → String) (p : Prepared) (id : ℕ) :
    StatusOr ((ℕ × AnalysisFact) × List (WitnessOrder × WitnessEdge)) :=
  emitResult sha256 p.index (relaxDerivations p.index p.derivations).2
    (p.costed.filter (·.1.result = id)) id

include hp hadm

/-- The selection emits result by result. -/
theorem Prepares.select_eq : p.select sha256 = do
    let emitted ← p.resultOrder.mapM (p.emit sha256)
    return ⟨p.costed.filter (·.1.result ∉ p.resultOrder), emitted.map (·.1),
      emitted.flatMap (·.2)⟩ := by
  have hsuffix : ∀ (post pre : List ℕ) (acc : Selection), p.resultOrder = pre ++ post →
      acc.remaining = p.costed.filter (·.1.result ∉ pre) →
      post.foldlM (selectResult sha256 p.index (relaxDerivations p.index p.derivations).2) acc = do
          let emitted ← post.mapM (p.emit sha256)
          return ⟨p.costed.filter (·.1.result ∉ pre ++ post), acc.facts ++ emitted.map (·.1),
            acc.witnesses ++ emitted.flatMap (·.2)⟩ := by
    intro post
    induction post with
    | nil =>
      rintro pre ⟨remaining, facts, witnesses⟩ - hrem
      obtain rfl : remaining = _ := hrem
      simp
    | cons id post ih =>
      intro pre acc hsplit hrem
      obtain ⟨htake, hdrop⟩ := hp.cursor hadm hsplit
      rw [foldlM_cons, mapM_cons, selectResult, hrem, htake, hdrop]
      change (p.emit sha256 id >>= _) >>= _ = _
      cases p.emit sha256 id with
      | error e => rfl
      | ok emitted =>
        change post.foldlM _ _ = _
        rw [ih (pre ++ [id]) _ (by rw [hsplit, append_assoc]; rfl) rfl]
        cases post.mapM (p.emit sha256) with
        | error e => rfl
        | ok rest =>
          simp [bind, Except.bind, pure, Except.pure]
  exact hsuffix p.resultOrder [] ⟨p.costed, [], []⟩ rfl (by simp)

omit hadm in
/-- Costs are the same over ids and over keys. -/
theorem Prepares.costs_named :
    (relaxDerivations p.index p.derivations).1 = (stepCosts roots edges).1 ∧
      ∀ id ∈ idsOf p.index.rows, (relaxDerivations p.index p.derivations).2 id =
        (stepCosts roots edges).2 (nameOf p.index.rows id) := by
  obtain ⟨g, hg⟩ := hp.named
  have hedges : (p.derivations.map (·.edge)).map (Edge.map (nameOf p.index.rows)) =
      (proofSteps edges).map (·.edge) := by
    rw [← hg, map_map, map_map]
    exact map_congr_left fun d _ => (Derivation.edge_map _ _ d).symm
  have hnodes : ∀ e ∈ p.derivations.map (·.edge), e.result ∈ idsOf p.index.rows ∧
      ∀ b ∈ e.inputs, b ∈ idsOf p.index.rows := by
    intro e he
    obtain ⟨d, hd, rfl⟩ := mem_map.mp he
    refine ⟨(hp.rows d hd).1, fun b hb => ?_⟩
    obtain ⟨q, hq, rfl⟩ := mem_map.mp hb
    exact (hp.rows d hd).2 q hq
  have hroot : ∀ id ∈ idsOf p.index.rows, isRootKey roots (nameOf p.index.rows id) =
      (p.index.rootRows id).isSome := by
    intro id hid
    have hnames := names_nameOf hid
    rw [isRootKey, Bool.eq_iff_iff, decide_eq_true_iff, hp.indexes.root_isSome]
    constructor
    · exact fun h => ⟨_, h, hnames⟩
    · rintro ⟨k, hk, hk'⟩
      rwa [hnames.unique hk']
  obtain ⟨hcosts, hcost⟩ := relaxList_map (nameOf_injOn p.index.rows) hnodes hroot
  rw [hedges] at hcosts hcost
  exact ⟨hcosts.symm, fun id hid => (hcost id hid).symm⟩

omit hadm in
/-- The selection for one result is the step chosen for its key. -/
theorem Prepares.selected_named {n : ℕ} (hn : n ∈ idsOf p.index.rows) :
    ∃ g : ℕ → String, (selectProof (·.spec.priority)
        (p.costed.filter (·.1.result = n))).map (fun q => q.1.map (nameOf p.index.rows) g) =
      (selectProof (·.spec.priority) (((proofSteps edges).zip (stepCosts roots edges).1).filter
        (·.1.result = nameOf p.index.rows n))).map (·.1) := by
  obtain ⟨g, hg⟩ := hp.named
  have hzip : (proofSteps edges).zip (stepCosts roots edges).1 =
      p.costed.map (Prod.map (Derivation.map (nameOf p.index.rows) g) id) := by
    rw [← hg, ← hp.costs_named.1, zip_map_left]
    rfl
  have hfilter : ((proofSteps edges).zip (stepCosts roots edges).1).filter
      (·.1.result = nameOf p.index.rows n) = (p.costed.filter (·.1.result = n)).map
          (Prod.map (Derivation.map (nameOf p.index.rows) g) id) := by
    rw [hzip, filter_map]
    congr 1
    refine filter_congr fun q hq => ?_
    have hrow := (hp.rows q.1 (Prepared.mem_costed hq)).1
    have hiff : nameOf p.index.rows q.1.result = nameOf p.index.rows n ↔ q.1.result = n :=
      (nameOf_injOn p.index.rows).eq_iff hrow hn
    simp [Derivation.map, hiff]
  refine ⟨g, ?_⟩
  rw [hfilter, selectProof_map (f := Derivation.map (nameOf p.index.rows) g)
    (fun d : Derivation ℕ ℕ => (rfl : d.spec.priority = d.spec.priority)), Option.map_map]
  rfl

end Select

end Veritas

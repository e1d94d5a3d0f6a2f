import Veritas.Facts.BatchAssembly
import Veritas.Facts.BatchValidation
import Veritas.Facts.ProofForest

/-! Batches merged from canonical component results: closed, with one proof for each fact. -/
namespace Veritas

open Ordered List WpaRunResult

/-- All edges of one use of a registered rule prove the row, one at each ordinal. -/
def OneDerivation (edges : List MachineEdge) (row : MachineRow) : Prop :=
  ∃ rule, findRule rule.id = some rule ∧ 0 < rule.arity ∧
    (∀ e ∈ edges, e.result = row → e.ruleId = rule.id ∧ e.inputOrdinal < rule.arity) ∧
      ∀ n < rule.arity, ∃! e, e ∈ edges ∧ e.result = row ∧ e.inputOrdinal = n

/-- A proof of the row cites the input, and both are results of the component. -/
def ReliesOn (result : WpaComponentResult) (row input : MachineRow) : Prop :=
  ∃ e ∈ result.witnesses, e.result = row ∧ e.input = input ∧ ∃ f ∈ result.facts, f.row = input

/-- The canonical output of an evaluation whose roots are all listed. -/
def CanonicalOutput (sha256 : String → String) (rootIds : List StableId)
    (result : WpaComponentResult) : Prop :=
  ∃ request out, canonicalize sha256 request = .ok out ∧
    result.facts = out.facts.map (·.machine) ∧ result.witnesses = out.witnesses.map (·.machine) ∧
      ∀ root ∈ request.localRoots ++ request.successorRoots,
        ∃ id ∈ rootIds, deriveFactId sha256 root.fact.row = .ok id

/-- Completed components with their own keys, each canonical and free of circular proofs. -/
structure CanonicalFamily (sha256 : String → String) (result : WpaRunResult) : Prop where
  keys : (result.completedComponents.map (·.key)).Nodup
  expected : result.expectedComponents.Perm (result.completedComponents.map (·.key))
  output : ∀ c ∈ result.completedComponents,
    CanonicalOutput sha256 result.rootedInputFactIds c.result
  acyclic : ∀ c ∈ result.completedComponents, ∀ row, ¬ Relation.TransGen (ReliesOn c.result) row row
  /-- No string is longer than a `std::string` can be. -/
  fits : ∀ c ∈ result.completedComponents, (∀ f ∈ c.result.facts, f.row.Fits) ∧
    ∀ e ∈ c.result.witnesses, e.result.Fits ∧ e.input.Fits
  /-- SHA-256 tells the rows of the run apart. -/
  collisionFree : ∀ c ∈ result.completedComponents, ∀ d ∈ result.completedComponents,
    ∀ f ∈ c.result.facts, ∀ g ∈ d.result.facts, f.factId = g.factId → f.row = g.row

/-- No component cites as a root what another component publishes. -/
def RootsApart (result : WpaRunResult) : Prop :=
  ∀ c ∈ result.completedComponents, ∀ e ∈ c.result.witnesses,
    (∀ f ∈ c.result.facts, f.row ≠ e.input) →
      ∀ d ∈ result.completedComponents, ∀ g ∈ d.result.facts, g.row ≠ e.input

/-- The proof of a fact is the one of the first component that has the fact. -/
def ProvenByFirst (result : WpaRunResult) (batch : AnalysisFactBatch) (fact : MachineFact) : Prop :=
  ∃ c ∈ result.completedComponents, fact ∈ c.result.facts ∧
    (∀ d ∈ result.completedComponents, d.key < c.key → fact ∉ d.result.facts) ∧
      ∀ e, e.result = fact.row → (e ∈ batch.witnesses ↔ e ∈ c.result.witnesses)

/-! What canonicalization guarantees of one component. -/

structure ComponentProven (sha256 : String → String) (rootIds : List StableId)
    (result : WpaComponentResult) : Prop where
  derived : ∀ f ∈ result.facts, deriveMachineFactId sha256 f.row = .ok f.factId
  rows : (result.facts.map (·.row)).Nodup
  valid : ∀ e ∈ result.witnesses, validateMachineRow e.input = .ok ()
  proven : ∀ f ∈ result.facts, OneDerivation result.witnesses f.row
  results : ∀ e ∈ result.witnesses, ∃ f ∈ result.facts, f.row = e.result
  inputs : ∀ e ∈ result.witnesses, (∃ f ∈ result.facts, f.row = e.input) ∨
    ∃ id ∈ rootIds, deriveMachineFactId sha256 e.input = .ok id

variable {rootIds : List StableId}

section Canonical

variable {sha256 : String → String} {roots results : List SemanticRow} {edges : List WitnessEdge}

section

variable (hadm : Admissible roots results edges)
include hadm

theorem Admissible.mem_publishedFacts {f : AnalysisFact} :
    f ∈ publishedFacts results sha256 ↔ f.row ∈ results ∧ f = factOf sha256 f.row := by
  rw [publishedFacts, mem_map]
  constructor
  · rintro ⟨row, hrow, rfl⟩
    exact ⟨hadm.mem_sortedResults.mp hrow, rfl⟩
  · rintro ⟨hrow, heq⟩
    exact ⟨f.row, hadm.mem_sortedResults.mpr hrow, heq.symm⟩

/-- Every published fact has the id of its row. -/
theorem Admissible.derived {f : AnalysisFact} (hf : f ∈ publishedFacts results sha256) :
    deriveMachineFactId sha256 f.row.machine = .ok f.factId := by
  obtain ⟨hrow, heq⟩ := hadm.mem_publishedFacts.mp hf
  rw [deriveMachineFactId_machine, deriveFactId, hadm.results_valid _ hrow, heq]
  rfl

theorem Admissible.mem_publishedEdges {e : WitnessEdge} :
    e ∈ publishedEdges roots results edges ↔ e.result ∈ results ∧
      ∃ step, chosenStep roots edges (encodeSemanticKey e.result) = some step ∧
        e ∈ stepEdges roots results e.result step := by
  rw [publishedEdges, mem_flatMap]
  constructor
  · rintro ⟨⟨row, step⟩, hmem, he⟩
    obtain ⟨hrow, hstep⟩ := hadm.mem_chosenSteps.mp hmem
    have hresult : e.result = row := by
      obtain ⟨q, -, input, -, rfl⟩ := mem_stepEdges.mp he
      rfl
    subst hresult
    exact ⟨hrow, step, hstep, he⟩
  · rintro ⟨hrow, step, hstep, he⟩
    exact ⟨(e.result, step), hadm.mem_chosenSteps.mpr ⟨hrow, hstep⟩, he⟩

variable {step : ProofStep}

omit hadm in
theorem mem_of_chosenStep {k : String} (h : chosenStep roots edges k = some step) :
    step ∈ proofSteps edges := by
  obtain ⟨c, hmem, -⟩ := chosenStep_selected h
  exact costed_fst (mem_filter.mp hmem).1

/-- The step of a row is a use of its rule with every ordinal filled. -/
theorem Admissible.step_rule (h : step ∈ proofSteps edges) :
    findRule step.spec.id = some step.spec ∧
      0 < step.spec.arity ∧ ∀ n, n ∈ step.inputs.map (·.1) ↔ n < step.spec.arity := by
  obtain ⟨e, he, rfl, hfind⟩ := hadm.findRule_spec h
  refine ⟨by rw [findRule_id hfind]; exact hfind, findRule_arity_pos hfind, ?_⟩
  intro n
  rw [← hadm.arity e he _ hfind n, mem_map]
  constructor
  · rintro ⟨⟨m, k⟩, hq, rfl⟩
    obtain ⟨e', he', hfire, hord, -⟩ := mem_proofStep_inputs.mp hq
    exact ⟨e', he', hfire, hord⟩
  · rintro ⟨e', he', hfire, hord⟩
    exact ⟨(n, encodeSemanticKey e'.input),
      mem_proofStep_inputs.mpr ⟨e', he', hfire, hord, rfl⟩, rfl⟩

theorem Admissible.oneDerivation {row : SemanticRow}
    (hrow : row ∈ results) (hstep : chosenStep roots edges (encodeSemanticKey row) = some step) :
    OneDerivation ((publishedEdges roots results edges).map (·.machine)) row.machine := by
  have hmem := mem_of_chosenStep hstep
  obtain ⟨hfind, hpos, hords⟩ := hadm.step_rule hmem
  -- the edges with this result are the step's, one for each of its inputs
  have hedge : ∀ e : MachineEdge, (e ∈ (publishedEdges roots results edges).map (·.machine) ∧
      e.result = row.machine) ↔ ∃ d ∈ stepEdges roots results row step, d.machine = e := by
    intro e
    rw [← hadm.filter_publishedEdges hrow hstep, mem_map]
    constructor
    · rintro ⟨⟨d, hd, rfl⟩, hresult⟩
      have hresult : d.result = row := SemanticRow.machine_injective hresult
      exact ⟨d, mem_filter.mpr ⟨hd, decide_eq_true hresult⟩, rfl⟩
    · rintro ⟨d, hd, rfl⟩
      obtain ⟨hd, hresult⟩ := mem_filter.mp hd
      exact ⟨⟨d, hd, rfl⟩, congrArg SemanticRow.machine (of_decide_eq_true hresult)⟩
  have hslots : (stepEdges roots results row step).map
      (fun e => (e.inputOrdinal, encodeSemanticKey e.input)) = step.inputs :=
    hadm.stepEdges_inputs hmem
  have hordinals : (stepEdges roots results row step).map (·.inputOrdinal) =
      step.inputs.map (·.1) := by
    rw [← hslots, map_map]
    rfl
  refine ⟨step.spec, hfind, hpos, ?_, ?_⟩
  · intro e he hresult
    obtain ⟨d, hd, rfl⟩ := (hedge e).mp ⟨he, hresult⟩
    refine ⟨?_, (hords _).mp (hordinals ▸ mem_map_of_mem hd)⟩
    obtain ⟨q, -, input, -, rfl⟩ := mem_stepEdges.mp hd
    rfl
  · intro n hn
    have hslot := (hords n).mpr hn
    rw [← hordinals] at hslot
    obtain ⟨d, hd, hord⟩ := mem_map.mp hslot
    have hd' := (hedge d.machine).mpr ⟨d, hd, rfl⟩
    refine ⟨d.machine, ⟨hd'.1, hd'.2, hord⟩, ?_⟩
    rintro e ⟨he, hresult, hord'⟩
    obtain ⟨d', hd', rfl⟩ := (hedge e).mp ⟨he, hresult⟩
    have hnodup : ((stepEdges roots results row step).map (·.inputOrdinal)).Nodup := by
      rw [hordinals]
      exact (hadm.ascending hmem).nodup
    rw [inj_on_of_nodup_map hnodup hd' hd (hord'.trans hord.symm)]

end

theorem canonicalize_proven {result : WpaComponentResult}
    (h : CanonicalOutput sha256 rootIds result) : ComponentProven sha256 rootIds result := by
  obtain ⟨request, out, hok, hfacts, hedges, hroots⟩ := h
  obtain ⟨raw, -, hadm, hall, rfl⟩ := canonicalize_eq_ok.mp hok
  have hresult : ∀ row ∈ raw.results, ∃ f ∈ result.facts, f.row = row.machine := by
    intro row hrow
    refine ⟨(factOf sha256 row).machine, ?_, rfl⟩
    rw [hfacts]
    exact mem_map_of_mem (hadm.mem_publishedFacts.mpr ⟨hrow, rfl⟩)
  have hinput : ∀ e ∈ publishedEdges (rootRowsOf (request.localRoots ++ request.successorRoots))
      raw.results raw.witnesses, e.input ∈
        rootRowsOf (request.localRoots ++ request.successorRoots) ++ raw.results := by
    intro e he
    obtain ⟨-, step, -, hstep⟩ := hadm.mem_publishedEdges.mp he
    obtain ⟨q, -, input, hrow, heq⟩ := mem_stepEdges.mp hstep
    rw [heq]
    exact (hadm.rowOfKey_eq_some.mp hrow).1
  refine ⟨?_, ?_, ?_, ?_, ?_, ?_⟩
  · rw [hfacts]
    exact forall_mem_map.mpr fun g hg => hadm.derived hg
  · have hrows : result.facts.map (·.row) = (sortedResults raw.results).map (·.machine) := by
      rw [hfacts, publishedFacts, map_map, map_map]
      rfl
    rw [hrows]
    exact (sortedResults_nodup _).map SemanticRow.machine_injective
  · rw [hedges]
    exact forall_mem_map.mpr fun d hd =>
      (validateMachineRow_machine d.input).trans (hadm.valid _ (hinput d hd))
  · rw [hfacts, hedges]
    refine forall_mem_map.mpr fun g hg => ?_
    have hrow := (hadm.mem_publishedFacts.mp hg).1
    obtain ⟨step, hstep⟩ := Option.isSome_iff_exists.mp (hall g.row hrow)
    exact hadm.oneDerivation hrow hstep
  · rw [hedges]
    exact forall_mem_map.mpr fun d hd => hresult d.result (hadm.mem_publishedEdges.mp hd).1
  · rw [hedges]
    refine forall_mem_map.mpr fun d hd => ?_
    rcases mem_append.mp (hinput d hd) with hroot | hres
    · obtain ⟨root, hmem, hrow⟩ := mem_map.mp hroot
      obtain ⟨id, hid, hroot⟩ := hroots root hmem
      refine .inr ⟨id, hid, ?_⟩
      rw [hrow] at hroot
      exact (deriveMachineFactId_machine sha256 d.input).trans hroot
    · exact .inl (hresult d.input hres)

end Canonical

section Merge

variable {sha256 : String → String} {result : WpaRunResult} {c : WpaComponentCompletion}
  {f : MachineFact} {batch : AnalysisFactBatch}

section

variable (h : CanonicalFamily sha256 result)
include h

theorem CanonicalFamily.proven (hc : c ∈ result.completedComponents) :
    ComponentProven sha256 result.rootedInputFactIds c.result :=
  canonicalize_proven (h.output c hc)

/-- Within the run a fact is its row. -/
theorem CanonicalFamily.fact_eq {d : WpaComponentCompletion}
    (hc : c ∈ result.completedComponents) (hd : d ∈ result.completedComponents) {g : MachineFact}
    (hf : f ∈ c.result.facts) (hg : g ∈ d.result.facts) (hrow : f.row = g.row) : f = g := by
  have hfid := (h.proven hc).derived f hf
  have hgid := (h.proven hd).derived g hg
  rw [hrow, hgid] at hfid
  cases f
  cases g
  rw [MachineFact.mk.injEq]
  exact ⟨(Except.ok.inj hfid).symm, hrow⟩

theorem CanonicalFamily.valid (hc : c ∈ result.completedComponents) : c.result.Valid where
  facts := fun f hf => validate_of_derive ((h.proven hc).derived f hf)
  witnesses := by
    intro e he
    obtain ⟨f, hf, hrow⟩ := (h.proven hc).results e he
    refine ⟨?_, (h.proven hc).valid e he⟩
    rw [← hrow]
    exact validate_of_derive ((h.proven hc).derived f hf)
  ids := by
    have hrows := Nodup.of_map _ (h.proven hc).rows
    refine hrows.map_on fun f hf g hg hid => ?_
    exact h.fact_eq hc hc hf hg (h.collisionFree c hc c hc f hf g hg hid)

omit h in
theorem WpaRunResult.mem_completedInOrder :
    c ∈ result.completedInOrder ↔ c ∈ result.completedComponents :=
  (List.perm_insertionSort _ _).mem_iff

variable {pre post : List WpaComponentCompletion}

/-- An earlier completion has the smaller key. -/
theorem CanonicalFamily.key_lt_iff {d : WpaComponentCompletion}
    (hsplit : result.completedInOrder = pre ++ c :: post) (hd : d ∈ result.completedComponents) :
    d.key < c.key ↔ d ∈ pre := by
  have hsorted : (result.completedInOrder.map (·.key)).SortedLT := by
    have hle : result.completedInOrder.Pairwise fun a b => a.key ≤ b.key :=
      pairwise_insertionSort _ _
    have hperm : (result.completedInOrder.map (·.key)).Perm
        (result.completedComponents.map (·.key)) := (perm_insertionSort _ _).map _
    exact (pairwise_map.mpr hle).sortedLE.sortedLT_of_nodup (hperm.nodup_iff.mpr h.keys)
  rw [hsplit] at hsorted
  have hpair := pairwise_append.mp (pairwise_map.mp hsorted.pairwise)
  have hd := mem_completedInOrder.mpr hd
  rw [hsplit] at hd
  constructor
  · intro hlt
    rcases mem_append.mp hd with hd | hd
    · exact hd
    · rcases mem_cons.mp hd with rfl | hd
      · exact absurd hlt (lt_irrefl _)
      · exact absurd ((pairwise_cons.mp hpair.2.1).1 d hd) hlt.asymm
  · intro hmem
    exact hpair.2.2 d hmem c mem_cons_self

/-- What the merged lists hold, in terms of the first component that has a fact. -/
structure MergedBatch (result : WpaRunResult) (facts : List MachineFact)
    (edges : List MachineEdge) : Prop where
  published : ∀ f, f ∈ facts ↔ ∃ c ∈ result.completedComponents, f ∈ c.result.facts
  kept : ∀ e, e ∈ edges ↔ ∃ pre c post, result.completedInOrder = pre ++ c :: post ∧
    e ∈ c.result.witnesses ∧ ∀ d ∈ pre, ∀ f ∈ d.result.facts, f.row ≠ e.result
  ids : (facts.map (·.factId)).Nodup

omit h in
theorem WpaRunResult.mem_of_split
    (hsplit : result.completedInOrder = pre ++ c :: post) :
    c ∈ result.completedComponents ∧ ∀ d ∈ pre, d ∈ result.completedComponents := by
  constructor
  · rw [← mem_completedInOrder, hsplit]
    exact mem_append_right _ mem_cons_self
  · intro d hd
    rw [← mem_completedInOrder, hsplit]
    exact mem_append_left _ hd

omit h in
theorem mem_ownedIds {cs : List WpaComponentCompletion} {id : StableId} :
    id ∈ ownedIds cs ↔ ∃ d ∈ cs, ∃ g ∈ d.result.facts, g.factId = id := by
  simp only [ownedIds, mem_flatMap, mem_map]

theorem CanonicalFamily.merged {s : BatchAssembly} (hs : Merged result.completedInOrder s) :
    MergedBatch result s.sortedFacts s.sortedWitnesses := by
  have hperm := sortedFacts_perm hs.ids
  refine ⟨?_, ?_, ?_⟩
  · intro f
    rw [hperm.mem_iff, hs.facts]
    constructor
    · rintro ⟨pre, c, post, hsplit, hf⟩
      exact ⟨c, (mem_of_split hsplit).1, (mem_filter.mp hf).1⟩
    · rintro ⟨c, hc, hf⟩
      obtain ⟨pre, d, post, hsplit, hfd, hfirst⟩ := exists_first (p := fun d =>
        f ∈ d.result.facts) ⟨c, mem_completedInOrder.mpr hc, hf⟩
      refine ⟨pre, d, post, hsplit, mem_filter.mpr ⟨hfd, decide_eq_true ?_⟩⟩
      intro howned
      obtain ⟨b, hb, g, hg, hid⟩ := mem_ownedIds.mp howned
      have hbmem := (mem_of_split hsplit).2 b hb
      have hsame := h.fact_eq hbmem hc hg hf (h.collisionFree b hbmem c hc g hg f hf hid)
      exact hfirst b hb (hsame ▸ hg)
  · intro e
    rw [mem_sortedWitnesses, hs.edges]
    refine exists_congr fun pre => exists_congr fun c => exists_congr fun post =>
      and_congr_right fun hsplit => ?_
    obtain ⟨hc, hpre⟩ := mem_of_split hsplit
    rw [WpaComponentCompletion.keptEdges, mem_filter, decide_eq_true_eq]
    refine and_congr_right fun he => ?_
    constructor
    · intro hkept d hd g hg hrow
      obtain ⟨f, hf, hresult⟩ := (h.proven hc).results e he
      have hsame := h.fact_eq hc (hpre d hd) hf hg (hresult.trans hrow.symm)
      exact hkept f hf hresult (mem_ownedIds.mpr ⟨d, hd, g, hg, by rw [hsame]⟩)
    · intro hfirst f hf hrow howned
      obtain ⟨d, hd, g, hg, hid⟩ := mem_ownedIds.mp howned
      have hsame := h.collisionFree d (hpre d hd) c hc g hg f hf hid
      exact hfirst d hd g hg (hsame.trans hrow)
  · exact (hperm.map _).nodup_iff.mpr hs.ids

/-- The position of the first component that has the row. -/
def WpaRunResult.ownerOf (result : WpaRunResult) (row : MachineRow) : ℕ :=
  result.completedInOrder.findIdx fun c => ∃ f ∈ c.result.facts, f.row = row

omit h in
theorem WpaRunResult.ownerOf_le
    (hsplit : result.completedInOrder = pre ++ c :: post) (hf : f ∈ c.result.facts) :
    result.ownerOf f.row ≤ pre.length := by
  have hc : decide (∃ g ∈ c.result.facts, g.row = f.row) = true := decide_eq_true ⟨f, hf, rfl⟩
  rw [ownerOf, hsplit, findIdx_append, findIdx_cons, hc, cond_true]
  split <;> omega

omit h in
theorem WpaRunResult.ownerOf_eq
    (hsplit : result.completedInOrder = pre ++ c :: post) (hf : f ∈ c.result.facts)
    (hfirst : ∀ d ∈ pre, ∀ g ∈ d.result.facts, g.row ≠ f.row) :
    result.ownerOf f.row = pre.length := by
  have hnone : ¬ pre.findIdx (fun d => decide (∃ g ∈ d.result.facts, g.row = f.row)) <
      pre.length := by
    rw [findIdx_lt_length]
    rintro ⟨d, hd, hhas⟩
    obtain ⟨g, hg, hrow⟩ := of_decide_eq_true hhas
    exact hfirst d hd g hg hrow
  have hc : decide (∃ g ∈ c.result.facts, g.row = f.row) = true := decide_eq_true ⟨f, hf, rfl⟩
  rw [ownerOf, hsplit, findIdx_append, if_neg hnone, findIdx_cons, hc, cond_true, Nat.zero_add]

theorem CanonicalFamily.acyclic_merged
    (hroots : RootsApart result) (hbatch : MergedBatch result batch.facts batch.witnesses) :
    ∀ row, ¬ Relation.TransGen (DependsOn batch) row row := by
  -- an edge stays in its component or leads to a fact an earlier component owns
  have hedge : ∀ a b, DependsOn batch a b → ∃ pre c post,
      result.completedInOrder = pre ++ c :: post ∧ ReliesOn c.result a b ∧
        result.ownerOf a = pre.length ∧ result.ownerOf b ≤ pre.length := by
    rintro a b ⟨e, he, rfl, rfl, g, hg, hgrow⟩
    obtain ⟨pre, c, post, hsplit, hec, hfirst⟩ := (hbatch.kept e).mp he
    obtain ⟨hc, -⟩ := mem_of_split hsplit
    obtain ⟨f, hf, hrow⟩ := (h.proven hc).results e hec
    obtain ⟨d, hd, hgd⟩ := (hbatch.published g).mp hg
    have hinput : ∃ f ∈ c.result.facts, f.row = e.input := by
      by_contra hnone
      have hnot : ∀ f ∈ c.result.facts, f.row ≠ e.input := fun f hf hrow => hnone ⟨f, hf, hrow⟩
      exact hroots c hc e hec hnot d hd g hgd hgrow
    refine ⟨pre, c, post, hsplit, ⟨e, hec, rfl, rfl, hinput⟩, ?_, ?_⟩
    · rw [← hrow] at hfirst ⊢
      exact ownerOf_eq hsplit hf hfirst
    · obtain ⟨f', hf', hrow'⟩ := hinput
      rw [← hrow']
      exact ownerOf_le hsplit hf'
  refine Kahn.irrefl_transGen_of_layers result.ownerOf ?_ ?_
  · intro a b hab
    obtain ⟨pre, c, post, -, -, ha, hb⟩ := hedge a b hab
    omega
  · intro n a hcycle
    obtain ⟨b, ⟨hab, hn, -⟩, -⟩ := Relation.TransGen.head'_iff.mp hcycle
    obtain ⟨pre, c, post, hsplit, -, hpre, -⟩ := hedge a b hab
    have hc := (mem_of_split hsplit).1
    refine h.acyclic c hc a (Relation.TransGen.mono ?_ a a hcycle)
    -- every edge inside the layer is one of the component at its position
    rintro x y ⟨hxy, hx, -⟩
    obtain ⟨pre', d, post', hsplit', hrelies, howner, -⟩ := hedge x y hxy
    have hlen : pre'.length = pre.length := by omega
    rw [hsplit] at hsplit'
    obtain ⟨-, htail⟩ := append_inj hsplit' hlen.symm
    rw [(cons.inj htail).1]
    exact hrelies

/-- The edges of a published fact are those of the first component that has it. -/
theorem MergedBatch.provenByFirst
    (hbatch : MergedBatch result batch.facts batch.witnesses) (hf : f ∈ batch.facts) :
    ProvenByFirst result batch f := by
  obtain ⟨c, hc, hfc⟩ := (hbatch.published f).mp hf
  obtain ⟨pre, d, post, hsplit, hfd, hfirst⟩ := exists_first (p := fun d => f ∈ d.result.facts)
    ⟨c, mem_completedInOrder.mpr hc, hfc⟩
  obtain ⟨hd, hpre⟩ := mem_of_split hsplit
  refine ⟨d, hd, hfd, ?_, ?_⟩
  · intro b hb hlt
    exact hfirst b ((h.key_lt_iff hsplit hb).mp hlt)
  · intro e hrow
    have hclear : ∀ b ∈ pre, ∀ g ∈ b.result.facts, g.row ≠ e.result := by
      intro b hb g hg hgrow
      have hsame := h.fact_eq (hpre b hb) hd hg hfd (hgrow.trans hrow)
      exact hfirst b hb (hsame ▸ hg)
    rw [hbatch.kept]
    constructor
    · rintro ⟨pre', d', post', hsplit', he, hfirst'⟩
      obtain ⟨g, hg, hgrow⟩ := (h.proven (mem_of_split hsplit').1).results e he
      have howner := ownerOf_eq hsplit hfd (hrow ▸ hclear)
      have howner' := ownerOf_eq hsplit' hg (hgrow ▸ hfirst')
      have hlen : pre.length = pre'.length := by
        rw [← howner, ← howner', hgrow, hrow]
      rw [hsplit] at hsplit'
      obtain ⟨-, htail⟩ := append_inj hsplit' hlen
      rw [(cons.inj htail).1]
      exact he
    · intro he
      exact ⟨pre, d, post, hsplit, he, hclear⟩

omit h in
theorem OneDerivation.congr {edges edges' : List MachineEdge} {row : MachineRow}
    (h : ∀ e, e.result = row → (e ∈ edges ↔ e ∈ edges')) (hone : OneDerivation edges' row) :
    OneDerivation edges row := by
  obtain ⟨rule, hfind, hpos, hrule, hslots⟩ := hone
  refine ⟨rule, hfind, hpos, fun e he hrow => hrule e ((h e hrow).mp he) hrow, ?_⟩
  intro n hn
  obtain ⟨e, ⟨he, hrow, hord⟩, hunique⟩ := hslots n hn
  refine ⟨e, ⟨(h e hrow).mpr he, hrow, hord⟩, ?_⟩
  rintro e' ⟨he', hrow', hord'⟩
  exact hunique e' ⟨(h e' hrow').mp he', hrow', hord'⟩

theorem MergedBatch.oneDerivation
    (hbatch : MergedBatch result batch.facts batch.witnesses) (hf : f ∈ batch.facts) :
    OneDerivation batch.witnesses f.row := by
  obtain ⟨c, hc, hfc, -, hsame⟩ := hbatch.provenByFirst h hf
  exact ((h.proven hc).proven f hfc).congr hsame

theorem MergedBatch.closed (hroots : RootsApart result)
    (hbatch : MergedBatch result batch.facts batch.witnesses)
    (hids : ∀ id, id ∈ batch.rootedInputFactIds ↔ id ∈ result.rootedInputFactIds) :
    BatchClosed sha256 batch where
  derived := by
    intro f hf
    obtain ⟨c, hc, hfc⟩ := (hbatch.published f).mp hf
    exact (h.proven hc).derived f hfc
  unique := hbatch.ids
  witnessed := by
    intro f hf
    obtain ⟨rule, -, hpos, -, hslots⟩ := hbatch.oneDerivation h hf
    obtain ⟨e, ⟨he, hrow, -⟩, -⟩ := hslots 0 hpos
    exact ⟨e, he, hrow⟩
  results := by
    intro e he
    obtain ⟨pre, c, post, hsplit, hec, -⟩ := (hbatch.kept e).mp he
    obtain ⟨hc, -⟩ := mem_of_split hsplit
    obtain ⟨f, hf, hrow⟩ := (h.proven hc).results e hec
    exact ⟨f, (hbatch.published f).mpr ⟨c, hc, hf⟩, hrow⟩
  inputs := by
    intro e he
    obtain ⟨pre, c, post, hsplit, hec, -⟩ := (hbatch.kept e).mp he
    obtain ⟨hc, -⟩ := mem_of_split hsplit
    rcases (h.proven hc).inputs e hec with ⟨f, hf, hrow⟩ | ⟨id, hid, hderived⟩
    · exact .inl ⟨f, (hbatch.published f).mpr ⟨c, hc, hf⟩, hrow⟩
    · exact .inr ⟨id, (hids id).mpr hid, hderived⟩
  acyclic := h.acyclic_merged hroots hbatch

/-- The batch of a run: its canonical id, the keys of the run, and the merged lists. -/
structure AssembledFrom (sha256 : String → String) (result : WpaRunResult)
    (batch : AnalysisFactBatch) : Prop where
  merged : MergedBatch result batch.facts batch.witnesses
  batchId : deriveBatchId sha256 batch = some batch.batchId
  expected : batch.expectedComponents.Perm result.expectedComponents
  completed : (batch.completedComponents.map (·.key)).Perm (result.completedComponents.map (·.key))
  roots : batch.rootedInputFactIds.Perm result.rootedInputFactIds

theorem CanonicalFamily.makeBatch :
    ∃ batch, makeAnalysisFactBatch sha256 result = some batch ∧
      AssembledFrom sha256 result batch := by
  have hvalid : ∀ c ∈ result.completedInOrder, c.result.Valid := fun c hc =>
    h.valid (mem_completedInOrder.mp hc)
  obtain ⟨s, hs, hmerged⟩ := merged_assembly hvalid
  have hbatch := h.merged hmerged
  obtain ⟨id, hid⟩ : ∃ id,
      deriveBatchId sha256 (result.assembled result.completedInOrder s) = some id := by
    refine deriveBatchId_isSome ?_ ?_
    · intro f hf
      obtain ⟨c, hc, hfc⟩ := (hbatch.published f).mp hf
      exact (h.valid hc).facts f hfc
    · intro e he
      obtain ⟨pre, c, post, hsplit, hec, -⟩ := (hbatch.kept e).mp he
      exact (h.valid (mem_of_split hsplit).1).witnesses e hec
  refine ⟨{ result.assembled result.completedInOrder s with batchId := id }, ?_, hbatch, hid,
    perm_insertionSort _ _, ?_, perm_insertionSort _ _⟩
  · rw [makeAnalysisFactBatch, hs]
    simp [hid]
  · change List.Perm ((result.completedInOrder.map (·.stripped)).map (·.key)) _
    rw [map_map]
    exact (perm_insertionSort _ _).map _

theorem AssembledFrom.fits (hbatch : AssembledFrom sha256 result batch) : batch.Fits := by
  refine ⟨?_, ?_⟩
  · intro f hf
    obtain ⟨c, hc, hfc⟩ := (hbatch.merged.published f).mp hf
    exact (h.fits c hc).1 f hfc
  · intro e he
    obtain ⟨pre, c, post, hsplit, hec, -⟩ := (hbatch.merged.kept e).mp he
    exact (h.fits c (mem_of_split hsplit).1).2 e hec

/-- Assembly leaves only the closure of the witnesses to be checked. -/
theorem AssembledFrom.accepted_iff (hbatch : AssembledFrom sha256 result batch) :
    validateBatch sha256 batch = some (.ok ()) ↔ BatchClosed sha256 batch := by
  have hkeys : batch.expectedComponents.Perm (batch.completedComponents.map (·.key)) :=
    hbatch.expected.trans (h.expected.trans hbatch.completed.symm)
  have hcompleted := hbatch.completed.nodup_iff.mpr h.keys
  rw [validateBatch_eq_ok (hbatch.fits h)]
  constructor
  · intro hall
    exact hall.2.2.2.2
  · intro hclosed
    exact ⟨hbatch.batchId, hkeys.nodup_iff.mpr hcompleted, hcompleted, fun _ => hkeys.mem_iff,
      hclosed⟩

end

end Merge

def callRow (site caller callee : String) : SemanticRow :=
  ⟨.directCall, [.stableId ⟨.callSite, site⟩, .stableId ⟨.functionVariant, caller⟩,
    .stableId ⟨.functionVariant, callee⟩, .dispatchKind .direct, .epistemic .must]⟩

def reachRow (source target : String) : SemanticRow :=
  ⟨.reachableCall, [.stableId ⟨.functionVariant, source⟩, .stableId ⟨.functionVariant, target⟩,
    .epistemic .must]⟩

/-- One use of a rule, with its inputs as roots. -/
def ruleRequest (use : RuleUse) : CanonicalizationRequest :=
  ⟨use.inputs.map fun row => ⟨factOf id row, "", "", "", "", ""⟩, [],
    some ⟨[use.result], use.edges, []⟩⟩

def ruleCompletion (scc : String) (use : RuleUse) : WpaComponentCompletion :=
  ⟨⟨⟨.scc, scc⟩, .reachability⟩, "", ⟨⟨.scc, scc⟩, .reachability, "", "", "",
    [(factOf id use.result).machine], use.edges.map (·.machine), []⟩⟩

def ruleRun (first second : RuleUse) : WpaRunResult where
  run := ⟨⟨.analysisRun, "r"⟩, .souffle⟩
  expectedComponents := [⟨⟨.scc, "s"⟩, .reachability⟩, ⟨⟨.scc, "t"⟩, .reachability⟩]
  completedComponents := [ruleCompletion "s" first, ruleCompletion "t" second]
  rootedInputFactIds := (first.inputs ++ second.inputs).map fun row => (factOf id row).factId
  rootedInputFacts := []

/-- Two call sites from one function to another. -/
def sharedRun : WpaRunResult :=
  ruleRun ⟨reachRow "f" "g", "wpa.reachability.direct.v2", "", [callRow "c" "f" "g"]⟩
    ⟨reachRow "f" "g", "wpa.reachability.direct.v2", "", [callRow "d" "f" "g"]⟩

/-- Two components that each take the other's result as a root. -/
def mutualRun : WpaRunResult :=
  ruleRun ⟨reachRow "f" "f", "wpa.reachability.transitive.v2", "",
      [callRow "c" "f" "g", reachRow "g" "f"]⟩
    ⟨reachRow "g" "f", "wpa.reachability.transitive.v2", "",
      [callRow "d" "g" "f", reachRow "f" "f"]⟩

/-- The rule use is canonical as it stands. -/
def RuleUse.Canonical (use : RuleUse) : Prop :=
  ((canonicalize id (ruleRequest use)).toOption.map fun out =>
    (out.facts.map (·.machine), out.witnesses.map (·.machine))) =
      some ([(factOf id use.result).machine], use.edges.map (·.machine))

instance : DecidablePred RuleUse.Canonical := fun use => by
  unfold RuleUse.Canonical
  infer_instance

theorem canonicalOutput_rule {use : RuleUse} (scc : String) (hout : use.Canonical)
    (hroots : ∀ row ∈ use.inputs, (factOf id row).factId ∈ rootIds ∧
      validateSemanticRow row = .ok ()) :
    CanonicalOutput id rootIds (ruleCompletion scc use).result := by
  unfold RuleUse.Canonical at hout
  cases hok : canonicalize id (ruleRequest use) with
  | error status => simp [hok, Except.toOption] at hout
  | ok out =>
    simp only [hok, Except.toOption, Option.map_some, Option.some.injEq, Prod.mk.injEq] at hout
    refine ⟨_, out, hok, hout.1.symm, hout.2.symm, ?_⟩
    intro root hroot
    obtain ⟨row, hrow, rfl⟩ : ∃ row ∈ use.inputs,
        (⟨factOf id row, "", "", "", "", ""⟩ : RootedInputFact) = root := by
      simpa [ruleRequest] using hroot
    obtain ⟨hid, hvalid⟩ := hroots row hrow
    refine ⟨_, hid, ?_⟩
    change deriveFactId id row = _
    rw [deriveFactId, hvalid]
    rfl

theorem ruleRun_family {first second : RuleUse} (hfirst : first.Canonical)
    (hsecond : second.Canonical)
    (hvalid : ∀ row ∈ first.inputs ++ second.inputs, validateSemanticRow row = .ok ())
    (hself : ∀ c ∈ (ruleRun first second).completedComponents, ∀ e ∈ c.result.witnesses,
      ∀ f ∈ c.result.facts, f.row ≠ e.input)
    (hfits : ∀ c ∈ (ruleRun first second).completedComponents, (∀ f ∈ c.result.facts,
      f.row.Fits) ∧ ∀ e ∈ c.result.witnesses, e.result.Fits ∧ e.input.Fits)
    (hids : ∀ c ∈ (ruleRun first second).completedComponents,
      ∀ d ∈ (ruleRun first second).completedComponents, ∀ f ∈ c.result.facts,
        ∀ g ∈ d.result.facts, f.factId = g.factId → f.row = g.row) :
    CanonicalFamily id (ruleRun first second) where
  keys := by
    change List.Nodup [(⟨⟨.scc, "s"⟩, .reachability⟩ : WpaComponentKey), ⟨⟨.scc, "t"⟩, .reachability⟩]
    decide
  expected := List.Perm.refl _
  output := by
    have hroots : ∀ row ∈ first.inputs ++ second.inputs, (factOf id row).factId ∈
        (ruleRun first second).rootedInputFactIds ∧ validateSemanticRow row = .ok () :=
      fun row hrow => ⟨mem_map_of_mem hrow, hvalid row hrow⟩
    intro c hc
    have hc : c = ruleCompletion "s" first ∨ c = ruleCompletion "t" second := by
      simpa [ruleRun] using hc
    rcases hc with rfl | rfl
    · exact canonicalOutput_rule "s" hfirst fun row hrow => hroots row (mem_append_left _ hrow)
    · exact canonicalOutput_rule "t" hsecond fun row hrow =>
        hroots row (mem_append_right _ hrow)
  acyclic := by
    intro c hc row hcycle
    obtain ⟨input, ⟨e, he, -, rfl, f, hf, hrow⟩, -⟩ := Relation.TransGen.head'_iff.mp hcycle
    exact hself c hc e he f hf hrow
  fits := hfits
  collisionFree := hids

end Veritas

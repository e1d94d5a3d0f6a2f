import Veritas.Facts.NamedDerivations

/-! What the checks on witness edges admit, and the proof steps the edges make up. -/
namespace Veritas

open List hiding map

open Hypergraph Relaxation Ordered StatusOr Veritas.Derivation

/-- The firing an edge belongs to: result, rule and derivation key. -/
def WitnessEdge.firing (edge : WitnessEdge) : String ×ₗ String ×ₗ String :=
  toLex (encodeSemanticKey edge.result, toLex (edge.ruleId, edge.derivationKey))

def WitnessEdge.binding (edge : WitnessEdge) : ℕ ×ₗ String :=
  toLex (edge.inputOrdinal, encodeSemanticKey edge.input)

/-- What the checks on roots, results and edges let through. -/
structure Admissible (roots results : List SemanticRow) (edges : List WitnessEdge) : Prop where
  roots_valid : ∀ row ∈ roots, validateSemanticRow row = .ok ()
  results_valid : ∀ row ∈ results, validateSemanticRow row = .ok ()
  published : ∀ e ∈ edges, encodeSemanticKey e.result ∈ results.map encodeSemanticKey
  rule : ∀ e ∈ edges, ∃ rule, derivingRule e = .ok rule
  input_valid : ∀ e ∈ edges, validateSemanticRow e.input = .ok ()
  cited : ∀ e ∈ edges, encodeSemanticKey e.input ∈ (roots ++ results).map encodeSemanticKey
  functional : ∀ e ∈ edges, ∀ e' ∈ edges, e.firing = e'.firing →
    e.inputOrdinal = e'.inputOrdinal → encodeSemanticKey e.input = encodeSemanticKey e'.input
  arity : ∀ e ∈ edges, ∀ rule, findRule e.ruleId = some rule → ∀ n,
    (∃ e' ∈ edges, e'.firing = e.firing ∧ e'.inputOrdinal = n) ↔ n < rule.arity

/-- A firing with its inputs, over keys. -/
abbrev ProofStep := Derivation String String

def ruleSpecOf (ruleId : String) : RuleSpec :=
  (findRule ruleId).getD ⟨ruleId, 0, .functionMap, 0⟩

/-- The step of one firing: all its edges, by ordinal. -/
def proofStep (edges : List WitnessEdge) (firing : String ×ₗ String ×ₗ String) : ProofStep where
  result := (ofLex firing).1
  rule := (ofLex (ofLex firing).2).1
  derivation := (ofLex (ofLex firing).2).2
  spec := ruleSpecOf (ofLex (ofLex firing).2).1
  inputs := (sortUnique ((edges.filter (·.firing = firing)).map (·.binding))).map ofLex

/-- All steps, by result, rule and derivation key. -/
def proofSteps (edges : List WitnessEdge) : List ProofStep :=
  (sortUnique (edges.map (·.firing))).map (proofStep edges)

def Derivation.order {ρ lbl : Type} (d : Derivation ρ lbl) : ρ ×ₗ lbl ×ₗ lbl :=
  toLex (d.result, toLex (d.rule, d.derivation))

theorem Derivation.order_eq_iff {ρ lbl : Type} {d d' : Derivation ρ lbl} :
    d.order = d'.order ↔ d.key = d'.key := by
  simp [order, key]

variable {firing : String ×ₗ String ×ₗ String} {edges : List WitnessEdge}

theorem mem_proofStep_inputs {ordinal : ℕ} {k : String} :
    (ordinal, k) ∈ (proofStep edges firing).inputs ↔ ∃ e ∈ edges, e.firing = firing ∧
      e.inputOrdinal = ordinal ∧ encodeSemanticKey e.input = k := by
  have hlex : ∀ (b : ℕ ×ₗ String), ofLex b = (ordinal, k) ↔ b = toLex (ordinal, k) := fun b =>
    Iff.rfl
  simp only [proofStep, mem_map, mem_sortUnique, mem_filter, decide_eq_true_eq, hlex,
    exists_eq_right, WitnessEdge.binding, EmbeddingLike.apply_eq_iff_eq, Prod.mk.injEq, and_assoc]

section Ascending

variable {ρ : Type} [DecidableEq ρ]

/-- At most one input at an ordinal, in ascending order. -/
def Ascending (inputs : List (ℕ × ρ)) : Prop := (inputs.map (·.1)).SortedLT

variable {inputs : List (ℕ × ρ)}

omit [DecidableEq ρ] in
theorem Ascending.unique (h : Ascending inputs) {p q : ℕ × ρ} (hp : p ∈ inputs) (hq : q ∈ inputs)
    (heq : p.1 = q.1) : p = q :=
  List.inj_on_of_nodup_map h.nodup hp hq heq

theorem bindInput_isOk {ordinal : ℕ} {x : ρ} (h : ∀ p ∈ inputs, p.1 = ordinal → p.2 = x) :
    ∃ inputs', bindInput inputs ordinal x = .ok inputs' := by
  unfold bindInput
  split
  · rename_i slot hslot
    obtain ⟨hmem, hord⟩ := of_find? hslot
    rw [if_neg (not_not.mpr (h slot hmem hord))]
    exact ⟨_, rfl⟩
  · exact ⟨_, rfl⟩

/-- A new ordinal goes between the smaller and the larger ones. -/
theorem bindInput_ascending {inputs' : List (ℕ × ρ)} {ordinal : ℕ} {x : ρ} (hasc : Ascending inputs)
    (h : bindInput inputs ordinal x = .ok inputs') : Ascending inputs' := by
  unfold bindInput at h
  split at h
  · split_ifs at h
    obtain rfl := Except.ok.inj h
    exact hasc
  · rename_i hnone
    obtain rfl := Except.ok.inj h
    have hne : ∀ p ∈ inputs, p.1 ≠ ordinal := by
      intro p hp
      simpa using find?_eq_none.mp hnone p hp
    have hpair := pairwise_map.mp hasc.pairwise
    have hcut : inputs.Pairwise fun a b =>
        decide (¬ b.1 > ordinal) = true → decide (¬ a.1 > ordinal) = true := by
      refine hpair.imp fun {a b} hab hb => ?_
      have hb := of_decide_eq_true hb
      exact decide_eq_true (by omega)
    obtain ⟨htake, hdrop⟩ := takeWhile_eq_filter hcut
    rw [htake, hdrop]
    refine List.Pairwise.sortedLT (pairwise_map.mpr ?_)
    rw [pairwise_append, pairwise_cons]
    have hsmall : ∀ p ∈ inputs.filter (fun q => decide ¬ q.1 > ordinal), p.1 < ordinal := by
      intro p hp
      obtain ⟨hmem, hle⟩ := mem_filter.mp hp
      have hle := of_decide_eq_true hle
      have hne := hne p hmem
      omega
    have hlarge : ∀ p ∈ inputs.filter (fun q => !decide (¬ q.1 > ordinal)), ordinal < p.1 := by
      intro p hp
      simpa using (mem_filter.mp hp).2
    refine ⟨hpair.sublist filter_sublist, ⟨hlarge, hpair.sublist filter_sublist⟩, ?_⟩
    intro p hp q hq
    rcases mem_cons.mp hq with rfl | hq
    · exact hsmall p hp
    · exact (hsmall p hp).trans (hlarge q hq)

end Ascending

variable {edge : WitnessEdge}

theorem derivingRule_eq_ok {rule : RuleSpec} :
    derivingRule edge = .ok rule ↔
      findRule edge.ruleId = some rule ∧ rule.result = edge.result.relation := by
  unfold derivingRule
  cases hfind : findRule edge.ruleId with
  | none => simp
  | some rule' =>
    dsimp only
    split_ifs with hne
    · refine ⟨fun h => by simp at h, fun h => ?_⟩
      obtain rfl := Option.some.inj h.1
      exact absurd h.2 hne
    · rw [Except.ok.injEq, Option.some.injEq]
      constructor
      · rintro rfl
        exact ⟨rfl, not_not.mp hne⟩
      · exact fun h => h.1

/-- One entry for each firing seen, with exactly its inputs. -/
structure NamedFold (edges : List WitnessEdge) (ds : List ProofStep) : Prop where
  covers : ∀ t, (∃ d ∈ ds, d.order = t) ↔ ∃ e ∈ edges, e.firing = t
  nodup : (ds.map (·.order)).Nodup
  spec : ∀ d ∈ ds, findRule d.rule = some d.spec
  ascending : ∀ d ∈ ds, Ascending d.inputs
  inputs : ∀ d ∈ ds, ∀ o k, (o, k) ∈ d.inputs ↔
    ∃ e ∈ edges, e.firing = d.order ∧ e.inputOrdinal = o ∧ encodeSemanticKey e.input = k

variable {d : ProofStep}

section Step

variable {ds ds' : List ProofStep} {fresh : ProofStep} {ordinal : ℕ} {x : String}

/-- What a binding step leaves of an entry. -/
theorem bind_entry {d' : ProofStep} (h : (if d.key = fresh.key then do
        return { d with inputs := ← bindInput d.inputs ordinal x } else return d :
          StatusOr ProofStep) = .ok d') :
    d'.order = d.order ∧ d'.rule = d.rule ∧ d'.spec = d.spec ∧
      (d.order = fresh.order ∧ bindInput d.inputs ordinal x = .ok d'.inputs ∨
        d.order ≠ fresh.order ∧ d'.inputs = d.inputs) := by
  split_ifs at h with hkey
  · obtain ⟨inputs', hbind, hpure⟩ := bind_eq_ok.mp h
    obtain rfl := pure_eq_ok.mp hpure
    exact ⟨rfl, rfl, rfl, .inl ⟨hkey, hbind⟩⟩
  · obtain rfl := pure_eq_ok.mp h
    exact ⟨rfl, rfl, rfl, .inr ⟨hkey, rfl⟩⟩

theorem bindDerivation_order (h : bindDerivation ds fresh ordinal x = .ok ds') : ds'.map (·.order) =
      (if fresh.key ∈ ds.map (·.key) then ds else ds ++ [fresh]).map (·.order) := by
  have hall := mapM_eq_ok.mp h
  generalize (if fresh.key ∈ ds.map (·.key) then ds else ds ++ [fresh]) = entries at hall
  clear h
  induction hall with
  | nil => rfl
  | cons hd _ ih =>
    rw [map_cons, map_cons, ih, (bind_entry hd).1]

end Step

variable {ds : List ProofStep}

/-- An entry is there for the edge before its input is bound. -/
theorem NamedFold.withFresh
    (h : NamedFold edges ds) (fresh : ProofStep) (hspec : findRule fresh.rule = some fresh.spec)
    (hinputs : fresh.inputs = []) :
    let ds' := if fresh.key ∈ ds.map (·.key) then ds else ds ++ [fresh]
    (∀ t, (∃ d ∈ ds', d.order = t) ↔ (∃ e ∈ edges, e.firing = t) ∨ t = fresh.order) ∧
      (ds'.map (·.order)).Nodup ∧
      ∀ d ∈ ds', findRule d.rule = some d.spec ∧ Ascending d.inputs ∧
        ∀ o k, (o, k) ∈ d.inputs ↔ ∃ e ∈ edges, e.firing = d.order ∧ e.inputOrdinal = o ∧
          encodeSemanticKey e.input = k := by
  intro ds'
  have hold : ∀ d ∈ ds, findRule d.rule = some d.spec ∧ Ascending d.inputs ∧
      ∀ o k, (o, k) ∈ d.inputs ↔ ∃ e ∈ edges, e.firing = d.order ∧ e.inputOrdinal = o ∧
        encodeSemanticKey e.input = k :=
    fun d hd => ⟨h.spec d hd, h.ascending d hd, h.inputs d hd⟩
  have hmem : fresh.key ∈ ds.map (·.key) ↔ ∃ e ∈ edges, e.firing = fresh.order := by
    rw [← h.covers, mem_map]
    simp only [order_eq_iff]
  by_cases hkey : fresh.key ∈ ds.map (·.key)
  · have hds' : ds' = ds := if_pos hkey
    rw [hds']
    refine ⟨fun t => ?_, h.nodup, hold⟩
    rw [h.covers]
    constructor
    · exact .inl
    · rintro (ht | rfl)
      · exact ht
      · exact hmem.mp hkey
  · have hds' : ds' = ds ++ [fresh] := if_neg hkey
    rw [hds']
    refine ⟨fun t => ?_, ?_, ?_⟩
    · simp only [mem_append, mem_singleton, or_and_right, exists_or, exists_eq_left, h.covers]
      exact or_congr_right eq_comm
    · rw [map_append, map_singleton]
      refine h.nodup.append (nodup_singleton _) (disjoint_singleton.mpr fun ht => hkey ?_)
      exact hmem.mpr ((h.covers _).mp (mem_map.mp ht))
    · intro d hd
      rcases mem_append.mp hd with hd | hd
      · exact hold d hd
      · rw [mem_singleton.mp hd]
        refine ⟨hspec, by rw [hinputs]; exact List.Pairwise.nil.sortedLT, fun o k => ?_⟩
        rw [hinputs]
        refine ⟨fun hp => absurd hp not_mem_nil, ?_⟩
        rintro ⟨e, he, hfiring, -⟩
        exact absurd (hmem.mpr ⟨e, he, hfiring⟩) hkey

theorem NamedFold.addEdge {roots results : List SemanticRow}
    {ds ds' : List ProofStep} (h : NamedFold edges ds)
    (hadd : addNamedEdge roots results ds edge = .ok ds') : NamedFold (edges ++ [edge]) ds' := by
  obtain ⟨-, rule, hrule, -, -, hbind⟩ := addNamedEdge_eq_ok.mp hadd
  obtain ⟨hfind, -⟩ := derivingRule_eq_ok.mp hrule
  obtain ⟨hcovers, hnodup, hentries⟩ := h.withFresh ⟨encodeSemanticKey edge.result,
    edge.ruleId, edge.derivationKey, rule, []⟩ hfind rfl
  have horder := bindDerivation_order hbind
  have hfrom : ∀ d' ∈ ds', ∃ d, _ := fun d' hd' => (mem_of_mapM hbind).mp hd'
  refine ⟨fun t => ?_, horder ▸ hnodup, ?_, ?_, ?_⟩
  · have hmem : (∃ d ∈ ds', d.order = t) ↔ t ∈ ds'.map (·.order) := by simp
    rw [hmem, horder, mem_map, hcovers]
    simp only [mem_append, mem_singleton, or_and_right, exists_or, exists_eq_left]
    exact or_congr_right eq_comm
  · intro d' hd'
    obtain ⟨d, hd, hstep⟩ := hfrom d' hd'
    obtain ⟨-, hrule', hspec', -⟩ := bind_entry hstep
    rw [hrule', hspec']
    exact (hentries d hd).1
  · intro d' hd'
    obtain ⟨d, hd, hstep⟩ := hfrom d' hd'
    obtain ⟨-, -, -, ⟨-, hb⟩ | ⟨-, hsame⟩⟩ := bind_entry hstep
    · exact bindInput_ascending (hentries d hd).2.1 hb
    · rw [hsame]
      exact (hentries d hd).2.1
  · intro d' hd' o k
    obtain ⟨d, hd, hstep⟩ := hfrom d' hd'
    obtain ⟨hord, -, -, hinputs⟩ := bind_entry hstep
    have hold := (hentries d hd).2.2 o k
    simp only [mem_append, mem_singleton, or_and_right, exists_or, exists_eq_left, hord, ← hold]
    rcases hinputs with ⟨hfresh, hb⟩ | ⟨hother, hsame⟩
    · rw [mem_of_bindInput hb]
      refine or_congr_right ?_
      rw [Prod.mk.injEq, hfresh]
      constructor
      · rintro ⟨rfl, rfl⟩
        exact ⟨rfl, rfl, rfl⟩
      · rintro ⟨-, rfl, rfl⟩
        exact ⟨rfl, rfl⟩
    · rw [hsame]
      refine ⟨.inl, ?_⟩
      rintro (hp | ⟨hfiring, -⟩)
      · exact hp
      · exact absurd hfiring.symm hother

/-- Ascending inputs are determined by what they bind. -/
theorem proofStep_inputs_unique {inputs : List (ℕ × String)}
    (hasc : Ascending inputs)
    (h : ∀ i k, (i, k) ∈ inputs ↔ (i, k) ∈ (proofStep edges firing).inputs) :
    inputs = (proofStep edges firing).inputs := by
  have hself : (proofStep edges firing).inputs.map toLex =
      sortUnique ((edges.filter (·.firing = firing)).map (·.binding)) := by
    rw [proofStep, map_map]
    exact map_id _
  have hmem : ∀ (b : ℕ ×ₗ String) (l : List (ℕ × String)),
      b ∈ l.map toLex ↔ ((ofLex b).1, (ofLex b).2) ∈ l := by
    intro b l
    rw [mem_map]
    exact ⟨fun ⟨p, hp, hpb⟩ => by rw [← hpb]; exact hp, fun hp => ⟨_, hp, rfl⟩⟩
  have hlex : inputs.map toLex = (proofStep edges firing).inputs.map toLex := by
    refine eq_of_sortedLT ?_ (hself ▸ sortedLT_ascending _) fun b => ?_
    · refine List.Pairwise.sortedLT (pairwise_map.mpr ?_)
      refine (pairwise_map.mp hasc.pairwise).imp fun {p q} hpq => ?_
      exact Prod.Lex.toLex_lt_toLex.mpr (.inl hpq)
    · rw [hmem, hmem, h]
  exact map_injective_iff.mpr toLex.injective hlex

/-- An entry is the step of its firing. -/
theorem NamedFold.eq_proofStep
    (h : NamedFold edges ds) (hd : d ∈ ds) : d = proofStep edges d.order := by
  have hspec : d.spec = ruleSpecOf d.rule := by
    rw [ruleSpecOf, h.spec d hd, Option.getD_some]
  have hinputs : d.inputs = (proofStep edges d.order).inputs :=
    proofStep_inputs_unique (h.ascending d hd) fun i k => by
      rw [h.inputs d hd, mem_proofStep_inputs]
  obtain ⟨result, rule, derivation, spec, inputs⟩ := d
  obtain rfl : spec = ruleSpecOf rule := hspec
  rw [show inputs = _ from hinputs]
  rfl

theorem NamedFold.sort (h : NamedFold edges ds) :
    ds.insertionSort (fun a b => a.order ≤ b.order) = proofSteps edges := by
  have hmap : ds = (ds.map (·.order)).map (proofStep edges) := by
    rw [map_map]
    conv_lhs => rw [← map_id ds]
    exact map_congr_left fun d hd => h.eq_proofStep hd
  have hsort : (ds.map (·.order)).insertionSort (· ≤ ·) = sortUnique (edges.map (·.firing)) := by
    refine eq_of_sortedLT ?_ (sortedLT_ascending _) fun t => ?_
    · have hperm := perm_insertionSort (· ≤ ·) (ds.map (·.order))
      exact (pairwise_insertionSort _ _).sortedLE.sortedLT_of_nodup (hperm.nodup_iff.mpr h.nodup)
    · rw [(perm_insertionSort _ _).mem_iff, mem_sortUnique, mem_map, mem_map]
      exact h.covers t
  conv_lhs => rw [hmap]
  rw [proofSteps, ← hsort]
  exact (map_insertionSort _ _ (proofStep edges) _ fun a _ b _ => Iff.rfl).symm

section Fold

variable {roots results : List SemanticRow} {edges : List WitnessEdge} {ds : List ProofStep}

theorem namedFold_nil : NamedFold [] [] := by
  refine ⟨?_, nodup_nil, ?_, ?_, ?_⟩ <;> simp

theorem foldNamed_spec (h : edges.foldlM (addNamedEdge roots results) [] = .ok ds) :
    NamedFold edges ds ∧ ∀ e ∈ edges,
      encodeSemanticKey e.result ∈ results.map encodeSemanticKey ∧
        (∃ rule, derivingRule e = .ok rule) ∧ validateSemanticRow e.input = .ok () ∧
          encodeSemanticKey e.input ∈ (roots ++ results).map encodeSemanticKey := by
  refine foldlM_invariant (P := fun pre ds => NamedFold pre ds ∧ ∀ e ∈ pre,
    encodeSemanticKey e.result ∈ results.map encodeSemanticKey ∧
      (∃ rule, derivingRule e = .ok rule) ∧ validateSemanticRow e.input = .ok () ∧
        encodeSemanticKey e.input ∈ (roots ++ results).map encodeSemanticKey)
    ⟨namedFold_nil, by simp⟩ ?_ h
  rintro pre edge s s' ⟨hfold, hchecked⟩ hadd
  refine ⟨hfold.addEdge hadd, fun e he => ?_⟩
  rcases mem_append.mp he with he | he
  · exact hchecked e he
  · rw [mem_singleton.mp he]
    obtain ⟨hpub, rule, hrule, hvalid, hcited, -⟩ := addNamedEdge_eq_ok.mp hadd
    exact ⟨hpub, ⟨rule, hrule⟩, hvalid, hcited⟩

theorem NamedFold.functional (h : NamedFold edges ds) {e e' : WitnessEdge} (he : e ∈ edges)
    (he' : e' ∈ edges) (hfiring : e.firing = e'.firing)
    (hord : e.inputOrdinal = e'.inputOrdinal) :
    encodeSemanticKey e.input = encodeSemanticKey e'.input := by
  obtain ⟨d, hd, hdorder⟩ := (h.covers e.firing).mpr ⟨e, he, rfl⟩
  have hmem := (h.inputs d hd _ _).mpr ⟨e, he, hdorder.symm, rfl, rfl⟩
  have hmem' := (h.inputs d hd _ _).mpr ⟨e', he', (hdorder.trans hfiring).symm, rfl, rfl⟩
  exact (Prod.mk.inj ((h.ascending d hd).unique hmem hmem' hord)).2

theorem foldNamed_isOk
    (hpub : ∀ e ∈ edges, encodeSemanticKey e.result ∈ results.map encodeSemanticKey)
    (hrule : ∀ e ∈ edges, ∃ rule, derivingRule e = .ok rule)
    (hvalid : ∀ e ∈ edges, validateSemanticRow e.input = .ok ())
    (hcited : ∀ e ∈ edges, encodeSemanticKey e.input ∈ (roots ++ results).map encodeSemanticKey)
    (hfun : ∀ e ∈ edges, ∀ e' ∈ edges, e.firing = e'.firing →
      e.inputOrdinal = e'.inputOrdinal → encodeSemanticKey e.input = encodeSemanticKey e'.input) :
    ∃ ds, edges.foldlM (addNamedEdge roots results) [] = .ok ds ∧ NamedFold edges ds := by
  refine foldlM_isOk NamedFold namedFold_nil ?_
  rintro pre edge post rfl ds hfold
  have hedge : edge ∈ pre ++ edge :: post := by simp
  obtain ⟨rule, hr⟩ := hrule edge hedge
  obtain ⟨-, -, hentries⟩ := hfold.withFresh ⟨encodeSemanticKey edge.result, edge.ruleId,
    edge.derivationKey, rule, []⟩ (derivingRule_eq_ok.mp hr).1 rfl
  have hbind : ∃ ds', bindDerivation ds ⟨encodeSemanticKey edge.result, edge.ruleId,
      edge.derivationKey, rule, []⟩ edge.inputOrdinal (encodeSemanticKey edge.input) = .ok ds' := by
    refine mapM_isOk _ _ fun d hd => ?_
    split_ifs with hkey
    · have horder := order_eq_iff.mpr hkey
      have hfree : ∀ p ∈ d.inputs, p.1 = edge.inputOrdinal →
          p.2 = encodeSemanticKey edge.input := by
        rintro ⟨o, k⟩ hp rfl
        obtain ⟨e, he, hfiring, hord, hkey'⟩ := ((hentries d hd).2.2 _ _).mp hp
        rw [← hkey']
        exact hfun e (mem_append_left _ he) edge hedge (hfiring.trans horder) hord
      obtain ⟨inputs', hinputs'⟩ := bindInput_isOk hfree
      exact ⟨_, bind_eq_ok.mpr ⟨inputs', hinputs', rfl⟩⟩
    · exact ⟨d, rfl⟩
  obtain ⟨ds', hds'⟩ := hbind
  have hadd := addNamedEdge_eq_ok.mpr
    ⟨hpub edge hedge, rule, hr, hvalid edge hedge, hcited edge hedge, hds'⟩
  exact ⟨ds', hadd, hfold.addEdge hadd⟩

/-- The arity check on a step asks for exactly the ordinals below the arity. -/
theorem checkArity_eq_ok (hasc : Ascending d.inputs) :
    checkArity d = .ok () ↔ ∀ n, (∃ k, (n, k) ∈ d.inputs) ↔ n < d.spec.arity := by
  have hmem : ∀ n, (∃ k, (n, k) ∈ d.inputs) ↔ n ∈ d.inputs.map (·.1) := by
    intro n
    simp
  simp only [hmem]
  unfold checkArity
  constructor
  · intro h
    split_ifs at h with hlen hrange
    intro n
    rw [not_not.mp hrange, mem_range]
  · intro h
    have hrange : d.inputs.map (·.1) = List.range d.spec.arity := by
      refine eq_of_sortedLT hasc (sortedLT_range _) fun n => ?_
      rw [h, mem_range]
    have hlen : d.inputs.length = d.spec.arity := by
      rw [← length_map (f := (·.1)), hrange, length_range]
    rw [if_neg (not_not.mpr hlen), if_neg (not_not.mpr hrange)]

theorem NamedFold.arity_iff (h : NamedFold edges ds) :
    (∀ d ∈ ds, checkArity d = .ok ()) ↔ ∀ e ∈ edges, ∀ rule, findRule e.ruleId = some rule → ∀ n,
        (∃ e' ∈ edges, e'.firing = e.firing ∧ e'.inputOrdinal = n) ↔ n < rule.arity := by
  have hentry : ∀ d ∈ ds, checkArity d = .ok () ↔ ∀ n,
      (∃ e' ∈ edges, e'.firing = d.order ∧ e'.inputOrdinal = n) ↔ n < d.spec.arity := by
    intro d hd
    rw [checkArity_eq_ok (h.ascending d hd)]
    refine forall_congr' fun n => ?_
    simp only [h.inputs d hd]
    refine iff_congr ⟨?_, ?_⟩ Iff.rfl
    · rintro ⟨k, e, he, hfiring, hord, -⟩
      exact ⟨e, he, hfiring, hord⟩
    · rintro ⟨e, he, hfiring, hord⟩
      exact ⟨_, e, he, hfiring, hord, rfl⟩
  constructor
  · intro hall e he rule hfind
    obtain ⟨d, hd, horder⟩ := (h.covers e.firing).mpr ⟨e, he, rfl⟩
    have hd' := (hentry d hd).mp (hall d hd)
    have hrule : d.rule = e.ruleId := congrArg (fun t => (ofLex (ofLex t).2).1) horder
    have hspec := h.spec d hd
    rw [hrule, hfind] at hspec
    obtain rfl := Option.some.inj hspec
    rwa [horder] at hd'
  · intro hall d hd
    refine (hentry d hd).mpr ?_
    obtain ⟨e, he, horder⟩ := (h.covers d.order).mp ⟨d, hd, rfl⟩
    have hrule : e.ruleId = d.rule := congrArg (fun t => (ofLex (ofLex t).2).1) horder
    rw [← horder]
    exact hall e he d.spec (hrule ▸ h.spec d hd)

end Fold

theorem keyOfRank_rank {t : Interner String} {id : ℕ} (h : id ∈ idsOf t) :
    keyOfRank t (t.rank id) = nameOf t id := by
  rw [keyOfRank, getD_eq_getElem?_getD, Interner.getElem?_rank (names_nameOf h), Option.getD_some]

/-- Triples of ranks compare as the triples of keys they stand for. -/
theorem rank_order_iff {rows labels : Interner String} {a b c a' b' c' : ℕ} (ha : a ∈ idsOf rows)
    (ha' : a' ∈ idsOf rows) (hb : b ∈ idsOf labels) (hb' : b' ∈ idsOf labels)
    (hc : c ∈ idsOf labels) (hc' : c' ∈ idsOf labels) :
    toLex (rows.rank a, toLex (labels.rank b, labels.rank c)) ≤
        toLex (rows.rank a', toLex (labels.rank b', labels.rank c')) ↔
      toLex (nameOf rows a, toLex (nameOf labels b, nameOf labels c)) ≤
        toLex (nameOf rows a', toLex (nameOf labels b', nameOf labels c')) := by
  simp only [Prod.Lex.toLex_le_toLex, Interner.rank_lt_iff (names_nameOf ha) (names_nameOf ha'),
    Interner.rank_eq_iff (names_nameOf ha) (names_nameOf ha'), Interner.rank_lt_iff (names_nameOf
    hb) (names_nameOf hb'), Interner.rank_eq_iff (names_nameOf hb) (names_nameOf hb'),
    Interner.rank_le_iff (names_nameOf hc) (names_nameOf hc')]

variable {acc : DerivationFold} {ix : RowIndex}

theorem rankDerivations_named (h : Folds ix acc ds) :
    (rankDerivations ix acc).map (map (nameOf ix.rows) (keyOfRank acc.labels)) =
      ds.insertionSort fun a b => a.order ≤ b.order := by
  have hranked : (acc.derivations.map fun d =>
      ({ d with rule := acc.labels.rank d.rule
                derivation := acc.labels.rank d.derivation } : Derivation ℕ ℕ)).map
        (map (nameOf ix.rows) (keyOfRank acc.labels)) = ds := by
    rw [← h.named, map_map]
    refine map_congr_left fun d hd => ?_
    have hw := h.within d hd
    simp only [Function.comp_apply, map, keyOfRank_rank hw.rule, keyOfRank_rank hw.derivation]
  rw [← hranked]
  refine map_insertionSort _ _ _ _ ?_
  simp only [mem_map, forall_exists_index, and_imp, forall_apply_eq_imp_iff₂]
  intro d hd d' hd'
  have hw := h.within d hd
  have hw' := h.within d' hd'
  simp only [map, order, keyOfRank_rank hw.rule,
    keyOfRank_rank hw.derivation, keyOfRank_rank hw'.rule, keyOfRank_rank hw'.derivation]
  exact rank_order_iff hw.result hw'.result hw.rule hw'.rule hw.derivation hw'.derivation

/-- What the checks leave behind: the index, and the proof steps over ids. -/
structure Prepares (p : Prepared) (roots results : List SemanticRow) (edges : List WitnessEdge) :
    Prop where
  indexes : Indexes p.index roots results
  rows : ∀ d ∈ p.derivations, d.result ∈ idsOf p.index.rows ∧
    ∀ q ∈ d.inputs, q.2 ∈ idsOf p.index.rows
  named : ∃ g : ℕ → String, p.derivations.map (map (nameOf p.index.rows) g) = proofSteps edges

section Prepare

variable {roots : List RootedInputFact} {raw : RawWpaEvaluation} {p : Prepared}

theorem folds_empty (ix : RowIndex) : Folds ix ⟨.empty, []⟩ [] := ⟨by simp, rfl⟩

theorem forM_checkArity_iff (h : Folds ix acc ds) :
    (rankDerivations ix acc).forM checkArity = .ok () ↔ ∀ d ∈ ds, checkArity d = .ok () := by
  have hperm : (ds.insertionSort fun a b => a.order ≤ b.order).Perm ds :=
    perm_insertionSort _ _
  have hall : (∀ d ∈ ds, checkArity d = .ok ()) ↔
      ∀ d ∈ ds.insertionSort (fun a b => a.order ≤ b.order), checkArity d = .ok () :=
    ⟨fun hd d hmem => hd d (hperm.mem_iff.mp hmem), fun hd d hmem => hd d (hperm.mem_iff.mpr hmem)⟩
  rw [forM_eq_ok, hall, ← rankDerivations_named h]
  simp only [mem_map, forall_exists_index, and_imp, forall_apply_eq_imp_iff₂, checkArity_map]

theorem prepare_spec (h : prepare roots raw = .ok p) :
    Admissible (rootRowsOf roots) raw.results raw.witnesses ∧
      Prepares p (rootRowsOf roots) raw.results raw.witnesses := by
  obtain ⟨ix, hindex, h⟩ := bind_eq_ok.mp h
  obtain ⟨acc, hacc, h⟩ := bind_eq_ok.mp h
  obtain ⟨hcheck, hp⟩ := bind_unit_eq_ok.mp h
  obtain rfl := pure_eq_ok.mp hp
  obtain ⟨hroots, hresults, hix⟩ := indexRows_eq_ok hindex
  obtain ⟨ds, hds, hfolds⟩ := (foldEdges_sim hix raw.witnesses (folds_empty ix)).1 acc hacc
  obtain ⟨hnamed, hedges⟩ := foldNamed_spec hds
  have harity := hnamed.arity_iff.mp ((forM_checkArity_iff hfolds).mp hcheck)
  refine ⟨⟨hroots, hresults, fun e he => (hedges e he).1, fun e he => (hedges e he).2.1,
    fun e he => (hedges e he).2.2.1, fun e he => (hedges e he).2.2.2,
    fun e he e' he' => hnamed.functional he he', harity⟩, hix, ?_, keyOfRank acc.labels, ?_⟩
  · intro d hd
    obtain ⟨d₀, hd₀, rfl⟩ := mem_map.mp ((perm_insertionSort _ _).mem_iff.mp hd)
    have hw := hfolds.within d₀ hd₀
    exact ⟨hw.result, hw.inputs⟩
  · exact (rankDerivations_named hfolds).trans hnamed.sort

theorem prepare_isOk (h : Admissible (rootRowsOf roots) raw.results raw.witnesses) :
    ∃ p, prepare roots raw = .ok p := by
  obtain ⟨ix, hindex⟩ := indexRows_isOk h.roots_valid h.results_valid
  have hix := (indexRows_eq_ok hindex).2.2
  obtain ⟨ds, hds, hnamed⟩ :=
    foldNamed_isOk h.published h.rule h.input_valid h.cited h.functional
  obtain ⟨acc, hacc, hfolds⟩ := (foldEdges_sim hix raw.witnesses (folds_empty ix)).2 ds hds
  have hcheck := (forM_checkArity_iff hfolds).mpr (hnamed.arity_iff.mpr h.arity)
  exact ⟨_, bind_eq_ok.mpr ⟨ix, hindex, bind_eq_ok.mpr ⟨acc, hacc,
    bind_unit_eq_ok.mpr ⟨hcheck, rfl⟩⟩⟩⟩

end Prepare

end Veritas

import Veritas.Facts.BatchValidation
import Veritas.Facts.PublicationEffect

/-! How the witnesses of a closed batch are taken in and filed under their results. -/
namespace Veritas

open Ordered StatusOr List FactIdentityMemo

variable {ctx : StoreContext} {s : FactTables} {batch : AnalysisFactBatch}

/-- How an edge is filed: under its result's key, with the id and key of its input. -/
structure Filed (sha256 : String → String) (edge : MachineEdge)
    (entry : String × WitnessEdgeRef) : Prop where
  resultKey : encodeMachineKey edge.result = some entry.1
  same : entry.2.edge = edge
  inputId : deriveMachineFactId sha256 edge.input = .ok entry.2.inputFactId
  inputKey : encodeMachineKey edge.input = some entry.2.inputKey

/-- The intake after some edges. -/
structure IntakeOf (sha256 : String → String) (edges : List MachineEdge)
    (intake : WitnessIntake) : Prop where
  memo : intake.memo.Sound sha256
  filed : List.Forall₂ (Filed sha256) edges intake.filed
  missing : ∀ fact ∈ intake.missingInputFacts,
    (∃ edge ∈ edges, fact.row = edge.input) ∧ deriveMachineFactId sha256 fact.row = .ok fact.factId

variable {edges : List MachineEdge} {ref : WitnessEdgeRef} {filed : List (String × WitnessEdgeRef)}
  {key : String} {fact : MachineFact} {facts : List MachineFact} {proofs : List ResultWitness}
  {sha256 : String → String}

theorem IntakeOf.step {edge : MachineEdge}
    {intake intake' : WitnessIntake} (hi : IntakeOf sha256 edges intake) (hfits : edge.input.Fits)
    (h : takeWitness sha256 intake edge = some (.ok intake')) :
    IntakeOf sha256 (edges ++ [edge]) intake' := by
  obtain ⟨inputId, inputKey, resultKey, hid, hinput, hresult, hmemo, hfiled, hmissing⟩ :=
    takeWitness_eq_ok h
  obtain ⟨hanswer, hsound⟩ := identify_spec hi.memo hfits
  have hderive : deriveMachineFactId sha256 edge.input = .ok inputId := hanswer ▸ hid
  refine ⟨hmemo ▸ hsound, ?_, fun fact hfact => ?_⟩
  · rw [hfiled]
    exact rel_append hi.filed (.cons ⟨hresult, rfl, hderive, hinput⟩ .nil)
  · have hold : fact ∈ intake.missingInputFacts → (∃ e ∈ edges ++ [edge], fact.row = e.input) ∧
        deriveMachineFactId sha256 fact.row = .ok fact.factId := by
      intro hfact
      obtain ⟨⟨e, he, hrow⟩, hid⟩ := hi.missing fact hfact
      exact ⟨⟨e, mem_append_left _ he, hrow⟩, hid⟩
    rw [hmissing] at hfact
    by_cases hknown : inputId ∈ intake.factIds
    · rw [if_pos hknown] at hfact
      exact hold hfact
    · rw [if_neg hknown, mem_append] at hfact
      rcases hfact with hfact | hfact
      · exact hold hfact
      · rw [mem_singleton.mp hfact]
        exact ⟨⟨edge, by simp, rfl⟩, hderive⟩

theorem intakeOf_takeWitnesses {ids : List StableId}
    {intake : WitnessIntake} (hfits : ∀ e ∈ edges, e.input.Fits)
    (h : takeWitnesses sha256 ⟨empty, ids, [], []⟩ edges = some (.ok intake)) :
    IntakeOf sha256 edges intake := by
  refine takeWitnesses_invariant
    (P := fun done i => (∀ e ∈ done, e.input.Fits) → IntakeOf sha256 done i) ?_ ?_ h hfits
  · exact fun _ => ⟨empty_sound sha256, .nil, by simp⟩
  · intro done edge i i' ih htake hfits
    exact (ih fun e he => hfits e (mem_append_left _ he)).step (hfits edge (by simp)) htake

theorem takeWitnesses_isOk {intake : WitnessIntake}
    (hmemo : intake.memo.Sound sha256) (hfits : ∀ e ∈ edges, e.input.Fits)
    (hresult : ∀ e ∈ edges, validateMachineRow e.result = .ok ())
    (hinput : ∀ e ∈ edges, ∃ id, deriveMachineFactId sha256 e.input = .ok id) :
    ∃ intake', takeWitnesses sha256 intake edges = some (.ok intake') := by
  induction edges generalizing intake with
  | nil => exact ⟨intake, rfl⟩
  | cons edge edges ih =>
    obtain ⟨id, hid⟩ := hinput edge mem_cons_self
    obtain ⟨hanswer, hsound⟩ := identify_spec hmemo (hfits edge mem_cons_self)
    obtain ⟨inputKey, hinputKey⟩ := Option.isSome_iff_exists.mp
      (encodeMachineKey_isSome (validate_of_derive hid))
    obtain ⟨resultKey, hresultKey⟩ := Option.isSome_iff_exists.mp
      (encodeMachineKey_isSome (hresult edge mem_cons_self))
    rcases hpair : intake.memo.identify sha256 edge.input with ⟨answer, memo⟩
    rw [hpair] at hanswer hsound
    rw [hid] at hanswer
    obtain ⟨next, hnext, hsound'⟩ : ∃ next, takeWitness sha256 intake edge = some (.ok next) ∧
        next.memo.Sound sha256 := by
      simp only at hanswer
      rw [takeWitness, hpair, hanswer, hinputKey, hresultKey]
      exact ⟨_, rfl, hsound⟩
    rw [takeWitnesses, hnext]
    exact ih hsound' (fun e he => hfits e (mem_cons_of_mem _ he))
      (fun e he => hresult e (mem_cons_of_mem _ he))
      (fun e he => hinput e (mem_cons_of_mem _ he))

theorem mem_orderEdges {edges : List WitnessEdgeRef} :
    ref ∈ orderEdges edges ↔ ref ∈ edges := List.mem_insertionSort _

theorem mem_filedUnder :
    ref ∈ orderEdges ((filed.filter (·.1 = key)).map (·.2)) ↔ (key, ref) ∈ filed := by
  rw [mem_orderEdges, mem_map]
  constructor
  · rintro ⟨⟨k, r⟩, hmem, rfl⟩
    rw [mem_filter, decide_eq_true_eq] at hmem
    exact hmem.2 ▸ hmem.1
  · intro hmem
    exact ⟨(key, ref), mem_filter.mpr ⟨hmem, decide_eq_true rfl⟩, rfl⟩

/-- The proof filed under a key: it starts with an edge of the key. -/
theorem resultWitness_eq_ok {proof : ResultWitness} :
    resultWitness sha256 filed key = .ok proof ↔
      proof.orderedEdges = orderEdges ((filed.filter (·.1 = key)).map (·.2)) ∧
      ∃ front, proof.orderedEdges.head? = some front ∧
        deriveMachineFactId sha256 front.edge.result = .ok proof.factId ∧
        proof.witnessId = deriveWitnessId sha256 key front.edge.ruleId
          (proof.orderedEdges.map (·.inputKey)) := by
  obtain ⟨witnessId, factId, orderedEdges⟩ := proof
  unfold resultWitness
  cases hhead : (orderEdges ((filed.filter (·.1 = key)).map (·.2))).head? with
  | none =>
    simp only [hhead, throw_ne_ok, false_iff, not_and]
    rintro rfl ⟨front, hfront, -⟩
    rw [hhead] at hfront
    cases hfront
  | some front =>
    simp only [hhead, bind_eq_ok, pure_eq_ok, ResultWitness.mk.injEq]
    constructor
    · rintro ⟨id, hid, rfl, rfl, rfl⟩
      exact ⟨rfl, front, hhead, hid, rfl⟩
    · rintro ⟨rfl, front', hfront', hid, hwitness⟩
      rw [hhead] at hfront'
      cases hfront'
      exact ⟨factId, hid, hwitness.symm, rfl, rfl⟩

theorem BatchClosed.result_derived (hclosed : BatchClosed sha256 batch)
    (e : MachineEdge) (he : e ∈ batch.witnesses) :
    ∃ id, deriveMachineFactId sha256 e.result = .ok id := by
  obtain ⟨f, hf, hrow⟩ := hclosed.results e he
  exact ⟨f.factId, hrow ▸ hclosed.derived f hf⟩

theorem BatchClosed.input_derived (hclosed : BatchClosed sha256 batch)
    (e : MachineEdge) (he : e ∈ batch.witnesses) :
    ∃ id, deriveMachineFactId sha256 e.input = .ok id := by
  rcases hclosed.inputs e he with ⟨f, hf, hrow⟩ | ⟨id, -, hid⟩
  · exact ⟨f.factId, hrow ▸ hclosed.derived f hf⟩
  · exact ⟨id, hid⟩

theorem BatchClosed.result_valid (hclosed : BatchClosed sha256 batch)
    (e : MachineEdge) (he : e ∈ batch.witnesses) : validateMachineRow e.result = .ok () := by
  obtain ⟨id, hid⟩ := hclosed.result_derived e he
  exact validate_of_derive hid

theorem BatchClosed.intake (hclosed : BatchClosed sha256 batch)
    (hfits : batch.Fits) : ∃ intake, takeWitnesses sha256 ⟨empty,
      batch.facts.map (·.factId), [], []⟩ batch.witnesses = some (.ok intake) :=
  takeWitnesses_isOk (empty_sound sha256)
    (fun e he => (hfits.witnesses e he).2) hclosed.result_valid hclosed.input_derived

/-! A batch with a single proof, whose only input is rooted. -/

def rowFact (sha256 : String → String) (row : MachineRow) : MachineFact :=
  ⟨⟨.fact, sha256 row.preimage⟩, row⟩

def oneProofDraft (sha256 : String → String) (ruleId : String) (result input : MachineRow) :
    AnalysisFactBatch where
  batchId := ⟨.fact, ""⟩
  run := ⟨⟨.analysisRun, "r"⟩, .souffle⟩
  expectedComponents := []
  completedComponents := []
  rootedInputFactIds := [(rowFact sha256 input).factId]
  rootedInputFacts := []
  facts := [rowFact sha256 result]
  witnesses := [⟨result, ruleId, "", input, 0⟩]
  diagnostics := []

def oneProofBatch (sha256 : String → String) (ruleId : String) (result input : MachineRow) :
    AnalysisFactBatch :=
  { oneProofDraft sha256 ruleId result input with
    batchId := (deriveBatchId sha256 (oneProofDraft sha256 ruleId result input)).getD ⟨.fact, ""⟩ }

/-! A store whose digests tell one row from all other texts. -/

def repeatedDigest (c : Char) : String := String.ofList (List.replicate 64 c)

/-- A function that calls itself at a site, and what it therefore reaches. -/
def siteCall (site : Char) : MachineRow :=
  ⟨RelationId.directCall.toMachine, [.stableId ⟨.callSite, repeatedDigest site⟩,
    .stableId ⟨.functionVariant, repeatedDigest 'f'⟩,
    .stableId ⟨.functionVariant, repeatedDigest 'f'⟩, .dispatchKind 0, .epistemic 0]⟩

def siteReach : MachineRow :=
  ⟨RelationId.reachableCall.toMachine, [.stableId ⟨.functionVariant, repeatedDigest 'f'⟩,
    .stableId ⟨.functionVariant, repeatedDigest 'f'⟩, .epistemic 0]⟩

def sampleSha (text : String) : String :=
  repeatedDigest (if text = siteReach.preimage then '0' else '1')

def sampleContext : StoreContext where
  sha256 := sampleSha
  wire := tableWire [(rowFact sampleSha siteReach).proto, (rowFact sampleSha (siteCall 'c')).proto]
  identity := "8:1"
  bindingRows := 1
  digest_hex := by
    intro text c hc
    rw [sampleSha, repeatedDigest, String.toList_ofList] at hc
    rw [eq_of_mem_replicate hc]
    split <;> decide

def sampleBatch : AnalysisFactBatch := oneProofBatch sampleSha "reach.base" siteReach (siteCall 'c')

end Veritas

import Veritas.Facts.AnalysisFactBus
import Veritas.Library.Matching

/-! What the bytes behind a batch id determine of the batch. -/
namespace Veritas

open FieldCode Matching Option String

/-- The bytes `DeriveBatchId` hashes: its id with the bytes themselves in place of their digest. -/
def batchStream (batch : AnalysisFactBatch) : Option String :=
  (deriveBatchId id batch).map (·.digestHex)

theorem deriveBatchId_eq_stream (sha256 : String → String) (batch : AnalysisFactBatch) :
    deriveBatchId sha256 batch = (batchStream batch).map fun bytes => ⟨.fact, sha256 bytes⟩ := by
  rw [batchStream, deriveBatchId, deriveBatchId]
  cases batch.facts.mapM factField with
  | none => rfl
  | some facts => cases batch.witnesses.mapM edgeFields <;> rfl

def keyText (row : MachineRow) : String := (encodeMachineKey row).getD ""

def componentWords (key : WpaComponentKey) : List String :=
  [key.sccId.toString, key.component.ordinal.repr]

def completionWords (completion : WpaComponentCompletion) : List String :=
  componentWords completion.key ++ [completion.resultObjectKey, completion.result.logicalInputHash,
    completion.result.fixpointHash, completion.result.externalHash]

def edgeWords (edge : MachineEdge) : List String :=
  [keyText edge.result, edge.ruleId, keyText edge.input, edge.inputOrdinal.repr]

def batchWords (batch : AnalysisFactBatch) : List String :=
  batch.run.runId.toString :: (batch.expectedComponents.flatMap componentWords ++
    (batch.completedComponents.flatMap completionWords ++
      (batch.rootedInputFactIds.flatMap (fun id => [id.toString]) ++
        ((batch.facts.map (·.row)).flatMap (fun row => [keyText row]) ++
          (batch.witnesses.flatMap edgeWords ++ batch.diagnostics)))))

/-- What the stream leaves out of a completion. -/
def WpaComponentCompletion.unwritten (completion : WpaComponentCompletion) : WpaComponentResult :=
  { completion.result with logicalInputHash := "", fixpointHash := "", externalHash := "" }

/-- Two batches agree in what the stream does not show: the lengths of the lists, and the parts of
completions and edges that are not written. -/
structure SameUnwritten (b b' : AnalysisFactBatch) : Prop where
  components : b.expectedComponents.length = b'.expectedComponents.length
  results : b.completedComponents.map (·.unwritten) = b'.completedComponents.map (·.unwritten)
  roots : b.rootedInputFactIds.length = b'.rootedInputFactIds.length
  facts : b.facts.length = b'.facts.length
  derivations : b.witnesses.map (·.derivationKey) = b'.witnesses.map (·.derivationKey)

/-- The two batches hold the same. -/
structure SameBatch (b b' : AnalysisFactBatch) : Prop where
  components : b.expectedComponents = b'.expectedComponents
  completions : b.completedComponents = b'.completedComponents
  roots : b.rootedInputFactIds = b'.rootedInputFactIds
  rows : b.facts.map (·.row) = b'.facts.map (·.row)
  witnesses : b.witnesses = b'.witnesses
  diagnostics : b.diagnostics = b'.diagnostics

/-- Every row of the batch passes the schema check. -/
structure RowsValid (b : AnalysisFactBatch) : Prop where
  facts : ∀ f ∈ b.facts, validateMachineRow f.row = .ok ()
  edges : ∀ e ∈ b.witnesses, validateMachineRow e.result = .ok () ∧ validateMachineRow e.input = .ok ()

variable {b b' : AnalysisFactBatch} {s : String}

section Fields

variable {α : Type} {block : α → List String}

theorem concat_append (as bs : List String) :
    concat field (as ++ bs) = concat field as ++ concat field bs := by
  induction as with
  | nil => rfl
  | cons a as ih => simp only [List.cons_append, concat, ih, append_assoc]

theorem concat_flatMap {encode : α → String} (h : ∀ a, encode a = concat field (block a))
    (l : List α) : concat encode l = concat field (l.flatMap block) := by
  induction l with
  | nil => rfl
  | cons a l ih => rw [concat, ih, h, List.flatMap_cons, concat_append]

theorem join_of_mapM {encode : α → Option String}
    (h : ∀ a text, encode a = some text → text = concat field (block a)) {l : List α}
    {texts : List String} (hl : l.mapM encode = some texts) :
    String.join texts = concat field (l.flatMap block) := by
  induction l generalizing texts with
  | nil =>
    obtain rfl := some.inj hl
    rfl
  | cons a l ih =>
    rw [List.mapM_cons, bind_eq_bind, bind_eq_some_iff] at hl
    obtain ⟨text, htext, hl⟩ := hl
    obtain ⟨rest, hrest, hl⟩ := bind_eq_some_iff.mp hl
    obtain rfl := some.inj hl
    rw [join_cons, ih hrest, h a text htext, List.flatMap_cons, concat_append]

/-- Blocks of one length, read back from their fields and from what the fields leave out. -/
theorem blocks_append_inj {R : α → α → Prop} (hlen : ∀ a c, (block a).length = (block c).length)
    {as bs : List α} (hR : List.Forall₂ R as bs)
    (hinj : ∀ a ∈ as, ∀ c ∈ bs, block a = block c → R a c → a = c) {r r' : List String}
    (h : as.flatMap block ++ r = bs.flatMap block ++ r') : as = bs ∧ r = r' := by
  have hmem : List.Forall₂ (fun a c => (a ∈ as ∧ c ∈ bs) ∧ R a c) as bs :=
    List.forall₂_iff_zip.mpr ⟨hR.length_eq, fun hac =>
      ⟨List.of_mem_zip hac, (List.forall₂_iff_zip.mp hR).2 hac⟩⟩
  refine flatMap_append_inj (fun a c s s' hac heq => ?_) hmem h
  obtain ⟨hblock, hs⟩ := List.append_inj heq (hlen a c)
  exact ⟨hinj a hac.1.1 c hac.1.2 hblock hac.2, hs⟩

end Fields

theorem batchStream_words (h : batchStream b = some s) :
    s = "veritas.analysis-fact-batch.v2" ++ concat field (batchWords b) := by
  obtain ⟨id, hid, rfl⟩ := map_eq_some_iff.mp h
  rw [deriveBatchId, bind_eq_bind, bind_eq_some_iff] at hid
  obtain ⟨facts, hfacts, hid⟩ := hid
  obtain ⟨witnesses, hwitnesses, hid⟩ := bind_eq_some_iff.mp hid
  obtain rfl := some.inj hid
  have hfact : String.join facts = concat field (b.facts.flatMap fun f => [keyText f.row]) := by
    refine join_of_mapM (fun f text htext => ?_) hfacts
    obtain ⟨key, hkey, rfl⟩ := map_eq_some_iff.mp htext
    simp [concat, keyText, hkey]
  have hedge : String.join witnesses = concat field (b.witnesses.flatMap edgeWords) := by
    refine join_of_mapM (fun e text htext => ?_) hwitnesses
    obtain ⟨result, hresult, htext⟩ := bind_eq_some_iff.mp htext
    obtain ⟨input, hinput, htext⟩ := bind_eq_some_iff.mp htext
    obtain rfl := some.inj htext
    simp [concat, edgeWords, keyText, hresult, hinput, append_assoc]
  have hcomponents : concat componentFields b.expectedComponents = _ :=
    @concat_flatMap _ componentWords _ (fun k => by simp [componentFields, componentWords, concat]) _
  have hcompletions : concat completionFields b.completedComponents = _ :=
    @concat_flatMap _ completionWords _ (fun c => by simp [completionFields, componentFields,
      completionWords, componentWords, concat, append_assoc]) _
  have hroots : concat (fun id => field id.toString) b.rootedInputFactIds = _ :=
    @concat_flatMap _ (fun id => [id.toString]) _ (fun id => by simp [concat]) _
  simp only [batchWords, concat, concat_append, hfact, hedge, hcomponents, hcompletions, hroots,
    id_eq, List.flatMap_map, append_assoc]

theorem keyText_inj {r r' : MachineRow} (hr : validateMachineRow r = .ok ())
    (hr' : validateMachineRow r' = .ok ()) (h : keyText r = keyText r') : r = r' := by
  obtain ⟨key, hkey⟩ := isSome_iff_exists.mp (encodeMachineKey_isSome hr)
  obtain ⟨key', hkey'⟩ := isSome_iff_exists.mp (encodeMachineKey_isSome hr')
  rw [keyText, keyText, hkey, hkey'] at h
  exact (encodeMachineKey_append_inj hr hr' hkey hkey' (congrArg (· ++ "") h)).1

theorem componentWords_injective : Function.Injective componentWords := by
  rintro ⟨scc, kind⟩ ⟨scc', kind'⟩ h
  simpa [componentWords, StableId.toString_injective.eq_iff, repr_injective.eq_iff,
    WpaComponentKind.ordinal_injective.eq_iff] using h

theorem completion_eq_of_words {c c' : WpaComponentCompletion}
    (h : completionWords c = completionWords c') (hrest : c.unwritten = c'.unwritten) : c = c' := by
  obtain ⟨key, object, result⟩ := c
  obtain ⟨key', object', result'⟩ := c'
  obtain ⟨hkey, hhashes⟩ := List.append_inj h rfl
  obtain rfl : key = key' := componentWords_injective hkey
  cases result
  cases result'
  simp [WpaComponentCompletion.unwritten] at hrest hhashes
  simp [hrest, hhashes]

theorem edge_eq_of_words {e e' : MachineEdge} (hb : RowsValid b) (hb' : RowsValid b')
    (he : e ∈ b.witnesses) (he' : e' ∈ b'.witnesses) (h : edgeWords e = edgeWords e')
    (hkey : e.derivationKey = e'.derivationKey) : e = e' := by
  obtain ⟨hresult, hinput⟩ := hb.edges e he
  obtain ⟨hresult', hinput'⟩ := hb'.edges e' he'
  simp only [edgeWords, List.cons.injEq, repr_injective.eq_iff, and_true] at h
  have hsame := keyText_inj hresult hresult' h.1
  have hsame' := keyText_inj hinput hinput' h.2.2.1
  cases e
  cases e'
  simp_all

/-- Streams bind their batches exactly as far as the lengths of the lists and the unwritten parts
agree. -/
theorem stream_binds_batch_iff (hb : RowsValid b) (hb' : RowsValid b') (h : batchStream b = some s)
    (h' : batchStream b' = some s) : SameBatch b b' ↔ SameUnwritten b b' := by
  constructor
  · intro h
    refine ⟨by rw [h.components], by rw [h.completions], by rw [h.roots], ?_, by rw [h.witnesses]⟩
    simpa using congrArg List.length h.rows
  · intro hleft
    have hpaired : ∀ {γ : Type} {as bs : List γ}, as.length = bs.length →
        List.Forall₂ (fun _ _ => True) as bs :=
      fun hlength => List.forall₂_iff_zip.mpr ⟨hlength, fun _ => trivial⟩
    have hempty : ∀ value : String, field value ≠ "" := by simp [field]
    have hwords := concat_inj field_prefixFree hempty ((append_right_inj _).mp
      ((batchStream_words h).symm.trans (batchStream_words h')))
    obtain ⟨-, hwords⟩ := List.cons.inj hwords
    obtain ⟨hcomponents, hwords⟩ := blocks_append_inj (fun _ _ => rfl)
      (hpaired hleft.components) (fun _ _ _ _ h _ => componentWords_injective h) hwords
    obtain ⟨hcompletions, hwords⟩ := blocks_append_inj (fun _ _ => rfl)
      (map_eq_map_iff.mp hleft.results) (fun _ _ _ _ => completion_eq_of_words) hwords
    obtain ⟨hroots, hwords⟩ := blocks_append_inj (fun _ _ => rfl) (hpaired hleft.roots)
      (fun _ _ _ _ h _ => StableId.toString_injective (List.cons.inj h).1) hwords
    have hvalid : ∀ r ∈ b.facts.map (·.row), ∀ r' ∈ b'.facts.map (·.row),
        [keyText r] = [keyText r'] → True → r = r' := by
      simp only [List.mem_map, forall_exists_index, and_imp, forall_apply_eq_imp_iff₂]
      exact fun f hf f' hf' h _ => keyText_inj (hb.facts f hf) (hb'.facts f' hf') (List.cons.inj h).1
    obtain ⟨hrows, hwords⟩ := blocks_append_inj (fun _ _ => rfl)
      (hpaired (by simpa using hleft.facts)) hvalid hwords
    obtain ⟨hwitnesses, hdiagnostics⟩ := blocks_append_inj (fun _ _ => rfl)
      (map_eq_map_iff.mp hleft.derivations)
      (fun _ he _ he' => edge_eq_of_words hb hb' he he') hwords
    exact ⟨hcomponents, hcompletions, hroots, hrows, hwitnesses, hdiagnostics⟩

/-- A batch of facts and diagnostics. -/
def looseBatch (facts : List MachineFact) (diagnostics : List String) : AnalysisFactBatch :=
  ⟨default, ⟨default, .souffle⟩, [], [], [], [], facts, [], diagnostics⟩

def selfCallRow : SemanticRow :=
  ⟨.reachableCall, [.stableId ⟨.functionVariant, "f"⟩, .stableId ⟨.functionVariant, "f"⟩,
    .epistemic .must]⟩

theorem batchStream_looseBatch (id : StableId) : ∃ s,
    batchStream (looseBatch [⟨id, selfCallRow.machine⟩] []) = some s ∧
      batchStream (looseBatch [] [encodeSemanticKey selfCallRow]) = some s := by
  have hkey := encodeMachineKey_machine selfCallRow
  simp [batchStream, deriveBatchId, looseBatch, factField, hkey, concat]

/-- The ids of facts are no part of the stream. -/
theorem renamed_fact_bound : ∃ s,
    batchStream (looseBatch [⟨default, selfCallRow.machine⟩] []) = some s ∧
    batchStream (looseBatch [⟨⟨.fact, "0"⟩, selfCallRow.machine⟩] []) = some s ∧
    SameBatch (looseBatch [⟨default, selfCallRow.machine⟩] [])
      (looseBatch [⟨⟨.fact, "0"⟩, selfCallRow.machine⟩] []) := by
  obtain ⟨s, hs, hmoved⟩ := batchStream_looseBatch default
  obtain ⟨s', hs', hmoved'⟩ := batchStream_looseBatch ⟨.fact, "0"⟩
  obtain rfl := some.inj (hmoved.symm.trans hmoved')
  have hvalid : ∀ id, RowsValid (looseBatch [⟨id, selfCallRow.machine⟩] []) := fun id =>
    ⟨by simp [looseBatch]; decide +kernel, by simp [looseBatch]⟩
  exact ⟨s, hs, hs', (stream_binds_batch_iff (hvalid _) (hvalid _) hs hs').mpr
    ⟨rfl, rfl, rfl, rfl, rfl⟩⟩

/-- A fact moved to the diagnostics as its key leaves the stream as it was. -/
theorem fact_moves_to_diagnostics : (∃ s,
      batchStream (looseBatch [⟨default, selfCallRow.machine⟩] []) = some s ∧
        batchStream (looseBatch [] [encodeSemanticKey selfCallRow]) = some s) ∧
    ¬SameBatch (looseBatch [⟨default, selfCallRow.machine⟩] [])
      (looseBatch [] [encodeSemanticKey selfCallRow]) := by
  refine ⟨batchStream_looseBatch default, fun h => ?_⟩
  cases h.rows

end Veritas

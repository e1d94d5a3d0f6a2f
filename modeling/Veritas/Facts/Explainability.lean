import Veritas.Facts.BatchAssembly
import Veritas.Facts.ExplainWalk
import Veritas.Facts.LookupIndex

/-! Bound facts over the life of a store: they can be explained while no run proves a fact in two
ways. -/
namespace Veritas

open Function FieldCode Ordered Option String List FactTables

variable {ctx : StoreContext} {known : Set MachineRow} {s s' : FactTables}
  {batch : AnalysisFactBatch}

/-- The rule and the inputs, in order of their ordinals, by which a batch derives a row. -/
def proofOf (batch : AnalysisFactBatch) (row : MachineRow) : Option String × List MachineRow :=
  let edges := (batch.witnesses.filter (·.result = row)).insertionSort fun a b =>
    a.inputOrdinal ≤ b.inputOrdinal
  (edges.head?.map (·.ruleId), edges.map (·.input))

/-- The witness id of such a proof. -/
def proofWitness (sha256 : String → String) (row : MachineRow)
    (proof : Option String × List MachineRow) : String :=
  deriveWitnessId sha256 ((encodeMachineKey row).getD "") (proof.1.getD "")
    (proof.2.map fun input => (encodeMachineKey input).getD "")

theorem filedUnder_edges {sha256 : String → String} {row : MachineRow} {key : String}
    {edges : List MachineEdge} {filed : List (String × WitnessEdgeRef)}
    (hrow : validateMachineRow row = .ok ()) (hkey : encodeMachineKey row = some key)
    (hresult : ∀ e ∈ edges, validateMachineRow e.result = .ok ())
    (h : List.Forall₂ (Filed sha256) edges filed) :
    ((filed.filter (·.1 = key)).map (·.2)).map (·.edge) = edges.filter (·.result = row) := by
  induction h with
  | nil => rfl
  | @cons edge entry edges filed hfiled _ ih =>
    obtain ⟨hedge, hrest⟩ := forall_mem_cons.mp hresult
    have hsame : entry.1 = key ↔ edge.result = row := by
      constructor
      · intro hentry
        exact encodeMachineKey_inj hedge hrow (hentry ▸ hfiled.resultKey) hkey
      · intro heq
        rw [← heq, hfiled.resultKey] at hkey
        exact some.inj hkey
    by_cases hentry : entry.1 = key
    · rw [filter_cons_of_pos (by simpa using hentry),
        filter_cons_of_pos (by simpa using hsame.mp hentry), map_cons, map_cons,
        hfiled.same, ih hrest]
    · rw [filter_cons_of_neg (by simpa using hentry),
        filter_cons_of_neg (by simpa using mt hsame.mpr hentry), ih hrest]

theorem orderEdges_edge (refs : List WitnessEdgeRef) : (orderEdges refs).map (·.edge) =
    (refs.map (·.edge)).insertionSort fun a b => a.inputOrdinal ≤ b.inputOrdinal :=
  map_insertionSort _ _ _ _ fun _ _ _ _ => Iff.rfl

/-- The proofs published with a batch: one for each fact, with the id of the batch's proof of its
row, and no others. -/
structure ProofsOf (sha256 : String → String) (batch : AnalysisFactBatch)
    (proofs : List ResultWitness) : Prop where
  origin : ∀ p ∈ proofs, ∃ f ∈ batch.facts, p.factId = f.factId ∧
    p.witnessId = proofWitness sha256 f.row (proofOf batch f.row)
  present : ∀ f ∈ batch.facts, ∃ p ∈ proofs, p.factId = f.factId

variable {f : MachineFact}

section Proofs

variable {sha256 : String → String} {intake : WitnessIntake} {proofs : List ResultWitness}
  (hclosed : BatchClosed sha256 batch) (hintake : IntakeOf sha256 batch.witnesses intake)

include hclosed hintake in
/-- What is filed under the key of a row is the proof the batch gives of it. -/
theorem witnessId_of_filed {key : String} {p : ResultWitness} (hf : f ∈ batch.facts)
    (hkey : encodeMachineKey f.row = some key) (h : resultWitness sha256 intake.filed key = .ok p) :
    p.factId = f.factId ∧ p.witnessId = proofWitness sha256 f.row (proofOf batch f.row) := by
  obtain ⟨hordered, front, hfront, hid, hwitness⟩ := resultWitness_eq_ok.mp h
  have hvalid := validate_of_derive (hclosed.derived f hf)
  have hedges : p.orderedEdges.map (·.edge) = (batch.witnesses.filter
      (·.result = f.row)).insertionSort fun a b => a.inputOrdinal ≤ b.inputOrdinal := by
    rw [hordered, orderEdges_edge, filedUnder_edges hvalid hkey hclosed.result_valid hintake.filed]
  have hinputs : p.orderedEdges.map (·.inputKey) =
      (p.orderedEdges.map (·.edge)).map fun e => (encodeMachineKey e.input).getD "" := by
    rw [List.map_map]
    refine List.map_congr_left fun ref href => ?_
    rw [hordered] at href
    obtain ⟨e, -, hfiled⟩ := exists_of_mem_forall₂ hintake.filed (mem_filedUnder.mp href)
    simp only [Function.comp_apply]
    rw [hfiled.same, hfiled.inputKey, getD_some]
  have hresult : front.edge.result = f.row := by
    have hmem : front.edge ∈ p.orderedEdges.map (·.edge) :=
      List.mem_map_of_mem (List.mem_of_head? hfront)
    rw [hedges, List.mem_insertionSort, List.mem_filter, decide_eq_true_eq] at hmem
    exact hmem.2
  constructor
  · rw [hresult, hclosed.derived f hf] at hid
    exact (Except.ok.inj hid).symm
  · rw [hwitness, hinputs, proofWitness, proofOf, ← hedges, hkey]
    simp only [List.head?_map, hfront, map_some, getD_some, List.map_map]
    rfl

include hclosed hintake in
theorem proofsOf_resultWitnesses (h : resultWitnesses sha256 intake.filed = .ok proofs) :
    ProofsOf sha256 batch proofs := by
  have hproofs := StatusOr.mapM_eq_ok.mp h
  constructor
  · intro p hp
    obtain ⟨key, hkey, hresult⟩ := exists_of_mem_forall₂ hproofs hp
    obtain ⟨⟨k, ref⟩, hentry, rfl⟩ := mem_map.mp (mem_sortUnique.mp hkey)
    obtain ⟨e, he, hfiled⟩ := exists_of_mem_forall₂ hintake.filed hentry
    obtain ⟨f, hf, hrow⟩ := hclosed.results e he
    exact ⟨f, hf, witnessId_of_filed hclosed hintake hf (hrow ▸ hfiled.resultKey) hresult⟩
  · intro f hf
    obtain ⟨e, he, hrow⟩ := hclosed.witnessed f hf
    obtain ⟨⟨key, ref⟩, hentry, hfiled⟩ := exists_of_mem_forall₂ hintake.filed.flip he
    have hmem : key ∈ sortUnique (intake.filed.map (·.1)) :=
      mem_sortUnique.mpr (mem_map_of_mem hentry)
    obtain ⟨p, hp, hresult⟩ := exists_of_mem_forall₂ hproofs.flip hmem
    exact ⟨p, hp, (witnessId_of_filed hclosed hintake hf (hrow ▸ hfiled.resultKey) hresult).1⟩

end Proofs

variable {proofs : List ResultWitness}

/-- The witness a binding names is that of the batch's proof. -/
theorem ProofsOf.witnessOf_eq {sha256 : String → String}
    (hproofs : ProofsOf sha256 batch proofs) (hunique : (batch.facts.map (·.factId)).Nodup)
    (hf : f ∈ batch.facts) : witnessOf proofs f.factId =
      some (proofWitness sha256 f.row (proofOf batch f.row)) := by
  have hsame : ∀ p ∈ proofs, ∀ g ∈ batch.facts, p.factId = g.factId →
      p.witnessId = proofWitness sha256 g.row (proofOf batch g.row) := by
    intro p hp g hg hid
    obtain ⟨g', hg', hid', hwitness⟩ := hproofs.origin p hp
    rw [hwitness, inj_on_of_nodup_map hunique hg' hg (hid'.symm.trans hid)]
  obtain ⟨p, hp, hid⟩ := hproofs.present f hf
  refine (last_eq_some fun p hp q hq hpq => ?_).mpr ⟨p, hp, hid, hsame p hp f hf hid⟩
  obtain ⟨g, hg, hidp, hwitness⟩ := hproofs.origin p hp
  rw [hwitness, hsame q hq g hg (hpq.symm.trans hidp)]

theorem ProofsOf.selectedWitnessId
    (hproofs : ProofsOf ctx.sha256 batch proofs) (hunique : (batch.facts.map (·.factId)).Nodup)
    (hf : f ∈ batch.facts) : (bindingOf batch proofs f).selectedWitnessId =
      proofWitness ctx.sha256 f.row (proofOf batch f.row) := by
  rw [bindingOf, hproofs.witnessOf_eq hunique hf, getD_some]
  exact columnText_sha256 _

def ProvenanceNode.key (node : ProvenanceNode) : String × String × String :=
  (node.runId, node.outputFactId, node.witnessId)

/-- The nodes after some proofs of a batch: old ones, and for each proof one with its key. -/
structure NodesAdded (batch : AnalysisFactBatch) (old : List ProvenanceNode)
    (proofs : List ResultWitness) (nodes : List ProvenanceNode) : Prop where
  origin : ∀ n ∈ nodes, n ∈ old ∨ ∃ p ∈ proofs, n = nodeOf batch p
  kept : ∀ n ∈ old, n ∈ nodes
  present : ∀ p ∈ proofs, ∃ n ∈ nodes, n.key = (nodeOf batch p).key
  keys : (old.map (·.key)).Nodup → (nodes.map (·.key)).Nodup

theorem nodes_addProof (batch : AnalysisFactBatch) (s : FactTables) (proof : ResultWitness) :
    (addProof batch s proof).nodes = (s.addNode (nodeOf batch proof)).nodes := by
  rw [addProof, foldl_addEdge_frame]

theorem NodesAdded.step {old : List ProvenanceNode}
    {t : FactTables} (h : NodesAdded batch old proofs t.nodes) (proof : ResultWitness) :
    NodesAdded batch old (proofs ++ [proof]) (addProof batch t proof).nodes := by
  have horigin : ∀ n ∈ t.nodes, n ∈ old ∨ ∃ p ∈ proofs ++ [proof], n = nodeOf batch p := by
    intro n hn
    refine (h.origin n hn).imp_right ?_
    rintro ⟨p, hp, rfl⟩
    exact ⟨p, mem_append_left _ hp, rfl⟩
  rw [nodes_addProof, addNode]
  by_cases hthere : ∃ n ∈ t.nodes, n.runId = (nodeOf batch proof).runId ∧
      n.outputFactId = (nodeOf batch proof).outputFactId ∧
        n.witnessId = (nodeOf batch proof).witnessId
  · rw [if_pos hthere]
    refine ⟨horigin, h.kept, fun p hp => ?_, h.keys⟩
    rcases mem_append.mp hp with hp | hp
    · exact h.present p hp
    · obtain ⟨n, hn, hrun, hfact, hwitness⟩ := hthere
      rw [mem_singleton.mp hp]
      exact ⟨n, hn, Prod.ext hrun (Prod.ext hfact hwitness)⟩
  · rw [if_neg hthere]
    refine ⟨fun n hn => ?_, fun n hn => mem_append_left _ (h.kept n hn), fun p hp => ?_,
      fun hold => ?_⟩
    · rcases mem_append.mp hn with hn | hn
      · exact horigin n hn
      · exact .inr ⟨proof, by simp, mem_singleton.mp hn⟩
    · rcases mem_append.mp hp with hp | hp
      · obtain ⟨n, hn, hkey⟩ := h.present p hp
        exact ⟨n, mem_append_left _ hn, hkey⟩
      · rw [mem_singleton.mp hp]
        exact ⟨_, mem_append_right _ (mem_singleton.mpr rfl), rfl⟩
    · rw [map_append, nodup_append]
      refine ⟨h.keys hold, nodup_singleton _, ?_⟩
      rintro key hkey key' hkey' rfl
      obtain ⟨n, hn, hnkey⟩ := mem_map.mp hkey
      obtain rfl := mem_singleton.mp hkey'
      obtain ⟨hrun, hrest⟩ := Prod.mk.inj hnkey
      obtain ⟨hfact, hwitness⟩ := Prod.mk.inj hrest
      exact hthere ⟨n, hn, hrun, hfact, hwitness⟩

theorem nodesAdded_addProofs (batch : AnalysisFactBatch) (t : FactTables)
    (proofs : List ResultWitness) :
    NodesAdded batch t.nodes proofs (proofs.foldl (addProof batch) t).nodes := by
  induction proofs using reverseRecOn with
  | nil => exact ⟨fun n hn => .inl hn, fun n hn => hn, by simp, fun h => h⟩
  | append_singleton proofs proof ih =>
    rw [foldl_append]
    exact ih.step proof

variable {missing : List MachineFact} {batches : List AnalysisFactBatch} {b : FactBinding}
  {site : Char}

theorem Committed.nodesAdded
    (h : Committed ctx s batch missing proofs s') : NodesAdded batch s.nodes proofs s'.nodes := by
  obtain ⟨t, hnodes, -, hnodes', -⟩ := h.provenance
  rw [← hnodes, hnodes']
  exact nodesAdded_addProofs batch t proofs

/-- A call of `Publish`; one that fails rolls its transaction back. -/
def publishOne (ctx : StoreContext) (s : FactTables) (batch : AnalysisFactBatch) :
    Option FactTables :=
  (publish ctx s batch).map fun answer =>
    match answer with
    | .ok s' => s'
    | .error _ => s

def publishAll (ctx : StoreContext) (s : FactTables) (batches : List AnalysisFactBatch) :
    Option FactTables :=
  batches.foldlM (publishOne ctx) s

/-- Two batches of one run derive what they both derive by the same proof. -/
def SameProofs (first second : AnalysisFactBatch) : Prop :=
  first.run.runId.column = second.run.runId.column → ∀ f ∈ first.facts, ∀ g ∈ second.facts,
    f.row = g.row → proofOf first f.row = proofOf second g.row

/-- A batch that passed the bus, of known rows whose texts the codec reads back. -/
structure ReadableBatch (ctx : StoreContext) (known : Set MachineRow) (batch : AnalysisFactBatch) :
    Prop where
  fits : batch.Fits
  valid : validateBatch ctx.sha256 batch = some (.ok ())
  known : KnownBatch known batch
  utf8 : ∀ f ∈ batch.facts, ∀ text ∈ f.proto.texts, ctx.wire.utf8 text

theorem ReadableBatch.closed (h : ReadableBatch ctx known batch) : BatchClosed ctx.sha256 batch :=
  ((validateBatch_eq_ok h.fits).mp h.valid).2.2.2.2

/-- The store after some batches: a binding names the proof of the batch it comes from, and every
node is the one that a current binding names. -/
structure ProvenanceInv (ctx : StoreContext) (known : Set MachineRow)
    (batches : List AnalysisFactBatch) (s : FactTables) : Prop where
  store : CanonicalStore ctx known s
  keys : (s.nodes.map (·.key)).Nodup
  selected : ∀ n ∈ s.nodes, n.selected = true
  origin : ∀ b ∈ s.currentBindings, ∃ batch ∈ batches, ∃ f ∈ batch.facts,
    b.key = (batch.run.runId.column, f.factId.column) ∧
      b.selectedWitnessId = proofWitness ctx.sha256 f.row (proofOf batch f.row)
  present : ∀ b ∈ s.currentBindings, ∃ n ∈ s.nodes, (n.runId, n.outputFactId) = b.key
  named : ∀ n ∈ s.nodes, ∃ b ∈ s.currentBindings, b.key = (n.runId, n.outputFactId) ∧
    b.selectedWitnessId = n.witnessId

theorem ProvenanceInv.mono {batches' : List AnalysisFactBatch}
    (hs : ProvenanceInv ctx known batches s) (h : ∀ b ∈ batches, b ∈ batches') :
    ProvenanceInv ctx known batches' s := by
  refine ⟨hs.store, hs.keys, hs.selected, fun b hb => ?_, hs.present, hs.named⟩
  obtain ⟨batch, hbatch, horigin⟩ := hs.origin b hb
  exact ⟨batch, h batch hbatch, horigin⟩

theorem ProvenanceInv.commit (hfree : CollisionFree ctx known)
    (hs : ProvenanceInv ctx known batches s) (hread : ∀ b ∈ batches, ReadableBatch ctx known b)
    (hbatch : ReadableBatch ctx known batch) (hsame : ∀ b ∈ batches, SameProofs b batch)
    (hproofs : ProofsOf ctx.sha256 batch proofs)
    (hrows : ∀ f ∈ batch.facts ++ missing, f.row ∈ known)
    (h : Committed ctx s batch missing proofs s') :
    ProvenanceInv ctx known (batches ++ [batch]) s' := by
  have hadded := h.nodesAdded
  have hclosed := hbatch.closed
  have hwitness : ∀ f ∈ batch.facts, (bindingOf batch proofs f).selectedWitnessId =
      proofWitness ctx.sha256 f.row (proofOf batch f.row) :=
    fun f hf => hproofs.selectedWitnessId hclosed.unique hf
  refine ⟨h.canonicalStore hs.store hrows, hadded.keys hs.keys, fun n hn => ?_, fun b hb => ?_,
    fun b hb => ?_, fun n hn => ?_⟩
  · rcases hadded.origin n hn with hn | ⟨p, -, rfl⟩
    · exact hs.selected n hn
    · rfl
  · rcases (h.current b).mp hb with ⟨hb, -⟩ | ⟨f, hf, rfl⟩
    · obtain ⟨old, hold, horigin⟩ := hs.origin b hb
      exact ⟨old, mem_append_left _ hold, horigin⟩
    · exact ⟨batch, by simp, f, hf, rfl, hwitness f hf⟩
  · rcases (h.current b).mp hb with ⟨hb, -⟩ | ⟨f, hf, rfl⟩
    · obtain ⟨n, hn, hkey⟩ := hs.present b hb
      exact ⟨n, hadded.kept n hn, hkey⟩
    · obtain ⟨p, hp, hid⟩ := hproofs.present f hf
      obtain ⟨n, hn, hkey⟩ := hadded.present p hp
      obtain ⟨hrun, hrest⟩ := Prod.mk.inj hkey
      refine ⟨n, hn, Prod.ext hrun ((Prod.mk.inj hrest).1.trans ?_)⟩
      rw [nodeOf, hid]
      rfl
  · rcases hadded.origin n hn with hn | ⟨p, hp, rfl⟩
    · obtain ⟨b, hb, hkey, hnamed⟩ := hs.named n hn
      by_cases hfresh : ∀ f ∈ batch.facts, b.key ≠ (bindingOf batch proofs f).key
      · exact ⟨b, (h.current b).mpr (.inl ⟨hb, hfresh⟩), hkey, hnamed⟩
      · -- the binding is replaced, by one that names the same proof
        push Not at hfresh
        obtain ⟨f, hf, hbound⟩ := hfresh
        obtain ⟨old, hold, g, hg, horigin, holdWitness⟩ := hs.origin b hb
        obtain ⟨hrun, hcolumn⟩ := Prod.mk.inj (horigin.symm.trans hbound)
        have hgf : g = f := hfree.fact_eq ((hread old hold).known.facts g hg)
          (hbatch.known.facts f hf) ((hread old hold).closed.derived g hg) (hclosed.derived f hf)
          hcolumn
        subst hgf
        refine ⟨_, (h.current _).mpr (.inr ⟨g, hf, rfl⟩), hbound.symm.trans hkey, ?_⟩
        rw [hwitness g hf, ← hsame old hold hrun g hg g hf rfl, ← holdWitness, hnamed]
    · obtain ⟨f, hf, hid, hpw⟩ := hproofs.origin p hp
      refine ⟨_, (h.current _).mpr (.inr ⟨f, hf, rfl⟩), ?_, ?_⟩
      · rw [FactBinding.key, bindingOf, nodeOf, hid]
      · rw [hwitness f hf, ← hpw]
        rfl

/-- One call keeps the invariant, whether it commits, fails or repeats an earlier delivery. -/
theorem ProvenanceInv.step (hfree : CollisionFree ctx known)
    (hs : ProvenanceInv ctx known batches s) (hread : ∀ b ∈ batches, ReadableBatch ctx known b)
    (hbatch : ReadableBatch ctx known batch) (hsame : ∀ b ∈ batches, SameProofs b batch) :
    ∃ s', publishOne ctx s batch = some s' ∧ ProvenanceInv ctx known (batches ++ [batch]) s' := by
  have hclosed := hbatch.closed
  have hshort : ∀ e ∈ batch.witnesses, e.input.Fits := fun e he => (hbatch.fits.witnesses e he).2
  obtain ⟨intake, htake⟩ := hclosed.intake hbatch.fits
  have hkept : ProvenanceInv ctx known (batches ++ [batch]) s :=
    hs.mono fun b hb => mem_append_left _ hb
  cases hpublish : publish ctx s batch with
  | none => simp [publish, htake] at hpublish
  | some answer =>
    rw [publishOne, hpublish]
    cases answer with
    | error status => exact ⟨s, rfl, hkept⟩
    | ok s' =>
      refine ⟨s', rfl, ?_⟩
      rcases publish_cases hpublish with ⟨rfl, -⟩ | ⟨intake', proofs, htake', hproofs, hcommit⟩
      · exact hkept
      · have hintake := intakeOf_takeWitnesses hshort htake'
        refine hs.commit hfree hread hbatch hsame
          (proofsOf_resultWitnesses hclosed hintake hproofs) (fun f hf => ?_) hcommit
        rcases mem_append.mp hf with hf | hf
        · exact hbatch.known.facts f hf
        · obtain ⟨⟨e, he, hrow⟩, -⟩ := hintake.missing f hf
          exact hrow ▸ hbatch.known.inputs e he

theorem provenanceInv_publishAll (hfree : CollisionFree ctx known)
    (hread : ∀ b ∈ batches, ReadableBatch ctx known b) (hsame : batches.Pairwise SameProofs) :
    ∃ s, publishAll ctx .empty batches = some s ∧ ProvenanceInv ctx known batches s := by
  refine foldlM_goesOn (ProvenanceInv ctx known) ?_ fun done batch rest hsplit s hs => ?_
  · exact ⟨(openedStore_empty ctx known).store, nodup_nil, by simp [empty],
      by simp [empty, currentBindings],
      by simp [empty, currentBindings], by simp [empty]⟩
  · have hdone : ∀ b ∈ done, b ∈ batches := fun b hb => by simp [hsplit, hb]
    rw [hsplit, pairwise_append] at hsame
    exact hs.step hfree (fun b hb => hread b (hdone b hb)) (hread batch (by simp [hsplit]))
      fun b hb => hsame.2.2 b hb batch mem_cons_self

theorem ProvenanceInv.oneProofEach (hs : ProvenanceInv ctx known batches s) : OneProofEach s :=
  ⟨hs.store.unique, hs.keys, hs.selected, hs.named⟩

theorem ProvenanceInv.startable (hfree : CollisionFree ctx known)
    (hs : ProvenanceInv ctx known batches s) (hread : ∀ b ∈ batches, ReadableBatch ctx known b)
    {runId factId : StableId} (hbound : s.currentBinding runId.column factId.column = some b) :
    Startable ctx s runId factId b := by
  obtain ⟨hb, hkey'⟩ := currentBinding_spec hbound
  obtain ⟨row, hrow⟩ := isSome_iff_exists.mp (hs.store.bound b hb)
  obtain ⟨fact, hknown, hcolumn, hstored⟩ := hs.store.stored _ row hrow
  obtain ⟨batch, hbatch, f, hf, hkey, -⟩ := hs.origin b hb
  have hsame : fact = f := hfree.fact_eq hknown ((hread batch hbatch).known.facts f hf)
    hstored.derive ((hread batch hbatch).closed.derived f hf)
    (hcolumn.trans (Prod.mk.inj hkey).2)
  obtain ⟨bytes, hbytes, rfl⟩ := hstored.serialize
  rw [(Prod.mk.inj hkey').2] at hrow
  refine ⟨hbound, _, bytes, fact.proto, hrow, hexDecode_hexEncode (ctx.wire.bytes _ _ hbytes), ?_⟩
  exact ctx.wire.parse_serialize _ _ hbytes (hsame ▸ (hread batch hbatch).utf8 f hf)

/-- After any sequence of valid, readable batches in which no run proves a fact in two ways, every
bound fact can be explained within a large enough budget, and the witness reported as selected is
the one its binding names. -/
theorem bound_facts_explainable {batches : List AnalysisFactBatch}
    (hfree : CollisionFree ctx known) (hread : ∀ b ∈ batches, ReadableBatch ctx known b)
    (hsame : batches.Pairwise SameProofs) :
    ∃ s, publishAll ctx .empty batches = some s ∧ ∀ runId factId b,
      s.currentBinding runId.column factId.column = some b → ∃ enough, ∀ budget : ExplainBudget,
        enough ≤ budget.maxDepth → enough ≤ budget.maxNodes → enough ≤ budget.maxEdges →
        ∃ graph, explain ctx s runId factId budget = some (.ok graph) ∧ graph.truncated = false ∧
          graph.binding = b ∧
          (∃ node ∈ graph.nodes, node.outputFactId = factId.toString ∧ node.selected = true) ∧
          ∀ node ∈ graph.nodes, node.outputFactId = factId.toString → node.selected = true →
            node.witnessId = b.selectedWitnessId := by
  obtain ⟨s, hpublished, hs⟩ := provenanceInv_publishAll hfree hread hsame
  refine ⟨s, hpublished, fun runId factId b hb => ?_⟩
  refine ⟨(s.edges.length + 1) * (s.edges.length + 1), fun budget hdepth hnodes hedges => ?_⟩
  have hsquare : s.edges.length + 1 ≤ (s.edges.length + 1) * (s.edges.length + 1) :=
    Nat.le_mul_of_pos_left _ (Nat.succ_pos _)
  refine explain_complete hs.oneProofEach (hs.startable hfree hread hb)
    (hs.present b (currentBinding_spec hb).1) (hsquare.trans hdepth) (hsquare.trans hnodes)
    (le_trans ?_ hedges)
  exact Nat.mul_le_mul_left _ (Nat.le_succ _)

theorem sample_explainable : ∃ s b, publishAll sampleContext .empty [sampleBatch] = some s ∧
    s.currentBinding sampleBatch.run.runId.column (rowFact sampleSha siteReach).factId.column =
      some b ∧ ∃ budget graph, explain sampleContext s sampleBatch.run.runId
        (rowFact sampleSha siteReach).factId budget = some (.ok graph) ∧ graph.binding = b := by
  have hread : ReadableBatch sampleContext {siteReach, siteCall 'c'} sampleBatch :=
    ⟨⟨by decide +kernel, by decide +kernel⟩, by decide +kernel, sample_known, fun _ _ _ _ => trivial⟩
  obtain ⟨s, hs, hexplained⟩ := bound_facts_explainable sample_collisionFree
    (forall_mem_singleton.mpr hread) (pairwise_singleton _ _)
  obtain ⟨s', -, hs', -⟩ := sampleBatch_indexed
  have hsame : s' = s := by
    simpa [publishAll, publishOne, hs'] using hs
  rcases publish_cases hs' with ⟨-, hthere⟩ | ⟨intake, proofs, -, -, hcommit⟩
  · cases hthere
  · have hcurrent := (hcommit.current _).mpr (.inr ⟨_, mem_cons_self, rfl⟩)
    have hb := (hcommit.unique nodup_nil).currentBinding_eq hcurrent
    rw [hsame] at hb
    obtain ⟨enough, hbudget⟩ := hexplained sampleBatch.run.runId _ _ hb
    obtain ⟨graph, hgraph, -, hbinding, -⟩ := hbudget
      ⟨enough, enough, true, true, true, enough, false⟩ le_rfl le_rfl le_rfl
    exact ⟨s, _, hs, hb, _, graph, hgraph, hbinding⟩

instance : Std.Total nodeOrder where
  total a b := by
    unfold nodeOrder
    cases a.selected <;> cases b.selected <;> simp [le_total]

instance : IsTrans ProvenanceNode nodeOrder where
  trans a b c hab hbc := by
    rcases hab with ⟨ha, hb⟩ | ⟨hab, hle⟩
    · rcases hbc with ⟨hb', -⟩ | ⟨hbc, -⟩
      · rw [hb] at hb'
        cases hb'
      · exact .inl ⟨ha, hbc ▸ hb⟩
    · rcases hbc with ⟨hb, hc⟩ | ⟨hbc, hle'⟩
      · exact .inl ⟨hab.trans hb, hc⟩
      · exact .inr ⟨hab.trans hbc, hle.trans hle'⟩

/-- Beside the proof that the binding names, a selected one with a smaller id hides it. -/
theorem explain_stale {runId factId : StableId} {n : ProvenanceNode}
    (hstart : Startable ctx s runId factId b) (hn : n ∈ s.nodes)
    (hkey : (n.runId, n.outputFactId) = b.key) (hselected : n.selected = true)
    (hlt : n.witnessId < b.selectedWitnessId) (budget : ExplainBudget) :
    explain ctx s runId factId budget = some (.error
      (.failedPrecondition "selected provenance binding is stale or missing")) := by
  obtain ⟨hcurrent, hbound⟩ := currentBinding_spec hstart.bound
  obtain ⟨hmem, hisCurrent⟩ := mem_currentBindings.mp hcurrent
  obtain ⟨hrun, hfact⟩ := Prod.mk.inj (hkey.trans hbound)
  obtain ⟨hrun', hfact'⟩ := Prod.mk.inj hbound
  have hin : n ∈ nodeRows s runId.toString factId.toString budget.selectedOnly :=
    mem_nodeRows.mpr ⟨hn, hrun, hfact, fun _ => hselected⟩
  obtain ⟨proto, hproto⟩ := hstart.start
  rw [explain, hproto]
  simp only
  rw [explainLoop, if_neg (Nat.not_lt_zero _)]
  cases hrows : nodeRows s runId.toString factId.toString budget.selectedOnly with
  | nil =>
    rw [hrows] at hin
    cases hin
  | cons first others =>
    have hle : first.witnessId ≤ n.witnessId := by
      have hsorted : (nodeRows s runId.toString factId.toString budget.selectedOnly).Pairwise
          nodeOrder := pairwise_insertionSort nodeOrder _
      rw [hrows] at hsorted hin
      rcases mem_cons.mp hin with rfl | hin
      · exact le_rfl
      · rcases (pairwise_cons.mp hsorted).1 n hin with ⟨-, hno⟩ | ⟨-, hle⟩
        · rw [hselected] at hno
          cases hno
        · exact hle
    have hmatch : selectedMatches s runId.toString factId.toString first = false := by
      unfold selectedMatches
      split
      · rename_i binding hsingle
        have hlisted : b ∈ s.bindings.filter fun b => b.runId = columnText runId.toString ∧
            b.factId = columnText factId.toString ∧ b.isCurrent :=
          mem_filter.mpr ⟨hmem, decide_eq_true ⟨hrun', hfact', hisCurrent⟩⟩
        rw [hsingle] at hlisted
        rw [← mem_singleton.mp hlisted]
        refine decide_eq_false fun h => ?_
        exact absurd (h.2 ▸ hle) (not_le.mpr hlt)
      · rfl
    simp only [hmatch]
    rfl

/-- The characters of a text as the digits of a number. -/
def textNumber : List Char → ℕ
  | [] => 0
  | c :: cs => c.toNat + 1 + 1114113 * textNumber cs

theorem textNumber_injective : Injective textNumber := by
  have hbound : ∀ c : Char, c.val.toNat < 1114112 := by
    intro c
    have hvalid := c.valid
    rw [UInt32.isValidChar, Nat.isValidChar] at hvalid
    omega
  intro cs
  induction cs with
  | nil =>
    intro ds h
    cases ds with
    | nil => rfl
    | cons d ds =>
      simp only [textNumber] at h
      omega
  | cons c cs ih =>
    intro ds h
    cases ds with
    | nil => simp [textNumber] at h
    | cons d ds =>
      simp only [textNumber, Char.toNat] at h
      have hc := hbound c
      have hd := hbound d
      rw [ih (show textNumber cs = textNumber ds by omega),
        Char.toNat_inj.mp (show c.val.toNat = d.val.toNat by omega)]

/-- A digest without collisions, short on the texts of a table. -/
def tableDigest (texts : List String) (text : String) : String :=
  (if text ∈ texts then texts.idxOf text else texts.length + textNumber text.toList).repr

theorem tableDigest_injective (texts : List String) : Injective (tableDigest texts) := by
  intro text text' h
  have h := FieldCode.repr_injective h
  split_ifs at h with hmem hmem' hmem'
  · exact (idxOf_inj hmem).mp h
  · have hlt := idxOf_lt_length_of_mem hmem
    omega
  · have hlt := idxOf_lt_length_of_mem hmem'
    omega
  · exact toList_inj.mp (textNumber_injective (Nat.add_left_cancel h))

def selfCallAt (site : String) : MachineRow :=
  ⟨RelationId.directCall.toMachine, [.stableId ⟨.callSite, site⟩, .stableId ⟨.functionVariant, "f"⟩,
    .stableId ⟨.functionVariant, "f"⟩, .dispatchKind 0, .epistemic 0]⟩

def siteFacts : List String :=
  [selfReach.preimage, (selfCallAt "c").preimage, (selfCallAt "d").preimage]

/-- What is hashed for two batches that prove one fact from different sites. -/
def siteTexts : List String :=
  siteFacts ++ ["c", "d"].flatMap fun site =>
    [((deriveBatchId id (oneProofDraft (tableDigest siteFacts) "r" selfReach
      (selfCallAt site))).getD default).digestHex,
      proofWitness id selfReach (some "r", [selfCallAt site])]

def siteDigest : String → String := tableDigest siteTexts

def siteBatchAt (site : String) : AnalysisFactBatch :=
  oneProofBatch siteDigest "r" selfReach (selfCallAt site)

def siteContext : StoreContext where
  sha256 := siteDigest
  wire := tableWire ([selfReach, selfCallAt "c", selfCallAt "d"].map fun row =>
    (rowFact siteDigest row).proto)
  identity := "8:1"
  bindingRows := 1
  digest_hex := by
    intro text c hc
    by_contra hhex
    refine FieldCode.notMem_repr (Bool.eq_false_iff.mpr fun hdigit => hhex ?_) _ hc
    rw [Char.isDigit, Bool.and_eq_true, decide_eq_true_eq, decide_eq_true_eq] at hdigit
    exact decide_eq_true (.inl hdigit)

theorem siteBatches_valid : validateBatch siteDigest (siteBatchAt "c") = some (.ok ()) ∧
    validateBatch siteDigest (siteBatchAt "d") = some (.ok ()) := by
  decide +kernel

/-- The binding names the proof of the second batch, and the selected proof of the first is still
there with a smaller id. -/
theorem siteBatches_stale : ∃ s ∈ publishAll siteContext .empty [siteBatchAt "c", siteBatchAt "d"],
      ∃ b ∈ s.currentBinding (siteBatchAt "c").run.runId.column
        (rowFact siteDigest selfReach).factId.column,
      (∃ n ∈ s.nodes, (n.runId, n.outputFactId) = b.key ∧ n.selected = true ∧
        n.witnessId < b.selectedWitnessId) ∧
      ∃ row ∈ s.facts (rowFact siteDigest selfReach).factId.column,
        ∃ text ∈ (hexDecode row.cellsHex).toOption, (siteContext.wire.parse text).isSome := by
  decide +kernel

/-- Two valid batches of one run, with different proofs of one fact, after which the bound fact
cannot be explained within any budget. -/
theorem second_proof_hides_binding : ∃ (ctx : StoreContext) (first second : AnalysisFactBatch)
    (s : FactTables) (factId : StableId) (b : FactBinding), Injective ctx.sha256 ∧
      validateBatch ctx.sha256 first = some (.ok ()) ∧
      validateBatch ctx.sha256 second = some (.ok ()) ∧
      publishAll ctx .empty [first, second] = some s ∧
      s.currentBinding first.run.runId.column factId.column = some b ∧
      ∀ budget, explain ctx s first.run.runId factId budget = some (.error
        (.failedPrecondition "selected provenance binding is stale or missing")) := by
  obtain ⟨hc, hd⟩ := siteBatches_valid
  obtain ⟨s, hs, b, hb, ⟨n, hn, hkey, hselected, hlt⟩, row, hrow, text, htext, hproto⟩ :=
    siteBatches_stale
  obtain ⟨proto, hproto⟩ := isSome_iff_exists.mp hproto
  have hstart : Startable siteContext s (siteBatchAt "c").run.runId
      (rowFact siteDigest selfReach).factId b :=
    ⟨hb, row, text, proto, hrow, StatusOr.toOption_eq_some.mp htext, hproto⟩
  exact ⟨siteContext, siteBatchAt "c", siteBatchAt "d", s, _, b, tableDigest_injective _, hc, hd,
    hs, hb, explain_stale hstart hn hkey hselected hlt⟩

end Veritas

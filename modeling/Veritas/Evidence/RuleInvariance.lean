import Veritas.Evidence.EvidenceIdentity
import Veritas.Evidence.WellFormed

/-! The rules of a well-formed case read its content only, not the orders identity ignores. -/
namespace Veritas.Evidence

open Matching

section Expressions

variable {a b : Expression}

theorem Expression.reorder_refl (e : Expression) : e.Reorder e :=
  @reorder_of_value id (fun _ => .refl _) e e rfl

/-- Trees are observed as they are in an order that does not see the list's. -/
theorem observed_id {order : List CanonicalValue → List CanonicalValue}
    (horder : ∀ as bs, as.Perm bs → order as = order bs) : Observed id order where
  object := by
    intro as bs h
    have heq : List.Forall₂ (· = ·) as bs := h.imp fun p q hpq => Prod.ext hpq.1 hpq.2
    rw [List.forall₂_eq_eq_eq] at heq
    rw [heq]
  array := by
    intro as bs h
    rw [List.map_id, List.map_id] at h
    rw [h]
  order := by
    intro as bs h
    rw [List.map_id, List.map_id] at h ⊢
    exact horder as bs h

theorem Expression.Reorder.symm (h : a.Reorder b) : b.Reorder a := by
  have hvalue := h.observed (observed_id fun as bs hperm =>
    congrArg Multiset.toList (Multiset.coe_eq_coe.mpr hperm))
  exact reorder_of_value (fun l => Multiset.coe_eq_coe.mp (Multiset.coe_toList _)) hvalue.symm

theorem Expression.Reorder.kind (h : a.Reorder b) : a.kind = b.kind := (reorder_iff.mp h).1

theorem Expression.Reorder.upToOrder (h : a.Reorder b) :
    UpToOrder Expression.Reorder a.operands b.operands := by
  have hoperands := (Expression.reorder_iff.mp h).2.2.2.2
  split at hoperands
  · exact hoperands
  · exact ⟨b.operands, hoperands, .refl _⟩

/-- Nodes other than `and` and `or` keep their operands in place. -/
theorem Expression.Reorder.forall₂ (h : a.Reorder b) (hkind : a.kind.commutative = false) :
    List.Forall₂ Expression.Reorder a.operands b.operands := by
  have hoperands := (Expression.reorder_iff.mp h).2.2.2.2
  rwa [if_neg (by rw [hkind]; decide)] at hoperands

theorem Expression.Reorder.kinds (h : a.Reorder b) :
    (a.operands.map Expression.kind).Perm (b.operands.map Expression.kind) :=
  h.upToOrder.map_perm fun _ _ hab => hab.kind

theorem Expression.Reorder.everywhere {P : Expression → Prop}
    (hP : ∀ a b : Expression, a.Reorder b → P a → P b) (h : a.Reorder b) (ha : a.Everywhere P) :
    b.Everywhere P := by
  induction a using Expression.induct generalizing b with
  | node a ih =>
    obtain ⟨hnode, hoperands⟩ := Expression.everywhere_iff.mp ha
    refine Expression.everywhere_iff.mpr ⟨hP a b h hnode, fun o ho => ?_⟩
    obtain ⟨x, hx, hxo⟩ := h.upToOrder.exists_right ho
    exact ih x hx hxo (hoperands x hx)

theorem Expression.Reorder.height_le (h : a.Reorder b) {n : ℕ} (ha : a.height ≤ n) :
    b.height ≤ n := by
  induction a using Expression.induct generalizing b n with
  | node a ih =>
    obtain ⟨m, rfl⟩ : ∃ m, n = m + 1 := ⟨n - 1, by have := a.height_pos; omega⟩
    refine Expression.height_le_succ_iff.mpr fun o ho => ?_
    obtain ⟨x, hx, hxo⟩ := h.upToOrder.exists_right ho
    exact ih x hx hxo (Expression.height_le_succ_iff.mp ha x hx)

theorem Expression.Reorder.contract (h : a.Reorder b) (ha : a.Contract) : b.Contract := by
  obtain ⟨hkind, htext, -, -, -⟩ := Expression.reorder_iff.mp h
  have hlength := h.upToOrder.length_eq
  have hmem : ∀ kind, kind ∈ b.operands.map Expression.kind ↔ kind ∈ a.operands.map Expression.kind :=
    fun kind => h.kinds.symm.mem_iff
  unfold Expression.Contract at ha ⊢
  simp only [← hkind, ← htext, ← hlength, hmem]
  exact ha

theorem Expression.Reorder.nodeTyped (h : a.Reorder b) (ha : a.NodeTyped) : b.NodeTyped := by
  obtain ⟨hkind, htext, hinteger, hboolean, -⟩ := Expression.reorder_iff.mp h
  refine ⟨?_, ?_, ?_, ?_, h.contract ha.contract⟩
  · rw [← hkind, ← hboolean]
    exact ha.boolean
  · rw [← hkind, ← hinteger]
    exact ha.integer
  · rw [← hkind, ← htext]
    exact ha.text
  · exact fun kind hmem => ha.present kind (h.kinds.mem_iff.mpr hmem)

theorem Expression.Reorder.typed (h : a.Reorder b) (ha : a.Typed) : b.Typed :=
  ⟨h.everywhere (fun _ _ hab => hab.nodeTyped) ha.1, h.height_le ha.2⟩

end Expressions

section Context

variable {a b : EvidenceCase}

theorem declarations_perm (h : a.SameContent b) : (declarations a).Perm (declarations b) := by
  have hid : ∀ {α : Type} {R : α → α → Prop} {l l' : List α} {id : α → String} {kind : MemberKind},
      UpToOrder R l l' → (∀ x y, R x y → id x = id y) →
        (l.map fun x => (id x, kind)).Perm (l'.map fun x => (id x, kind)) := by
    intro α R l l' id kind hl hR
    exact hl.map_perm fun x y hxy => by rw [hR x y hxy]
  have hclaim : a.primaryClaim.id = b.primaryClaim.id := by rw [h.primaryClaim.1]
  refine (List.Perm.flatten_congr ?_).filter _
  refine .cons (hclaim ▸ .refl _) (.cons (hid h.entities ?_) (.cons (h.edges.map _)
    (.cons (hid h.paths ?_) (.cons (hid h.facts ?_) (.cons (hid h.assumptions ?_)
    (.cons (hid h.hypotheses ?_) (.cons (hid h.unknowns ?_) (.cons (hid h.constraints ?_)
    (.cons (hid h.provenance ?_) (.cons (hid h.proofObligations ?_) (.cons (hid h.summaries ?_)
    (.cons (h.dependencies.map _) (.cons (h.omissions.map _) .nil)))))))))))))
  all_goals exact fun x y hxy => by rw [hxy.1]

/-- What the rules of a member read of the rest of the case. -/
structure SameContext (a b : EvidenceCase) : Prop where
  members : memberKind? a = memberKind? b
  hypotheses : isHypothesisId a = isHypothesisId b
  segments : hasSegment a = hasSegment b
  run : a.program.analysisRunId = b.program.analysisRunId
  records : ∀ record ∈ a.provenance, ∃ record' ∈ b.provenance, record.id = record'.id ∧
    record.producer = record'.producer ∧ record.rule = record'.rule
  omissions : ∀ omission, omission ∈ a.omissions ↔ omission ∈ b.omissions

theorem sameContext (h : a.SameContent b) (hdistinct : ((declarations a).map Prod.fst).Nodup) :
    SameContext a b where
  members := by
    funext id
    rw [memberKind?, memberKind?, Ordered.find?_perm (declarations_perm h) hdistinct]
  hypotheses := by
    funext id
    have hids : (a.hypotheses.map Hypothesis.id).Perm (b.hypotheses.map Hypothesis.id) :=
      h.hypotheses.map_perm fun x y hxy => by rw [hxy.1]
    have hany : ∀ value : EvidenceCase, value.hypotheses.any (·.id = id) =
        decide (id ∈ value.hypotheses.map Hypothesis.id) := by
      intro value
      rw [Bool.eq_iff_iff]
      simp
    rw [isHypothesisId, isHypothesisId, hany, hany]
    simp only [hids.mem_iff]
  segments := by
    funext path source target
    rw [hasSegment, hasSegment, h.edges.any_eq]
  run := by rw [h.program.1]
  records := by
    intro record hrecord
    obtain ⟨record', hrecord', hsame⟩ := h.provenance.exists_left hrecord
    exact ⟨record', hrecord', by rw [hsame.1], by rw [hsame.1], by rw [hsame.1]⟩
  omissions := fun omission => h.omissions.mem_iff

end Context

section Members

variable {a b : EvidenceCase} {e e' : Expression} {id : String} (hctx : SameContext a b)
include hctx

theorem Expression.Resolved.transfer (h : e.Reorder e') (he : e.Resolved a) : e'.Resolved b := by
  rw [Expression.Resolved, ← hctx.members]
  refine h.everywhere (fun x y hxy hx => ?_) he
  obtain ⟨hkind, htext, -⟩ := Expression.reorder_iff.mp hxy
  rwa [← hkind, ← htext]

theorem Formula.transfer (h : e.Reorder e') (he : Formula a e) : Formula b e' :=
  ⟨he.1.transfer hctx h, h.kind ▸ he.2.1, h.typed he.2.2⟩

theorem ProvenanceReference.transfer (h : ProvenanceReference a id) : ProvenanceReference b id := by
  rwa [ProvenanceReference, ← hctx.members]

theorem EvidenceReference.transfer (h : EvidenceReference a id) : EvidenceReference b id := by
  rwa [EvidenceReference, ← hctx.members, ← hctx.hypotheses]

theorem ClaimRules.transfer {x y : Claim} (h : x.SameContent y)
    (hx : ClaimRules a x) : ClaimRules b y := by
  obtain ⟨hsame, hpredicate⟩ := h
  rw [hsame] at hx
  exact ⟨hx.id, hx.kind, hx.severity, hctx.members ▸ hx.subject,
    hx.predicate.1.transfer hctx hpredicate, hpredicate.typed hx.predicate.2⟩

theorem EntityRules.transfer {x y : Entity} (h : x.SameContent y)
    (hx : EntityRules a x) : EntityRules b y := by
  obtain ⟨hsame, hproperties⟩ := h
  have hkind : x.kind = y.kind := by rw [hsame]
  have hstable : x.stableId = y.stableId := by rw [hsame]
  refine ⟨hkind ▸ hx.kind, hstable ▸ hx.stableId, fun p hp => ?_⟩
  obtain ⟨q, hq, hqp⟩ := Ordered.exists_of_mem_forall₂ hproperties hp
  exact (hx.properties q hq).transfer hctx hqp.2

theorem EdgeRules.transfer {x : Edge} (hx : EdgeRules a x) : EdgeRules b x := by
  refine ⟨hx.kind, hx.epistemic, hctx.members ▸ hx.source, hctx.members ▸ hx.target,
    hx.provenance.transfer hctx, hctx.members ▸ hx.closed, fun hexpandable => ?_⟩
  obtain ⟨hkind, omission, homission, hsubject⟩ := hx.expandable hexpandable
  exact ⟨hctx.members ▸ hkind, omission, (hctx.omissions omission).mp homission, hsubject⟩

theorem PathRules.transfer {x y : Path} (h : x.SameContent y)
    (hx : PathRules a x) : PathRules b y := by
  obtain ⟨hsame, hconditions⟩ := h
  have hids : x.entityIds = y.entityIds := by rw [hsame]
  have hkind : x.kind = y.kind := by rw [hsame]
  have hfeasibility : x.feasibility = y.feasibility := by rw [hsame]
  have hprovenance : x.provenanceId = y.provenanceId := by rw [hsame]
  have hsegment : hasSegment b x = hasSegment b y := by
    funext source target
    rw [hasSegment, hasSegment, hkind]
  refine ⟨hkind ▸ hx.kind, hfeasibility ▸ hx.feasibility, ?_, fun c hc => ?_,
    hprovenance ▸ hx.provenance.transfer hctx, hids ▸ hx.length, ?_⟩
  · rw [← hids, ← hctx.members]
    exact hx.segments
  · obtain ⟨d, hd, hdc⟩ := hconditions.exists_right hc
    exact (hx.conditions d hd).transfer hctx hdc
  · rw [← hids, ← hsegment, ← hctx.segments]
    exact hx.connected

theorem FactRules.transfer {x y : Fact} (h : x.SameContent y)
    (hx : FactRules a x) : FactRules b y := by
  obtain ⟨hsame, hpredicate⟩ := h
  have hformula := hx.predicate.transfer hctx hpredicate
  rw [hsame] at hx
  refine ⟨hx.epistemic, hx.confidence, fun hderived => ?_, hx.stableId, hformula,
    hx.provenance.transfer hctx⟩
  obtain ⟨hne, record, hrecord, hid⟩ := hx.derivation hderived
  obtain ⟨record', hrecord', hid', -⟩ := hctx.records record hrecord
  exact ⟨hne, record', hrecord', hid'.symm.trans hid⟩

theorem UnknownRules.transfer {x y : Unknown} (h : x.SameContent y)
    (hx : UnknownRules a x) : UnknownRules b y := by
  obtain ⟨hsame, hproperty, hblocking⟩ := h
  have hcode : x.reasonCode = y.reasonCode := by rw [hsame]
  refine ⟨hcode ▸ hx.reasonCode, fun hinterrupted => ?_, hx.property.transfer hctx hproperty,
    fun id hid => (hx.blocking id (hblocking.mem_iff.mpr hid)).transfer hctx⟩
  obtain ⟨record, hrecord, hproducer, hrule⟩ := hx.completion (hcode ▸ hinterrupted)
  obtain ⟨record', hrecord', -, hproducer', hrule'⟩ := hctx.records record hrecord
  exact ⟨record', hrecord', hproducer'.symm.trans hproducer, hrule'.symm.trans hrule⟩

theorem ConstraintRules.transfer {x y : Constraint} (h : x.SameContent y)
    (hx : ConstraintRules a x) : ConstraintRules b y := by
  obtain ⟨hsame, hexpression⟩ := h
  have hformula := hx.expression.transfer hctx hexpression
  rw [hsame] at hx
  exact ⟨hx.epistemic, hformula, hx.provenance.transfer hctx⟩

theorem ProvenanceRules.transfer {x y : Provenance} (h : x.SameContent y)
    (hx : ProvenanceRules a x) : ProvenanceRules b y := by
  obtain ⟨hsame, hinputs⟩ := h
  have hrun : x.analysisRunId = y.analysisRunId := by rw [hsame]
  refine ⟨?_, fun id hid => (hx.inputs id (hinputs.mem_iff.mpr hid)).transfer hctx⟩
  rw [← hrun, ← hctx.run]
  exact hx.run

theorem ObligationRules.transfer {x y : ProofObligation}
    (h : x.SameContent y) (hx : ObligationRules a x) : ObligationRules b y := by
  obtain ⟨hsame, hpredicate, hbudget, -⟩ := h
  have hformula := hx.predicate.transfer hctx hpredicate
  have hbudgetRules := hx.budget
  rw [hsame] at hx
  exact ⟨hx.goalKind, hx.status, hx.pending, hx.decided, hformula,
    hbudgetRules.1.transfer hctx hbudget, hbudget.typed hbudgetRules.2⟩

theorem SummaryRules.transfer {x y : SummaryReference}
    (h : x.SameContent y) (hx : SummaryRules a x) : SummaryRules b y := by
  rw [h.1] at hx
  exact ⟨hx.summaryId, hctx.members ▸ hx.function⟩

theorem OmissionRules.transfer {x : Omission} (hx : OmissionRules a x) : OmissionRules b x :=
  ⟨hctx.members ▸ hx.subject, hctx.members ▸ hx.summary⟩

end Members

theorem ProofObligation.SameContent.isConclusive {x y : ProofObligation} (h : x.SameContent y) :
    x.isConclusive = y.isConclusive := by
  rw [h.1]
  rfl

/-- A case with the content of a well-formed one is well formed. -/
theorem WellFormed.transfer {a b : EvidenceCase} (h : a.SameContent b) (ha : WellFormed a) :
    WellFormed b := by
  have hctx := sameContext h ha.distinctIds
  have hmembers : ∀ {α : Type} {R : α → α → Prop} {P Q : α → Prop} {l l' : List α},
      UpToOrder R l l' → (∀ x y, R x y → P x → Q y) → (∀ x ∈ l, P x) → ∀ y ∈ l', Q y := by
    intro α R P Q l l' hl hPQ hP y hy
    obtain ⟨x, hx, hxy⟩ := hl.exists_right hy
    exact hPQ x y hxy (hP x hx)
  have hprogram := h.program.1
  exact {
    schemaVersion := h.schemaVersion ▸ ha.schemaVersion
    level := h.level ▸ ha.level
    verificationState := h.verificationState ▸ ha.verificationState
    context := by
      have hcontext := ha.context
      rw [hprogram] at hcontext
      exact hcontext
    run := hctx.run ▸ ha.run
    distinctIds := ((declarations_perm h).map Prod.fst).nodup_iff.mp ha.distinctIds
    claim := ha.claim.transfer hctx h.primaryClaim
    entities := hmembers h.entities (fun _ _ hxy hx => hx.transfer hctx hxy) ha.entities
    edges := fun x hx => (ha.edges x (h.edges.mem_iff.mpr hx)).transfer hctx
    paths := hmembers h.paths (fun _ _ hxy hx => hx.transfer hctx hxy) ha.paths
    facts := hmembers h.facts (fun _ _ hxy hx => hx.transfer hctx hxy) ha.facts
    assumptions := hmembers h.assumptions (fun _ _ hxy hx => hx.transfer hctx hxy.2) ha.assumptions
    hypotheses := hmembers h.hypotheses (fun _ _ hxy hx => hx.transfer hctx hxy.2) ha.hypotheses
    unknowns := hmembers h.unknowns (fun _ _ hxy hx => hx.transfer hctx hxy) ha.unknowns
    constraints := hmembers h.constraints (fun _ _ hxy hx => hx.transfer hctx hxy) ha.constraints
    provenance := hmembers h.provenance (fun _ _ hxy hx => hx.transfer hctx hxy) ha.provenance
    obligations :=
      hmembers h.proofObligations (fun _ _ hxy hx => hx.transfer hctx hxy) ha.obligations
    conclusive := by
      intro hverified
      obtain ⟨x, hx, hconclusive⟩ := ha.conclusive (h.verificationState ▸ hverified)
      obtain ⟨y, hy, hxy⟩ := h.proofObligations.exists_left hx
      exact ⟨y, hy, hxy.isConclusive ▸ hconclusive⟩
    summaries := hmembers h.summaries (fun _ _ hxy hx => hx.transfer hctx hxy) ha.summaries
    dependencies := fun x hx => ha.dependencies x (h.dependencies.mem_iff.mpr hx)
    omissions := fun x hx => (ha.omissions x (h.omissions.mem_iff.mpr hx)).transfer hctx }

end Veritas.Evidence

import Veritas.Evidence.EvidenceValidator

/-! What the validator accepts, stated member by member. -/
namespace Veritas.Evidence

open List Expression

mutual

/-- A property of every node of a tree. -/
def Expression.Everywhere (P : Expression → Prop) : Expression → Prop
  | ⟨kind, text, integer, boolean, operands⟩ =>
    P ⟨kind, text, integer, boolean, operands⟩ ∧ Expression.EverywhereIn P operands

def Expression.EverywhereIn (P : Expression → Prop) : List Expression → Prop
  | [] => True
  | expression :: expressions => expression.Everywhere P ∧ Expression.EverywhereIn P expressions

end

theorem Expression.everywhereIn_iff {P : Expression → Prop} {expressions : List Expression} :
    Expression.EverywhereIn P expressions ↔ ∀ e ∈ expressions, e.Everywhere P := by
  induction expressions with
  | nil => simp [Expression.EverywhereIn]
  | cons expression expressions ih => simp [Expression.EverywhereIn, ih]

theorem Expression.everywhere_iff {P : Expression → Prop} {expression : Expression} :
    expression.Everywhere P ↔ P expression ∧ ∀ e ∈ expression.operands, e.Everywhere P := by
  cases expression
  rw [Expression.Everywhere, everywhereIn_iff]

mutual

/-- The number of nodes on a longest branch. -/
def Expression.height : Expression → ℕ
  | ⟨_, _, _, _, operands⟩ => heightIn operands + 1

def Expression.heightIn : List Expression → ℕ
  | [] => 0
  | expression :: expressions => max expression.height (heightIn expressions)

end

theorem Expression.heightIn_le_iff {expressions : List Expression} {n : ℕ} :
    heightIn expressions ≤ n ↔ ∀ e ∈ expressions, e.height ≤ n := by
  induction expressions with
  | nil => simp [heightIn]
  | cons expression expressions ih => simp [heightIn, ih]

theorem Expression.height_le_succ_iff {expression : Expression} {n : ℕ} :
    expression.height ≤ n + 1 ↔ ∀ e ∈ expression.operands, e.height ≤ n := by
  cases expression
  rw [height, Nat.add_le_add_iff_right, heightIn_le_iff]

theorem Expression.height_pos (expression : Expression) : 0 < expression.height := by
  cases expression
  exact Nat.succ_pos _

/-- The operand contract of a node: how many operands it has and of which kinds. -/
def Expression.Contract (e : Expression) : Prop :=
  match e.kind with
  | .unspecified | .bool | .integer | .string | .symbol | .reference => e.operands.length = 0
  | .call => e.text ≠ ""
  | .not => e.operands.length = 1 ∧
      ∀ kind ∈ e.operands.map Expression.kind, kind.isLiteral = false
  | .compare => isComparisonOperator e.text ∧ e.operands.length = 2 ∧
      ∀ kind ∈ e.operands.map Expression.kind, kind.isFormula = false
  | .and | .or => 2 ≤ e.operands.length ∧
      ∀ kind ∈ e.operands.map Expression.kind, kind.isLiteral = false ∧ kind ≠ e.kind
  | .implies => e.operands.length = 2 ∧
      ∀ kind ∈ e.operands.map Expression.kind, kind.isLiteral = false
  | .forAll | .«exists» => e.text ≠ "" ∧ e.operands.length = 2

/-- A node that carries only the payloads of its kind and keeps its contract. -/
structure Expression.NodeTyped (e : Expression) : Prop where
  boolean : e.kind ≠ .bool → e.boolean = false
  integer : e.kind ≠ .integer → e.integer = 0
  text : e.kind.hasText = false → e.text = ""
  present : ∀ kind ∈ e.operands.map Expression.kind, kind ≠ .unspecified
  contract : e.Contract

/-- A tree of typed nodes that validation can walk. -/
def Expression.Typed (e : Expression) : Prop :=
  e.Everywhere Expression.NodeTyped ∧ e.height ≤ maxExpressionDepth + 1

section CheckExpression

variable {owner position : String}

theorem forall_mem_zipIdx {α : Type*} {l : List α} {P : α → Prop} :
    (∀ a i, (a, i) ∈ l.zipIdx → P a) ↔ ∀ a ∈ l, P a := by
  constructor
  · intro h a ha
    obtain ⟨i, hi, rfl⟩ := getElem_of_mem ha
    exact h _ i (mk_mem_zipIdx_iff_getElem?.mpr (getElem?_eq_getElem hi))
  · intro h a i hp
    exact h a (fst_mem_of_mem_zipIdx hp)

variable {e : Expression} {allowed : Bool} {depth : ℕ}

theorem checkPayload_eq_nil : checkPayload owner position e = [] ↔
    (e.kind ≠ .bool → e.boolean = false) ∧ (e.kind ≠ .integer → e.integer = 0) ∧
      (e.kind.hasText = false → e.text = "") := by
  simp [checkPayload]

theorem checkOperandContract_eq_nil (h : e.kind ≠ .unspecified) :
    checkOperandContract owner position e = [] ↔ e.Contract := by
  unfold checkOperandContract Expression.Contract
  cases hk : e.kind with
  | unspecified => exact absurd hk h
  | not =>
    simp only [checkArity, checkOperand, append_eq_nil_iff, addIf_eq_nil, not_not]
    refine and_congr_right fun hlen => ?_
    simp [hlen]
  | compare =>
    simp only [checkArity, checkOperand, append_eq_nil_iff, addIf_eq_nil, not_not, and_assoc]
    refine and_congr_right fun _ => and_congr_right fun hlen => ?_
    simp [hlen]
  | and => simp [checkOperand, forall_mem_zipIdx, Nat.succ_le_iff]
  | or => simp [checkOperand, forall_mem_zipIdx, Nat.succ_le_iff]
  | _ => simp [checkArity, checkOperand]

/-- One node of the walk, with the walk over its operands given by `ih`. -/
theorem checkExpression_node
    (ih : ∀ o ∈ e.operands, checkExpression owner position false (depth + 1) o = [] ↔
      o.kind ≠ .unspecified ∧ o.Everywhere Expression.NodeTyped ∧
        depth + 1 + o.height ≤ maxExpressionDepth + 1)
    (hoperands : checkExpressionOperands owner position (depth + 1) e.operands = [] ↔
      ∀ o ∈ e.operands, checkExpression owner position false (depth + 1) o = []) :
    checkExpression owner position allowed depth e = [] ↔
      (allowed = true ∨ e.kind ≠ .unspecified) ∧ e.Everywhere Expression.NodeTyped ∧
        depth + e.height ≤ maxExpressionDepth + 1 := by
  have hpos := e.height_pos
  rw [Expression.everywhere_iff]
  have heq : checkExpression owner position allowed depth e =
      if maxExpressionDepth < depth then
        [⟨.expressionType, owner, position ++ ": nests deeper than validation walks"⟩]
      else checkPayload owner position e ++
        if e.kind = .unspecified then
          addIf (e.operands ≠ []) .expressionType owner
            (position ++ ": an absent expression carries inactive operands") ++
          addIf (¬allowed) .expressionType owner (position ++ ": declares no expression")
        else checkOperandContract owner position e ++
          checkExpressionOperands owner position (depth + 1) e.operands := by
    obtain ⟨kind, text, integer, boolean, operands⟩ := e
    rw [checkExpression]
  rw [heq]
  by_cases hdepth : maxExpressionDepth < depth
  · rw [if_pos hdepth]
    constructor
    · intro h
      cases h
    · rintro ⟨-, -, hheight⟩
      omega
  rw [if_neg hdepth, append_eq_nil_iff, checkPayload_eq_nil]
  obtain ⟨bound, hbound⟩ : ∃ bound, maxExpressionDepth = depth + bound :=
    ⟨maxExpressionDepth - depth, by omega⟩
  have hheight : depth + e.height ≤ maxExpressionDepth + 1 ↔
      ∀ o ∈ e.operands, o.height ≤ bound := by
    rw [← Expression.height_le_succ_iff]
    omega
  rw [hheight]
  by_cases habsent : e.kind = .unspecified
  · rw [if_pos habsent]
    simp only [append_eq_nil_iff, addIf_eq_nil, not_not]
    constructor
    · rintro ⟨⟨hboolean, hinteger, htext⟩, hnone, hallowed⟩
      refine ⟨.inl hallowed, ⟨⟨hboolean, hinteger, htext, ?_, ?_⟩, ?_⟩, ?_⟩
      · simp [hnone]
      · rw [Expression.Contract, habsent]
        simp [hnone]
      · simp [hnone]
      · simp [hnone]
    · rintro ⟨hallowed, ⟨hnode, -⟩, -⟩
      have hcontract := hnode.contract
      rw [Expression.Contract, habsent] at hcontract
      refine ⟨⟨hnode.boolean, hnode.integer, hnode.text⟩, length_eq_zero_iff.mp hcontract, ?_⟩
      exact hallowed.resolve_right fun h => h habsent
  · rw [if_neg habsent, append_eq_nil_iff, checkOperandContract_eq_nil habsent, hoperands]
    constructor
    · rintro ⟨⟨hboolean, hinteger, htext⟩, hcontract, hall⟩
      have hparts := fun o ho => (ih o ho).mp (hall o ho)
      refine ⟨.inr habsent, ⟨⟨hboolean, hinteger, htext, ?_, hcontract⟩, ?_⟩, ?_⟩
      · intro kind hkind
        obtain ⟨o, ho, rfl⟩ := mem_map.mp hkind
        exact (hparts o ho).1
      · exact fun o ho => (hparts o ho).2.1
      · intro o ho
        have := (hparts o ho).2.2
        omega
    · rintro ⟨-, ⟨hnode, hall⟩, hbounds⟩
      refine ⟨⟨hnode.boolean, hnode.integer, hnode.text⟩, hnode.contract, fun o ho => ?_⟩
      have hbound' := hbounds o ho
      refine (ih o ho).mpr ⟨hnode.present _ (mem_map_of_mem ho), hall o ho, ?_⟩
      omega

theorem checkExpressionOperands_eq_nil {operands : List Expression} :
    checkExpressionOperands owner position depth operands = [] ↔
      ∀ o ∈ operands, checkExpression owner position false depth o = [] := by
  induction operands with
  | nil => simp [checkExpressionOperands]
  | cons operand operands ih => simp [checkExpressionOperands, ih]

theorem checkExpression_eq_nil_at (e : Expression) (allowed : Bool) (depth : ℕ) :
    checkExpression owner position allowed depth e = [] ↔
      (allowed = true ∨ e.kind ≠ .unspecified) ∧ e.Everywhere Expression.NodeTyped ∧
        depth + e.height ≤ maxExpressionDepth + 1 := by
  induction e using Expression.induct generalizing allowed depth with
  | node e ih =>
    refine checkExpression_node (fun o ho => ?_) checkExpressionOperands_eq_nil
    simpa using ih o ho false (depth + 1)

/-- The walk finds nothing in a typed tree, and only in one. -/
theorem checkExpression_eq_nil :
    checkExpression owner position allowed 0 e = [] ↔
      (allowed = true ∨ e.kind ≠ .unspecified) ∧ e.Typed := by
  rw [checkExpression_eq_nil_at, Nat.zero_add]
  rfl

end CheckExpression

/-- Every reference in a tree names a declared member. -/
def Expression.Resolved (value : EvidenceCase) (e : Expression) : Prop :=
  e.Everywhere fun node => node.kind = .reference → memberKind? value node.text ≠ none

/-- A predicate that must be present. -/
def Formula (value : EvidenceCase) (e : Expression) : Prop :=
  e.Resolved value ∧ e.kind ≠ .unspecified ∧ e.Typed

section Resolving

variable {value : EvidenceCase} {id owner what : String}

theorem memberKind?_empty (value : EvidenceCase) : memberKind? value "" = none := by
  rw [memberKind?, Option.map_eq_none_iff, find?_eq_none]
  intro declaration hmem
  have hne := (mem_filter.mp hmem).2
  simpa using hne

theorem resolveEntity_eq_nil :
    resolveEntity value id owner what = [] ↔ memberKind? value id = some .entity := by
  unfold resolveEntity
  by_cases hid : id = ""
  · simp [hid, memberKind?_empty]
  · cases hkind : memberKind? value id <;> simp [hid]

theorem resolveProvenance_eq_nil : resolveProvenance value id owner what = [] ↔
    id = "" ∨ memberKind? value id = some .provenance := by
  unfold resolveProvenance
  by_cases hid : id = ""
  · simp [hid]
  · cases hkind : memberKind? value id <;> simp [hid]

theorem resolveMember_eq_nil :
    resolveMember value id owner what = [] ↔ memberKind? value id ≠ none := by
  simp [resolveMember]

theorem resolveReference_eq_nil :
    resolveReference value id owner = [] ↔ memberKind? value id ≠ none := by
  unfold resolveReference
  by_cases hid : id = ""
  · simp [hid, memberKind?_empty]
  · simp [hid]

theorem resolveExpressions_eq_nil {es : List Expression} :
    resolveExpressions value owner es = [] ↔ ∀ e ∈ es, resolveExpression value owner e = [] := by
  induction es with
  | nil => simp [resolveExpressions]
  | cons e es ih => simp [resolveExpressions, ih]

theorem resolveExpression_eq_nil {e : Expression} :
    resolveExpression value owner e = [] ↔ e.Resolved value := by
  induction e using induct with
  | node e ih =>
    have heq : resolveExpression value owner e =
        (if e.kind = .reference then resolveReference value e.text owner else []) ++
          resolveExpressions value owner e.operands := by
      cases e
      rw [resolveExpression]
    rw [heq, Expression.Resolved, everywhere_iff, append_eq_nil_iff, resolveExpressions_eq_nil]
    refine and_congr ?_ (forall₂_congr ih)
    by_cases hkind : e.kind = .reference
    · simp [hkind, resolveReference_eq_nil]
    · simp [hkind]

end Resolving

section Rules

variable (value : EvidenceCase)

def ProvenanceReference (id : String) : Prop :=
  id = "" ∨ memberKind? value id = some .provenance

/-- The record may stand as evidence: it is declared and no hypothesis. -/
def EvidenceReference (id : String) : Prop :=
  memberKind? value id ≠ none ∧ isHypothesisId value id = false

@[mk_iff]
structure ClaimRules (claim : Claim) : Prop where
  id : claim.id ≠ ""
  kind : claim.kind ≠ .unspecified
  severity : claim.severity ≠ .unspecified
  subject : memberKind? value claim.subject = some .entity
  predicate : claim.predicate.Resolved value ∧ claim.predicate.Typed

@[mk_iff]
structure EntityRules (entity : Entity) : Prop where
  kind : entity.kind ≠ .unspecified
  stableId : ∀ id ∈ entity.stableId, isCanonicalStableId id
  properties : ∀ property ∈ entity.properties.entries, Formula value property.2

@[mk_iff]
structure EdgeRules (edge : Edge) : Prop where
  kind : edge.kind ≠ .unspecified
  epistemic : edge.epistemic ≠ .unspecified
  source : memberKind? value edge.source = some .entity
  target : memberKind? value edge.target = some .entity
  provenance : ProvenanceReference value edge.provenanceId
  closed : edge.expandable = false → edge.summarizedBy ≠ "" →
    memberKind? value edge.summarizedBy ≠ none
  expandable : edge.expandable = true → memberKind? value edge.summarizedBy = some .summary ∧
    ∃ omission ∈ value.omissions, omission.subject = edge.summarizedBy

@[mk_iff]
structure PathRules (path : Path) : Prop where
  kind : path.kind ≠ .unspecified
  feasibility : path.feasibility ≠ .unspecified
  segments : ∀ id ∈ path.entityIds, memberKind? value id = some .entity
  conditions : ∀ condition ∈ path.conditions, Formula value condition
  provenance : ProvenanceReference value path.provenanceId
  length : 2 ≤ path.entityIds.length
  connected : ∀ segment ∈ path.entityIds.zip path.entityIds.tail,
    hasSegment value path segment.1 segment.2

@[mk_iff]
structure FactRules (fact : Fact) : Prop where
  epistemic : fact.epistemic ≠ .unspecified
  confidence : fact.confidence ≠ .unspecified
  derivation : fact.derived = true →
    fact.provenanceId ≠ "" ∧ ∃ record ∈ value.provenance, record.id = fact.provenanceId
  stableId : ∀ id ∈ fact.stableId, isCanonicalStableId id
  predicate : Formula value fact.predicate
  provenance : ProvenanceReference value fact.provenanceId

@[mk_iff]
structure UnknownRules (unknown : Unknown) : Prop where
  reasonCode : unknown.reasonCode ≠ .unspecified
  completion : unknown.reasonCode.isInterruptedQuery → ∃ record ∈ value.provenance,
    record.producer = queryCompletionProducerId ∧ record.rule = queryCompletionRuleId
  property : Formula value unknown.property
  blocking : ∀ id ∈ unknown.blockingIds, EvidenceReference value id

@[mk_iff]
structure ConstraintRules (constraint : Constraint) : Prop where
  epistemic : constraint.epistemic ≠ .unspecified
  expression : Formula value constraint.expression
  provenance : ProvenanceReference value constraint.provenanceId

@[mk_iff]
structure ProvenanceRules (record : Provenance) : Prop where
  run : ∃ run ∈ record.analysisRunId, ∀ bound ∈ value.program.analysisRunId, run = bound
  inputs : ∀ id ∈ record.inputFactIds, EvidenceReference value id

@[mk_iff]
structure ObligationRules (obligation : ProofObligation) : Prop where
  goalKind : obligation.goalKind ≠ .unspecified
  status : obligation.status ≠ .unspecified
  pending : obligation.status = .pending →
    obligation.resultId = "" ∧ obligation.verificationProducer = ""
  decided : obligation.status ∈ [.proved, .refuted, .timeout, .unsupported] → obligation.isDecided
  predicate : Formula value obligation.predicate
  budget : obligation.budget.Resolved value ∧ obligation.budget.Typed

@[mk_iff]
structure SummaryRules (summary : SummaryReference) : Prop where
  summaryId : isCanonicalStableId summary.summaryId ∧ summary.summaryId.kind = .functionSummary
  function : memberKind? value summary.functionId = some .entity

@[mk_iff]
structure OmissionRules (omission : Omission) : Prop where
  subject : memberKind? value omission.subject ≠ none
  summary : memberKind? value omission.subject = some .summary → omission.expandable

/-- The rules in which no order plays a part. -/
@[mk_iff]
structure WellFormed : Prop where
  schemaVersion : value.schemaVersion = "eir.v1"
  level : value.level ≠ .unspecified
  verificationState : value.verificationState ≠ .unspecified
  context : ∀ text ∈ [value.program.repositoryId, value.program.revisionId,
    value.program.buildVariantId, value.program.targetTriple,
    value.program.analysisConfigurationId, value.program.typeLayoutId], text ≠ ""
  run : ∃ run ∈ value.program.analysisRunId, isCanonicalStableId run
  distinctIds : ((declarations value).map Prod.fst).Nodup
  claim : ClaimRules value value.primaryClaim
  entities : ∀ entity ∈ value.entities, EntityRules value entity
  edges : ∀ edge ∈ value.edges, EdgeRules value edge
  paths : ∀ path ∈ value.paths, PathRules value path
  facts : ∀ fact ∈ value.facts, FactRules value fact
  assumptions : ∀ assumption ∈ value.assumptions, Formula value assumption.predicate
  hypotheses : ∀ hypothesis ∈ value.hypotheses, Formula value hypothesis.predicate
  unknowns : ∀ unknown ∈ value.unknowns, UnknownRules value unknown
  constraints : ∀ constraint ∈ value.constraints, ConstraintRules value constraint
  provenance : ∀ record ∈ value.provenance, ProvenanceRules value record
  obligations : ∀ obligation ∈ value.proofObligations, ObligationRules value obligation
  conclusive : value.verificationState.isVerified →
    ∃ obligation ∈ value.proofObligations, obligation.isConclusive
  summaries : ∀ summary ∈ value.summaries, SummaryRules value summary
  dependencies : ∀ dependency ∈ value.dependencies,
    dependency.kind ≠ .unspecified ∧ isCanonicalStableId dependency.stableId
  omissions : ∀ omission ∈ value.omissions, OmissionRules value omission

/-- Every interrupted query is withheld by an omission, the first one about it an expandable one. -/
def InterruptedDeclared : Prop :=
  ∀ unknown ∈ value.unknowns, unknown.reasonCode.isInterruptedQuery →
    ∃ omission ∈ omissionDeclaring value unknown.id, omission.expandable

/-- A verified safe case proves its execution domain. -/
def DomainArgued : Prop :=
  value.verificationState = .verifiedSafe → ∃ obligation ∈ value.proofObligations,
    obligation.isProvedGoal ∧ hasExecutionDomainArgument obligation.predicate

end Rules

section Passes

variable {value : EvidenceCase}

theorem duplicateIssues_eq_nil {seen rest : List (String × MemberKind)} :
    duplicateIssues seen rest = [] ↔
      (rest.map Prod.fst).Nodup ∧ ∀ id ∈ rest.map Prod.fst, id ∉ seen.map Prod.fst := by
  induction rest generalizing seen with
  | nil => simp [duplicateIssues]
  | cons declaration rest ih =>
    obtain ⟨id, kind⟩ := declaration
    unfold duplicateIssues
    cases hfind : seen.find? (·.1 = id) with
    | none =>
      have hfresh : id ∉ seen.map Prod.fst := by
        simp only [find?_eq_none, decide_eq_true_eq] at hfind
        intro hmem
        obtain ⟨other, hother, rfl⟩ := mem_map.mp hmem
        exact hfind other hother rfl
      rw [ih, map_cons, map_cons, nodup_cons, forall_mem_cons]
      constructor
      · rintro ⟨hnodup, hrest⟩
        refine ⟨⟨fun hmem => hrest id hmem mem_cons_self, hnodup⟩, hfresh, fun x hx hseen => ?_⟩
        exact hrest x hx (mem_cons_of_mem _ hseen)
      · rintro ⟨⟨hnot, hnodup⟩, -, hrest⟩
        refine ⟨hnodup, fun x hx hseen => ?_⟩
        rcases mem_cons.mp hseen with rfl | hseen
        · exact hnot hx
        · exact hrest x hx hseen
    | some first =>
      have hseen : id ∈ seen.map Prod.fst := by
        exact mem_map.mpr ⟨first, Ordered.of_find? hfind⟩
      simp only [reduceCtorEq, false_iff, not_and]
      intro _ h
      exact h id (by simp) hseen

theorem checkProgramBinding_eq_nil : checkProgramBinding value = [] ↔
    (∀ text ∈ [value.program.repositoryId, value.program.revisionId,
      value.program.buildVariantId, value.program.targetTriple,
      value.program.analysisConfigurationId, value.program.typeLayoutId], text ≠ "") ∧
    ∃ run ∈ value.program.analysisRunId, isCanonicalStableId run := by
  unfold checkProgramBinding
  cases hrun : value.program.analysisRunId <;> simp [and_assoc]

theorem runIssues_eq_nil {run : Option StableId} {id what absent other : String} :
    runIssues value run id what absent other = [] ↔
      ∃ r ∈ run, ∀ bound ∈ value.program.analysisRunId, r = bound := by
  unfold runIssues
  cases run <;> simp

/-- The provenance pass; the last completion record is one of the records the pass checks. -/
theorem checkProvenance_eq_nil : checkProvenance value = [] ↔
    (∀ fact ∈ value.facts, fact.derived = true →
      fact.provenanceId ≠ "" ∧ ∃ record ∈ value.provenance, record.id = fact.provenanceId) ∧
    (∀ record ∈ value.provenance,
      ∃ run ∈ record.analysisRunId, ∀ bound ∈ value.program.analysisRunId, run = bound) ∧
    (∀ unknown ∈ value.unknowns, unknown.reasonCode.isInterruptedQuery → ∃ record ∈ value.provenance,
      record.producer = queryCompletionProducerId ∧ record.rule = queryCompletionRuleId) := by
  simp only [checkProvenance, append_eq_nil_iff, flatMap_eq_nil_iff, runIssues_eq_nil, and_assoc]
  refine and_congr ?_ (and_congr_right fun hrecords => ?_)
  · refine forall₂_congr fun fact _ => ?_
    by_cases hderived : fact.derived = true <;> by_cases hid : fact.provenanceId = "" <;>
      simp [hderived, hid]
  · refine forall₂_congr fun unknown _ => ?_
    by_cases hinterrupted : unknown.reasonCode.isInterruptedQuery = true
    · simp only [hinterrupted, not_true_eq_false, if_false, true_implies]
      cases hquery : queryProvenance? value with
      | none =>
        rw [queryProvenance?, find?_eq_none] at hquery
        simp only [reduceCtorEq, false_iff, not_exists, not_and]
        intro record hrecord hproducer hrule
        exact hquery record (mem_reverse.mpr hrecord) (by simp [hproducer, hrule])
      | some record =>
        obtain ⟨hmem, hmatch⟩ := (Ordered.of_find? hquery).imp_left mem_reverse.mp
        simp only [runIssues_eq_nil]
        exact ⟨fun _ => ⟨record, hmem, hmatch⟩, fun _ => hrecords record hmem⟩
    · simp [hinterrupted]

theorem checkStableIds_eq_nil : checkStableIds value = [] ↔
    (∀ entity ∈ value.entities, ∀ id ∈ entity.stableId, isCanonicalStableId id) ∧
    (∀ fact ∈ value.facts, ∀ id ∈ fact.stableId, isCanonicalStableId id) ∧
    (∀ summary ∈ value.summaries, isCanonicalStableId summary.summaryId ∧
      summary.summaryId.kind = .functionSummary) ∧
    (∀ dependency ∈ value.dependencies, isCanonicalStableId dependency.stableId) := by
  simp only [checkStableIds, append_eq_nil_iff, flatMap_eq_nil_iff, and_assoc]
  refine and_congr ?_ (and_congr ?_ (and_congr ?_ ?_))
  · simp
  · simp
  · refine forall₂_congr fun summary _ => ?_
    by_cases hcanonical : isCanonicalStableId summary.summaryId = true <;> simp [hcanonical]
  · simp

theorem obligationIssues_eq_nil {obligation : ProofObligation} : obligationIssues obligation = [] ↔
    (obligation.status = .pending →
      obligation.resultId = "" ∧ obligation.verificationProducer = "") ∧
    (obligation.status ∈ [.proved, .refuted, .timeout, .unsupported] → obligation.isDecided) := by
  unfold obligationIssues
  cases hstatus : obligation.status <;> simp

theorem checkProofAuthority_eq_nil : checkProofAuthority value = [] ↔
    (∀ obligation ∈ value.proofObligations, (obligation.status = .pending →
        obligation.resultId = "" ∧ obligation.verificationProducer = "") ∧
      (obligation.status ∈ [.proved, .refuted, .timeout, .unsupported] → obligation.isDecided)) ∧
    DomainArgued value ∧
    (value.verificationState.isVerified →
      ∃ obligation ∈ value.proofObligations, obligation.isConclusive) := by
  simp only [checkProofAuthority, checkExecutionDomain, append_eq_nil_iff,
    flatMap_eq_nil_iff, obligationIssues_eq_nil, addIf_eq_nil, and_assoc]
  refine and_congr Iff.rfl (and_congr ?_ ?_)
  · simp [DomainArgued]
  · simp

theorem closedEdge_eq_nil {edge : Edge} : (if edge.expandable = false ∧ edge.summarizedBy ≠ "" then
      resolveMember value edge.summarizedBy edge.id "the edge's summary reference" else []) = [] ↔
    (edge.expandable = false → edge.summarizedBy ≠ "" →
      memberKind? value edge.summarizedBy ≠ none) := by
  by_cases hexpandable : edge.expandable = true <;> by_cases hby : edge.summarizedBy = "" <;>
    simp [hexpandable, hby, resolveMember_eq_nil]

theorem checkPaths_eq_nil : checkPaths value = [] ↔ ∀ path ∈ value.paths,
    2 ≤ path.entityIds.length ∧ ∀ segment ∈ path.entityIds.zip path.entityIds.tail,
      hasSegment value path segment.1 segment.2 := by
  rw [checkPaths, flatMap_eq_nil_iff]
  refine forall₂_congr fun path _ => ?_
  by_cases hshort : path.entityIds.length < 2
  · rw [if_pos hshort]
    simp only [reduceCtorEq, false_iff, not_and]
    omega
  · rw [if_neg hshort]
    simp only [flatMap_eq_nil_iff, addIf_eq_nil, not_not]
    exact ⟨fun h => ⟨by omega, h⟩, fun h => h.2⟩

theorem omissionDeclaring_eq_none {id : String} (hid : id ≠ "") :
    omissionDeclaring value id = none ↔ ¬∃ omission ∈ value.omissions, omission.subject = id := by
  simp [omissionDeclaring, hid]

theorem checkExpandableEdges_eq_nil : checkExpandableEdges value = [] ↔
    ∀ edge ∈ value.edges, edge.expandable = true →
      memberKind? value edge.summarizedBy = some .summary ∧
      ∃ omission ∈ value.omissions, omission.subject = edge.summarizedBy := by
  rw [checkExpandableEdges, flatMap_eq_nil_iff]
  refine forall₂_congr fun edge _ => ?_
  by_cases hexpandable : edge.expandable = true
  · by_cases hby : edge.summarizedBy = ""
    · simp [hexpandable, hby, memberKind?_empty]
    · cases hkind : memberKind? value edge.summarizedBy with
      | none => simp [hexpandable, hby]
      | some kind =>
        by_cases hsummary : kind = .summary
        · simp [hexpandable, hby, hsummary, omissionDeclaring_eq_none hby]
        · simp [hexpandable, hby, hsummary]
  · simp [hexpandable]

theorem checkInterruptedQueries_eq_nil :
    checkInterruptedQueries value = [] ↔ InterruptedDeclared value := by
  rw [checkInterruptedQueries, flatMap_eq_nil_iff]
  refine forall₂_congr fun unknown _ => ?_
  by_cases hinterrupted : unknown.reasonCode.isInterruptedQuery = true
  · cases homission : omissionDeclaring value unknown.id <;> simp [hinterrupted]
  · simp [hinterrupted]

/-- The validator accepts a case that keeps the rules, withholds its interrupted queries and argues
its execution domain, and no other. -/
theorem validateEvidenceCase_eq_nil : validateEvidenceCase value = [] ↔
    WellFormed value ∧ InterruptedDeclared value ∧ DomainArgued value := by
  simp only [validateEvidenceCase, append_eq_nil_iff, checkProgramBinding_eq_nil,
    checkPrimaryClaim, checkDuplicateLocalIds, duplicateIssues_eq_nil, checkProvenance_eq_nil,
    checkStableIds_eq_nil, checkProofAuthority_eq_nil, checkPaths_eq_nil, checkOmissionVisibility,
    checkExpandableEdges_eq_nil, checkInterruptedQueries_eq_nil, map_nil, not_mem_nil,
    not_false_eq_true, implies_true, and_true]
  -- the passes that test each record on its own
  simp only [checkHeader, checkRequiredStates, missingState, checkReferences, checkExpressions,
    checkHypothesisIsolation, checkWithheldSummaries, append_eq_nil_iff,
    flatMap_eq_nil_iff, addIf_eq_nil, decide_eq_true_eq, resolveEntity_eq_nil,
    resolveProvenance_eq_nil, resolveMember_eq_nil, resolveExpression_eq_nil, closedEdge_eq_nil,
    checkExpression_eq_nil, Bool.false_eq_true, Bool.not_eq_true, Bool.not_eq_false, false_or,
    true_or, true_and, not_not, not_and]
  -- both sides are the same rules, grouped by check on the left and by record on the right
  simp only [wellFormed_iff, claimRules_iff, entityRules_iff, edgeRules_iff, pathRules_iff,
    factRules_iff, unknownRules_iff, constraintRules_iff, provenanceRules_iff, obligationRules_iff,
    summaryRules_iff, omissionRules_iff, ProvenanceReference, Formula, EvidenceReference, imp_and,
    forall_and, ne_eq]
  tauto

end Passes

end Veritas.Evidence

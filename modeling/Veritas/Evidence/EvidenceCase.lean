import Veritas.Core.Ids

/-! The `eir.v1` evidence case: its enumerations with their spellings, its expressions and records. -/
namespace Veritas.Evidence

open Function

inductive EvidenceLevel
  | unspecified | l0 | l1 | l2
  deriving DecidableEq

def EvidenceLevel.toString : EvidenceLevel → String
  | .unspecified => "unspecified"
  | .l0 => "l0"
  | .l1 => "l1"
  | .l2 => "l2"

theorem EvidenceLevel.toString_injective : Injective EvidenceLevel.toString := by
  intro a b h
  cases a <;> cases b <;> first | rfl | simp [EvidenceLevel.toString] at h

inductive VerificationState
  | unspecified | unreviewed | possibleDefect | likelyDefect | verifiedDefect
  | likelyFalsePositive | verifiedSafe | inconclusive
  deriving DecidableEq

def VerificationState.toString : VerificationState → String
  | .unspecified => "unspecified"
  | .unreviewed => "UNREVIEWED"
  | .possibleDefect => "POSSIBLE_DEFECT"
  | .likelyDefect => "LIKELY_DEFECT"
  | .verifiedDefect => "VERIFIED_DEFECT"
  | .likelyFalsePositive => "LIKELY_FALSE_POSITIVE"
  | .verifiedSafe => "VERIFIED_SAFE"
  | .inconclusive => "INCONCLUSIVE"

theorem VerificationState.toString_injective : Injective VerificationState.toString := by
  intro a b h
  cases a <;> cases b <;> first | rfl | simp [VerificationState.toString] at h

inductive EntityKind
  | unspecified | function | callSite | value | memoryObject | basicBlock
  deriving DecidableEq

def EntityKind.toString : EntityKind → String
  | .unspecified => "unspecified"
  | .function => "function"
  | .callSite => "callsite"
  | .value => "value"
  | .memoryObject => "memory_object"
  | .basicBlock => "basic_block"

theorem EntityKind.toString_injective : Injective EntityKind.toString := by
  intro a b h
  cases a <;> cases b <;> first | rfl | simp [EntityKind.toString] at h

inductive RelationKind
  | unspecified | calls | flowsTo | reads | writes | dominates | mayAlias
  deriving DecidableEq

def RelationKind.toString : RelationKind → String
  | .unspecified => "unspecified"
  | .calls => "CALLS"
  | .flowsTo => "FLOWS_TO"
  | .reads => "READS"
  | .writes => "WRITES"
  | .dominates => "DOMINATES"
  | .mayAlias => "MAY_ALIAS"

theorem RelationKind.toString_injective : Injective RelationKind.toString := by
  intro a b h
  cases a <;> cases b <;> first | rfl | simp [RelationKind.toString] at h

inductive PathKind
  | unspecified | call | valueFlow | control
  deriving DecidableEq

def PathKind.toString : PathKind → String
  | .unspecified => "unspecified"
  | .call => "call"
  | .valueFlow => "value_flow"
  | .control => "control"

theorem PathKind.toString_injective : Injective PathKind.toString := by
  intro a b h
  cases a <;> cases b <;> first | rfl | simp [PathKind.toString] at h

inductive EpistemicState
  | unspecified | must | may | mustNot | inferred | assumed | unknown
  deriving DecidableEq

def EpistemicState.toString : EpistemicState → String
  | .unspecified => "unspecified"
  | .must => "must"
  | .may => "may"
  | .mustNot => "must_not"
  | .inferred => "inferred"
  | .assumed => "assumed"
  | .unknown => "unknown"

theorem EpistemicState.toString_injective : Injective EpistemicState.toString := by
  intro a b h
  cases a <;> cases b <;> first | rfl | simp [EpistemicState.toString] at h

inductive Confidence
  | unspecified | exact | high | medium | low | unknown
  deriving DecidableEq

def Confidence.toString : Confidence → String
  | .unspecified => "unspecified"
  | .exact => "exact"
  | .high => "high"
  | .medium => "medium"
  | .low => "low"
  | .unknown => "unknown"

theorem Confidence.toString_injective : Injective Confidence.toString := by
  intro a b h
  cases a <;> cases b <;> first | rfl | simp [Confidence.toString] at h

inductive ProofStatus
  | unspecified | pending | proved | refuted | unknown | timeout | unsupported
  deriving DecidableEq

def ProofStatus.toString : ProofStatus → String
  | .unspecified => "unspecified"
  | .pending => "PENDING"
  | .proved => "PROVED"
  | .refuted => "REFUTED"
  | .unknown => "UNKNOWN"
  | .timeout => "TIMEOUT"
  | .unsupported => "UNSUPPORTED"

theorem ProofStatus.toString_injective : Injective ProofStatus.toString := by
  intro a b h
  cases a <;> cases b <;> first | rfl | simp [ProofStatus.toString] at h

inductive DependencyKind
  | unspecified | summary | fact | typeLayout | configuration | specification
  deriving DecidableEq

def DependencyKind.toString : DependencyKind → String
  | .unspecified => "unspecified"
  | .summary => "summary"
  | .fact => "fact"
  | .typeLayout => "type_layout"
  | .configuration => "configuration"
  | .specification => "specification"

theorem DependencyKind.toString_injective : Injective DependencyKind.toString := by
  intro a b h
  cases a <;> cases b <;> first | rfl | simp [DependencyKind.toString] at h

inductive Feasibility
  | unspecified | provedFeasible | sat | maybe | untested | unsat | provedInfeasible | unknown
  deriving DecidableEq

def Feasibility.toString : Feasibility → String
  | .unspecified => "unspecified"
  | .provedFeasible => "PROVED_FEASIBLE"
  | .sat => "SAT"
  | .maybe => "MAYBE"
  | .untested => "UNTESTED"
  | .unsat => "UNSAT"
  | .provedInfeasible => "PROVED_INFEASIBLE"
  | .unknown => "UNKNOWN"

theorem Feasibility.toString_injective : Injective Feasibility.toString := by
  intro a b h
  cases a <;> cases b <;> first | rfl | simp [Feasibility.toString] at h

inductive ProofGoalKind
  | unspecified | prove | refute | check
  deriving DecidableEq

def ProofGoalKind.toString : ProofGoalKind → String
  | .unspecified => "unspecified"
  | .prove => "prove"
  | .refute => "refute"
  | .check => "check"

theorem ProofGoalKind.toString_injective : Injective ProofGoalKind.toString := by
  intro a b h
  cases a <;> cases b <;> first | rfl | simp [ProofGoalKind.toString] at h

inductive UnknownReasonCode
  | unspecified | unresolvedCall | unknownAlias | externalFunction | missingSpecification
  | analysisTimeout | stateExplosion | unsupportedLanguageFeature | inlineAssembly
  | dynamicLoading | unknownBuildConfiguration
  deriving DecidableEq

def UnknownReasonCode.toString : UnknownReasonCode → String
  | .unspecified => "unspecified"
  | .unresolvedCall => "UNRESOLVED_CALL"
  | .unknownAlias => "UNKNOWN_ALIAS"
  | .externalFunction => "EXTERNAL_FUNCTION"
  | .missingSpecification => "MISSING_SPECIFICATION"
  | .analysisTimeout => "ANALYSIS_TIMEOUT"
  | .stateExplosion => "STATE_EXPLOSION"
  | .unsupportedLanguageFeature => "UNSUPPORTED_LANGUAGE_FEATURE"
  | .inlineAssembly => "INLINE_ASSEMBLY"
  | .dynamicLoading => "DYNAMIC_LOADING"
  | .unknownBuildConfiguration => "UNKNOWN_BUILD_CONFIGURATION"

theorem UnknownReasonCode.toString_injective : Injective UnknownReasonCode.toString := by
  intro a b h
  cases a <;> cases b <;> first | rfl | simp [UnknownReasonCode.toString] at h

inductive ClaimKind
  | unspecified | bufferOverflow
  deriving DecidableEq

def ClaimKind.toString : ClaimKind → String
  | .unspecified => "unspecified"
  | .bufferOverflow => "buffer_overflow"

theorem ClaimKind.toString_injective : Injective ClaimKind.toString := by
  intro a b h
  cases a <;> cases b <;> first | rfl | simp [ClaimKind.toString] at h

inductive Severity
  | unspecified | critical | high | medium | low | info
  deriving DecidableEq

def Severity.toString : Severity → String
  | .unspecified => "unspecified"
  | .critical => "critical"
  | .high => "high"
  | .medium => "medium"
  | .low => "low"
  | .info => "info"

theorem Severity.toString_injective : Injective Severity.toString := by
  intro a b h
  cases a <;> cases b <;> first | rfl | simp [Severity.toString] at h

/-- What an expression node is; `forAll` and `exists` bind the variable of the node's text. -/
inductive ExpressionKind
  | unspecified | bool | integer | string | symbol | reference | call | not | compare | and | or
  | implies | forAll | «exists»
  deriving DecidableEq

/-- `ExpressionKindName`. -/
def ExpressionKind.name : ExpressionKind → String
  | .unspecified => "unspecified"
  | .bool => "bool"
  | .integer => "integer"
  | .string => "string"
  | .symbol => "symbol"
  | .reference => "reference"
  | .call => "call"
  | .not => "not"
  | .compare => "compare"
  | .and => "and"
  | .or => "or"
  | .implies => "implies"
  | .forAll => "forall"
  | .«exists» => "exists"

theorem ExpressionKind.name_injective : Injective ExpressionKind.name := by
  intro a b h
  cases a <;> cases b <;> first | rfl | simp [ExpressionKind.name] at h

/-- The predicate tree: the text is the operator, callee or literal of the node. -/
structure Expression where
  kind : ExpressionKind := .unspecified
  text : String := ""
  integer : Int64 := 0
  boolean : Bool := false
  operands : List Expression := []

mutual

def Expression.decideEq : (a b : Expression) → Decidable (a = b)
  | ⟨ka, ta, ia, ba, as⟩, ⟨kb, tb, ib, bb, bs⟩ =>
    match decEq (ka, ta, ia, ba) (kb, tb, ib, bb), Expression.decideEqList as bs with
    | .isTrue hnode, .isTrue hs => .isTrue (by cases hnode; rw [hs])
    | .isFalse h, _ => .isFalse fun heq => h (by cases heq; rfl)
    | _, .isFalse h => .isFalse fun heq => h (Expression.mk.inj heq).2.2.2.2

def Expression.decideEqList : (as bs : List Expression) → Decidable (as = bs)
  | [], [] => .isTrue rfl
  | [], _ :: _ => .isFalse nofun
  | _ :: _, [] => .isFalse nofun
  | a :: as, b :: bs =>
    match Expression.decideEq a b, Expression.decideEqList as bs with
    | .isTrue ha, .isTrue has => .isTrue (by rw [ha, has])
    | .isFalse h, _ => .isFalse fun heq => h (List.cons.inj heq).1
    | _, .isFalse h => .isFalse fun heq => h (List.cons.inj heq).2

end

instance : DecidableEq Expression := Expression.decideEq

mutual

/-- Induction over a tree: a node may use the property of its operands. -/
@[elab_as_elim] theorem Expression.induct {motive : Expression → Prop}
    (node : ∀ e : Expression, (∀ operand ∈ e.operands, motive operand) → motive e) :
    (e : Expression) → motive e
  | ⟨kind, text, integer, boolean, operands⟩ =>
    node ⟨kind, text, integer, boolean, operands⟩ (Expression.induct_mem node operands)

theorem Expression.induct_mem {motive : Expression → Prop}
    (node : ∀ e : Expression, (∀ operand ∈ e.operands, motive operand) → motive e) :
    (operands : List Expression) → ∀ operand ∈ operands, motive operand
  | [], _, h => absurd h List.not_mem_nil
  | e :: _, _, .head _ => Expression.induct node e
  | _ :: es, _, .tail _ h => Expression.induct_mem node es _ h

end

structure AnalyzerVersion where
  producer : String
  version : String
  configuration : String

structure ProgramBinding where
  repositoryId : String
  revisionId : String
  buildVariantId : String
  targetTriple : String
  analysisConfigurationId : String
  typeLayoutId : String
  analysisRunId : Option StableId
  analyzerVersions : List AnalyzerVersion

/-- A property bag, listed by key as the map iterates it. -/
structure PropertyMap where
  entries : List (String × Expression)
  sorted : (entries.map Prod.fst).Pairwise (· < ·)

structure Entity where
  id : String
  kind : EntityKind
  stableId : Option StableId
  properties : PropertyMap

structure Edge where
  id : String
  source : String
  target : String
  kind : RelationKind
  epistemic : EpistemicState
  provenanceId : String
  summarizedBy : String
  expandable : Bool

structure Path where
  id : String
  kind : PathKind
  entityIds : List String
  conditions : List Expression
  feasibility : Feasibility
  provenanceId : String

structure Claim where
  id : String
  kind : ClaimKind
  subject : String
  predicate : Expression
  severity : Severity
  description : String

structure Fact where
  id : String
  stableId : Option StableId
  predicate : Expression
  epistemic : EpistemicState
  confidence : Confidence
  producer : String
  provenanceId : String
  derived : Bool

structure Assumption where
  id : String
  predicate : Expression
  source : String
  scope : String

structure Hypothesis where
  id : String
  predicate : Expression
  producer : String
  reason : String
  confidence : Confidence

structure Unknown where
  id : String
  property : Expression
  reasonCode : UnknownReasonCode
  reason : String
  blockingIds : List String
  suggestedResolution : String

structure Constraint where
  id : String
  expression : Expression
  scope : String
  epistemic : EpistemicState
  provenanceId : String

structure Provenance where
  id : String
  producer : String
  rule : String
  inputFactIds : List String
  sourceAnchorId : String
  analysisRunId : Option StableId
  version : String
  configuration : String

/-- The budget is an expression; the unspecified kind stands for none. -/
structure ProofObligation where
  id : String
  goalKind : ProofGoalKind
  predicate : Expression
  verifierKinds : List String
  budget : Expression
  status : ProofStatus
  resultId : String
  verificationProducer : String

structure SummaryReference where
  id : String
  functionId : String
  summaryId : StableId
  components : List String

structure Dependency where
  id : String
  kind : DependencyKind
  stableId : StableId

structure Omission where
  id : String
  kind : String
  subject : String
  reason : String
  expandable : Bool

structure EvidenceCase where
  evidenceId : Option StableId
  schemaVersion : String
  level : EvidenceLevel
  program : ProgramBinding
  primaryClaim : Claim
  entities : List Entity
  edges : List Edge
  paths : List Path
  facts : List Fact
  assumptions : List Assumption
  hypotheses : List Hypothesis
  unknowns : List Unknown
  constraints : List Constraint
  provenance : List Provenance
  proofObligations : List ProofObligation
  summaries : List SummaryReference
  dependencies : List Dependency
  verificationState : VerificationState
  omissions : List Omission

end Veritas.Evidence

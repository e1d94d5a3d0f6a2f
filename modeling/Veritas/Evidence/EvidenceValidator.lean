import Veritas.Evidence.EvidenceCanonicalizer
import Veritas.Evidence.QueryCompletion

/-! The validation passes over an evidence case, each as the list of issues it adds. -/
namespace Veritas.Evidence

inductive EvidenceValidationCode
  | schemaVersion | missingProgramContext | primaryClaimCount | duplicateLocalId
  | danglingReference | missingEpistemic | missingProvenance | expressionType | pathDisconnected
  | invalidStableId | mixedProgramContext | hypothesisAuthority | verificationProducer
  | hiddenOmission
  deriving DecidableEq

def EvidenceValidationCode.toString : EvidenceValidationCode → String
  | .schemaVersion => "schema_version"
  | .missingProgramContext => "missing_program_context"
  | .primaryClaimCount => "primary_claim_count"
  | .duplicateLocalId => "duplicate_local_id"
  | .danglingReference => "dangling_reference"
  | .missingEpistemic => "missing_epistemic"
  | .missingProvenance => "missing_provenance"
  | .expressionType => "expression_type"
  | .pathDisconnected => "path_disconnected"
  | .invalidStableId => "invalid_stable_id"
  | .mixedProgramContext => "mixed_program_context"
  | .hypothesisAuthority => "hypothesis_authority"
  | .verificationProducer => "verification_producer"
  | .hiddenOmission => "hidden_omission"

structure EvidenceValidationIssue where
  code : EvidenceValidationCode
  memberId : String
  message : String
  deriving DecidableEq

abbrev Issues := List EvidenceValidationIssue

def addIf (condition : Prop) [Decidable condition] (code : EvidenceValidationCode)
    (memberId message : String) : Issues :=
  if condition then [⟨code, memberId, message⟩] else []

@[simp] theorem addIf_eq_nil {condition : Prop} [Decidable condition]
    {code : EvidenceValidationCode} {memberId message : String} :
    addIf condition code memberId message = [] ↔ ¬condition := by
  unfold addIf
  split <;> simp_all

/-- The member families that share one identifier space. -/
inductive MemberKind
  | claim | entity | edge | path | fact | assumption | hypothesis | unknown | constraint
  | provenance | proofObligation | summary | dependency | omission
  deriving DecidableEq

def MemberKind.name : MemberKind → String
  | .claim => "claim"
  | .entity => "entity"
  | .edge => "edge"
  | .path => "path"
  | .fact => "fact"
  | .assumption => "assumption"
  | .hypothesis => "hypothesis"
  | .unknown => "unknown"
  | .constraint => "constraint"
  | .provenance => "provenance"
  | .proofObligation => "proof obligation"
  | .summary => "summary reference"
  | .dependency => "dependency"
  | .omission => "omission"

def ExpressionKind.isFormula : ExpressionKind → Bool
  | .bool | .not | .compare | .and | .or | .implies | .forAll | .«exists» => true
  | .unspecified | .integer | .string | .symbol | .reference | .call => false

def ExpressionKind.isLiteral (kind : ExpressionKind) : Bool := kind = .integer || kind = .string

def isComparisonOperator (text : String) : Bool :=
  text = "==" || text = "!=" || text = "<" || text = "<=" || text = ">" || text = ">="

/-- The analysis stopped before it could answer. -/
def UnknownReasonCode.isInterruptedQuery (code : UnknownReasonCode) : Bool :=
  code = .analysisTimeout || code = .stateExplosion

def VerificationState.isVerified (state : VerificationState) : Bool :=
  state = .verifiedDefect || state = .verifiedSafe

def isCanonicalStableId (id : StableId) : Bool :=
  id.digestHex ≠ "" && (parseStableId id.toString).toBool

def relationForPathKind : PathKind → Option RelationKind
  | .unspecified => none
  | .call => some .calls
  | .valueFlow => some .flowsTo
  | .control => some .dominates

def quoted (text : String) : String := "'" ++ text ++ "'"

/-- The ids of the members, family by family. -/
def memberIds (value : EvidenceCase) : List (List (String × MemberKind)) :=
  [[(value.primaryClaim.id, .claim)], value.entities.map (·.id, .entity),
    value.edges.map (·.id, .edge), value.paths.map (·.id, .path), value.facts.map (·.id, .fact),
    value.assumptions.map (·.id, .assumption), value.hypotheses.map (·.id, .hypothesis),
    value.unknowns.map (·.id, .unknown), value.constraints.map (·.id, .constraint),
    value.provenance.map (·.id, .provenance),
    value.proofObligations.map (·.id, .proofObligation), value.summaries.map (·.id, .summary),
    value.dependencies.map (·.id, .dependency), value.omissions.map (·.id, .omission)]

/-- The declarations in member order; an empty id declares nothing. -/
def declarations (value : EvidenceCase) : List (String × MemberKind) :=
  (memberIds value).flatten.filter (·.1 ≠ "")

/-- `members_`: the first declaration of an id wins. -/
def memberKind? (value : EvidenceCase) (id : String) : Option MemberKind :=
  ((declarations value).find? (·.1 = id)).map Prod.snd

def checkHeader (value : EvidenceCase) : Issues :=
  addIf (value.schemaVersion ≠ "eir.v1") .schemaVersion "schema_version"
    ("the case declares schema version " ++ quoted value.schemaVersion ++ ", not " ++
      quoted "eir.v1") ++
  addIf (value.level = .unspecified) .schemaVersion "level" "the case declares no abstraction level"

def checkProgramBinding (value : EvidenceCase) : Issues :=
  [("repository_id", value.program.repositoryId), ("revision_id", value.program.revisionId),
    ("build_variant_id", value.program.buildVariantId),
    ("target_triple", value.program.targetTriple),
    ("analysis_configuration_id", value.program.analysisConfigurationId),
    ("type_layout_id", value.program.typeLayoutId)].flatMap (fun field =>
      addIf (field.2 = "") .missingProgramContext "program"
        ("program." ++ field.1 ++ " is empty")) ++
  match value.program.analysisRunId with
  | none => [⟨.missingProgramContext, "program", "program.analysis_run_id is absent"⟩]
  | some runId => addIf (¬isCanonicalStableId runId) .invalidStableId "program"
    "program.analysis_run_id is not a canonical stable ID"

def checkPrimaryClaim (value : EvidenceCase) : Issues :=
  addIf (value.primaryClaim.id = "") .primaryClaimCount "" "the case declares no primary claim"

/-- The loop over the declarations with the ids seen so far. -/
def duplicateIssues (seen : List (String × MemberKind)) : List (String × MemberKind) → Issues
  | [] => []
  | (id, kind) :: rest =>
    match seen.find? (·.1 = id) with
    | none => duplicateIssues ((id, kind) :: seen) rest
    | some (_, first) =>
      ⟨.duplicateLocalId, id, "local identifier " ++ quoted id ++
        " is declared more than once (first as a " ++ first.name ++ ", then as a " ++ kind.name ++
        ")"⟩ :: duplicateIssues seen rest

def checkDuplicateLocalIds (value : EvidenceCase) : Issues := duplicateIssues [] (declarations value)

/-- A member without one of its required states. -/
def missingState (missing : Bool) (family id state : String) : Issues :=
  addIf missing .missingEpistemic id (family ++ " " ++ quoted id ++ " declares no " ++ state)

def checkRequiredStates (value : EvidenceCase) : Issues :=
  addIf (value.primaryClaim.kind = .unspecified) .missingEpistemic value.primaryClaim.id
    "the primary claim declares no claim kind" ++
  addIf (value.primaryClaim.severity = .unspecified) .missingEpistemic value.primaryClaim.id
    "the primary claim declares no severity" ++
  addIf (value.verificationState = .unspecified) .missingEpistemic ""
    "the case declares no verification state" ++
  value.entities.flatMap (fun entity =>
    missingState (entity.kind = .unspecified) "entity" entity.id "entity kind") ++
  value.edges.flatMap (fun edge =>
    missingState (edge.kind = .unspecified) "edge" edge.id "relation kind" ++
    missingState (edge.epistemic = .unspecified) "edge" edge.id "epistemic state") ++
  value.paths.flatMap (fun path =>
    missingState (path.kind = .unspecified) "path" path.id "path kind" ++
    missingState (path.feasibility = .unspecified) "path" path.id "feasibility") ++
  value.facts.flatMap (fun fact =>
    missingState (fact.epistemic = .unspecified) "fact" fact.id "epistemic state" ++
    missingState (fact.confidence = .unspecified) "fact" fact.id "confidence") ++
  value.unknowns.flatMap (fun unknown =>
    missingState (unknown.reasonCode = .unspecified) "unknown" unknown.id "reason code") ++
  value.constraints.flatMap (fun constraint =>
    missingState (constraint.epistemic = .unspecified) "constraint" constraint.id
      "epistemic state") ++
  value.proofObligations.flatMap (fun obligation =>
    missingState (obligation.goalKind = .unspecified) "proof obligation" obligation.id
      "goal kind" ++
    missingState (obligation.status = .unspecified) "proof obligation" obligation.id "status") ++
  value.dependencies.flatMap (fun dependency =>
    missingState (dependency.kind = .unspecified) "dependency" dependency.id "dependency kind")

/-- The last record the completion query left. -/
def queryProvenance? (value : EvidenceCase) : Option Provenance :=
  value.provenance.reverse.find? fun record =>
    record.producer = queryCompletionProducerId ∧ record.rule = queryCompletionRuleId

/-- A record of another run than the one the case is bound to, or of no run. -/
def runIssues (value : EvidenceCase) (run : Option StableId) (id what absent other : String) :
    Issues :=
  match run with
  | none => [⟨.missingProvenance, id, what ++ absent⟩]
  | some runId => addIf (∃ bound ∈ value.program.analysisRunId, runId ≠ bound)
    .mixedProgramContext id (what ++ other)

def checkProvenance (value : EvidenceCase) : Issues :=
  value.facts.flatMap (fun fact =>
    if ¬fact.derived then []
    else if fact.provenanceId = "" then
      [⟨.missingProvenance, fact.id, "derived fact " ++ quoted fact.id ++ " carries no provenance"⟩]
    else addIf (∀ record ∈ value.provenance, record.id ≠ fact.provenanceId) .missingProvenance
      fact.id ("derived fact " ++ quoted fact.id ++ " names provenance " ++
        quoted fact.provenanceId ++ ", which the case does not declare")) ++
  value.provenance.flatMap (fun record =>
    runIssues value record.analysisRunId record.id ("provenance " ++ quoted record.id)
      " declares no analysis run" " belongs to another analysis run than the case binding") ++
  value.unknowns.flatMap (fun unknown =>
    if ¬unknown.reasonCode.isInterruptedQuery then []
    else match queryProvenance? value with
      | none => [⟨.missingProvenance, unknown.id, "interrupted query " ++ quoted unknown.id ++
          " has no query-completion provenance in the case"⟩]
      | some record => runIssues value record.analysisRunId unknown.id
          ("the query-completion provenance for " ++ quoted unknown.id)
          " declares no analysis run" " belongs to another analysis run than the case binding")

def checkStableIds (value : EvidenceCase) : Issues :=
  value.entities.flatMap (fun entity =>
    addIf (∃ id ∈ entity.stableId, ¬isCanonicalStableId id) .invalidStableId entity.id
      ("entity " ++ quoted entity.id ++ " carries a non-canonical stable ID")) ++
  value.facts.flatMap (fun fact =>
    addIf (∃ id ∈ fact.stableId, ¬isCanonicalStableId id) .invalidStableId fact.id
      ("fact " ++ quoted fact.id ++ " carries a non-canonical stable ID")) ++
  value.summaries.flatMap (fun summary =>
    if ¬isCanonicalStableId summary.summaryId then
      [⟨.invalidStableId, summary.id, "summary reference " ++ quoted summary.id ++
        " carries a non-canonical summary ID"⟩]
    else addIf (summary.summaryId.kind ≠ .functionSummary) .invalidStableId summary.id
      ("summary reference " ++ quoted summary.id ++ " does not identify a function summary")) ++
  value.dependencies.flatMap (fun dependency =>
    addIf (¬isCanonicalStableId dependency.stableId) .invalidStableId dependency.id
      ("dependency " ++ quoted dependency.id ++ " carries a non-canonical stable ID"))

/-- A universal goal over the feasible paths between two endpoints. -/
def isFeasiblePathsUniversal (term : Expression) : Bool :=
  match term.kind, term.operands with
  | .forAll, [domain, _] =>
    domain.kind = .call && domain.text = "feasible_paths" && domain.operands.length = 2
  | _, _ => false

def sameScope (domain call : Expression) (name : String) : Bool :=
  call.kind = .call && call.text = name && call.operands = domain.operands

def isNonemptyDomain (domain branch : Expression) : Bool :=
  match branch.kind, branch.operands with
  | .«exists», [scope, body] => scope = domain && body.kind = .bool && body.boolean
  | _, _ => false

def admitsDomain (domain term : Expression) : Bool :=
  term.kind = .or && term.operands.length = 2 && term.operands.any (isNonemptyDomain domain ·) &&
    term.operands.any (sameScope domain · "entry_infeasible")

/-- The last universal goal over feasible paths decides which endpoints the other terms must
name. -/
def hasExecutionDomainArgument (predicate : Expression) : Bool :=
  predicate.kind = .and &&
    match predicate.operands.reverse.find? isFeasiblePathsUniversal with
    | none => false
    | some universal =>
      match universal.operands with
      | domain :: _ =>
        predicate.operands.any (sameScope domain · "execution_domain_complete") &&
          predicate.operands.any (admitsDomain domain ·)
      | [] => false

def ProofObligation.isDecided (obligation : ProofObligation) : Bool :=
  obligation.resultId ≠ "" && obligation.verificationProducer ≠ ""

def obligationIssues (obligation : ProofObligation) : Issues :=
  match obligation.status with
  | .unspecified | .unknown => []
  | .pending => addIf (obligation.resultId ≠ "" ∨ obligation.verificationProducer ≠ "")
    .verificationProducer obligation.id ("pending obligation " ++ quoted obligation.id ++
      " carries a result that no verifier produced")
  | .proved | .refuted | .timeout | .unsupported => addIf (¬obligation.isDecided)
    .verificationProducer obligation.id ("obligation " ++ quoted obligation.id ++
      " carries a decided result without both a result ID and a verification producer")

def ProofObligation.isConclusive (obligation : ProofObligation) : Bool :=
  (obligation.status = .proved || obligation.status = .refuted) && obligation.isDecided

/-- A decided proof that may warrant a verified safe state. -/
def ProofObligation.isProvedGoal (obligation : ProofObligation) : Bool :=
  obligation.goalKind = .prove && obligation.status = .proved && obligation.isDecided

def checkExecutionDomain (value : EvidenceCase) : Issues :=
  addIf (value.verificationState = .verifiedSafe ∧ ¬∃ obligation ∈ value.proofObligations,
      obligation.isProvedGoal ∧ hasExecutionDomainArgument obligation.predicate)
    .verificationProducer "" ("verified safety requires a proved complete execution domain and " ++
      "a nonempty feasible domain or explicit infeasible entry")

def checkProofAuthority (value : EvidenceCase) : Issues :=
  value.proofObligations.flatMap obligationIssues ++ checkExecutionDomain value ++
  addIf (value.verificationState.isVerified ∧
      (value.proofObligations.filter ProofObligation.isConclusive).length = 0)
    .verificationProducer "" ("the case claims verification state " ++
      value.verificationState.toString ++ " with no decided proof result")

section References

variable (value : EvidenceCase)

def resolveEntity (id owner what : String) : Issues :=
  if id = "" then [⟨.danglingReference, owner, what ++ " is empty"⟩]
  else match memberKind? value id with
    | none => [⟨.danglingReference, owner, what ++ " " ++ quoted id ++
        " is declared by no member"⟩]
    | some kind => addIf (kind ≠ .entity) .danglingReference owner
        (what ++ " " ++ quoted id ++ " names a " ++ kind.name ++ ", not an entity")

def resolveProvenance (id owner what : String) : Issues :=
  if id = "" then []
  else match memberKind? value id with
    | none => [⟨.danglingReference, owner, what ++ " names provenance " ++ quoted id ++
        ", which the case does not declare"⟩]
    | some kind => addIf (kind ≠ .provenance) .danglingReference owner
        (what ++ " names " ++ quoted id ++ ", a " ++ kind.name ++ ", not a provenance record")

def resolveMember (id owner what : String) : Issues :=
  addIf (memberKind? value id = none) .danglingReference owner
    (what ++ " " ++ quoted id ++ " is declared by no member")

def resolveReference (text owner : String) : Issues :=
  if text = "" then [⟨.danglingReference, owner, "an expression reference is empty"⟩]
  else addIf (memberKind? value text = none) .danglingReference owner
    ("reference " ++ quoted text ++ " is declared by no member")

mutual

def resolveExpression (owner : String) : Expression → Issues
  | ⟨kind, text, _, _, operands⟩ =>
    (if kind = .reference then resolveReference value text owner else []) ++
      resolveExpressions owner operands

def resolveExpressions (owner : String) : List Expression → Issues
  | [] => []
  | expression :: expressions =>
    resolveExpression owner expression ++ resolveExpressions owner expressions

end

def checkReferences : Issues :=
  resolveEntity value value.primaryClaim.subject value.primaryClaim.id
    "the primary claim's subject" ++
  resolveExpression value value.primaryClaim.id value.primaryClaim.predicate ++
  value.entities.flatMap (fun entity =>
    entity.properties.entries.flatMap fun property =>
      resolveExpression value entity.id property.2) ++
  value.edges.flatMap (fun edge =>
    resolveEntity value edge.source edge.id "the edge's source" ++
    resolveEntity value edge.target edge.id "the edge's target" ++
    resolveProvenance value edge.provenanceId edge.id "the edge" ++
    if ¬edge.expandable ∧ edge.summarizedBy ≠ "" then
      resolveMember value edge.summarizedBy edge.id "the edge's summary reference"
    else []) ++
  value.paths.flatMap (fun path =>
    path.entityIds.flatMap (fun id => resolveEntity value id path.id "a path segment") ++
    path.conditions.flatMap (fun condition => resolveExpression value path.id condition) ++
    resolveProvenance value path.provenanceId path.id "the path") ++
  value.facts.flatMap (fun fact =>
    resolveExpression value fact.id fact.predicate ++
    resolveProvenance value fact.provenanceId fact.id "the fact") ++
  value.assumptions.flatMap (fun assumption =>
    resolveExpression value assumption.id assumption.predicate) ++
  value.hypotheses.flatMap (fun hypothesis =>
    resolveExpression value hypothesis.id hypothesis.predicate) ++
  value.unknowns.flatMap (fun unknown =>
    resolveExpression value unknown.id unknown.property ++
    unknown.blockingIds.flatMap fun blocked =>
      resolveMember value blocked unknown.id "the blocked fact") ++
  value.constraints.flatMap (fun constraint =>
    resolveExpression value constraint.id constraint.expression ++
    resolveProvenance value constraint.provenanceId constraint.id "the constraint") ++
  value.provenance.flatMap (fun record =>
    record.inputFactIds.flatMap fun input =>
      resolveMember value input record.id "the provenance input") ++
  value.proofObligations.flatMap (fun obligation =>
    resolveExpression value obligation.id obligation.predicate ++
    resolveExpression value obligation.id obligation.budget) ++
  value.summaries.flatMap (fun summary =>
    resolveEntity value summary.functionId summary.id "the summarized function") ++
  value.omissions.flatMap (fun omission =>
    resolveMember value omission.subject omission.id "the omission's subject")

end References

section ExpressionTyping

def maxExpressionDepth : ℕ := 64

variable (owner position : String)

def checkOperand (operand : Expression) (requireFormula : Bool) : Issues :=
  if requireFormula then
    addIf operand.kind.isLiteral .expressionType owner
      (position ++ ": a " ++ operand.kind.name ++ " literal is not a predicate")
  else
    addIf operand.kind.isFormula .expressionType owner
      (position ++ ": a " ++ operand.kind.name ++ " formula appears in a value position")

def checkArity (expression : Expression) (expected : ℕ) : Issues :=
  addIf (expression.operands.length ≠ expected) .expressionType owner
    (position ++ ": a " ++ expression.kind.name ++ " expression takes " ++ toString expected ++
      " operand(s) but carries " ++ toString expression.operands.length)

def ExpressionKind.hasText : ExpressionKind → Bool
  | .string | .symbol | .reference | .call | .compare | .forAll | .«exists» => true
  | .unspecified | .bool | .integer | .not | .and | .or | .implies => false

/-- Payloads a node of its kind does not read stay at their defaults. -/
def checkPayload (expression : Expression) : Issues :=
  addIf (expression.kind ≠ .bool ∧ expression.boolean) .expressionType owner
    (position ++ ": carries a boolean payload that is inactive for " ++ expression.kind.name) ++
  addIf (expression.kind ≠ .integer ∧ expression.integer ≠ 0) .expressionType owner
    (position ++ ": carries an integer payload that is inactive for " ++ expression.kind.name) ++
  addIf (¬expression.kind.hasText ∧ expression.text ≠ "") .expressionType owner
    (position ++ ": carries a text payload that is inactive for " ++ expression.kind.name)

/-- The operand contract of one node other than an absent one. -/
def checkOperandContract (expression : Expression) : Issues :=
  match expression.kind with
  | .unspecified => []
  | .bool | .integer | .string | .symbol | .reference =>
    addIf (expression.operands.length ≠ 0) .expressionType owner
      (position ++ ": a " ++ expression.kind.name ++ " expression takes no operands but carries " ++
        toString expression.operands.length)
  | .call => addIf (expression.text = "") .expressionType owner
      (position ++ ": a call names no callee")
  | .not => checkArity owner position expression 1 ++
      if expression.operands.length = 1 then
        expression.operands.flatMap (checkOperand owner position · true)
      else []
  | .compare =>
    addIf (¬isComparisonOperator expression.text) .expressionType owner
      (position ++ ": " ++ quoted expression.text ++ " is not a comparison operator") ++
    checkArity owner position expression 2 ++
      if expression.operands.length = 2 then
        expression.operands.flatMap (checkOperand owner position · false)
      else []
  | .and | .or =>
    addIf (expression.operands.length < 2) .expressionType owner
      (position ++ ": a " ++ expression.kind.name ++
        " expression takes two or more operands but carries " ++
        toString expression.operands.length) ++
    expression.operands.zipIdx.flatMap fun indexed =>
      checkOperand owner position indexed.1 true ++
      addIf (indexed.1.kind = expression.kind) .expressionType owner
        (position ++ ": operand " ++ toString (indexed.2 + 1) ++ " is a directly nested " ++
          expression.kind.name ++ "; a " ++ expression.kind.name ++
          " expression must be flattened into one operand list")
  | .implies => checkArity owner position expression 2 ++
      expression.operands.flatMap (checkOperand owner position · true)
  | .forAll | .«exists» =>
    addIf (expression.text = "") .expressionType owner
      (position ++ ": a quantified expression binds no variable") ++
    checkArity owner position expression 2

mutual

def checkExpression (absentAllowed : Bool) (depth : ℕ) : Expression → Issues
  | ⟨kind, text, integer, boolean, operands⟩ =>
    if maxExpressionDepth < depth then
      [⟨.expressionType, owner, position ++ ": nests deeper than validation walks"⟩]
    else checkPayload owner position ⟨kind, text, integer, boolean, operands⟩ ++
      if kind = .unspecified then
        addIf (operands ≠ []) .expressionType owner
          (position ++ ": an absent expression carries inactive operands") ++
        addIf (¬absentAllowed) .expressionType owner (position ++ ": declares no expression")
      else checkOperandContract owner position ⟨kind, text, integer, boolean, operands⟩ ++
        checkExpressionOperands (depth + 1) operands

def checkExpressionOperands (depth : ℕ) : List Expression → Issues
  | [] => []
  | operand :: operands =>
    checkExpression false depth operand ++ checkExpressionOperands depth operands

end

end ExpressionTyping

def checkExpressions (value : EvidenceCase) : Issues :=
  checkExpression value.primaryClaim.id "the primary claim's predicate" true 0
    value.primaryClaim.predicate ++
  value.entities.flatMap (fun entity => entity.properties.entries.flatMap fun property =>
    checkExpression entity.id ("entity property " ++ quoted property.1) false 0 property.2) ++
  value.paths.flatMap (fun path => path.conditions.flatMap fun condition =>
    checkExpression path.id "a path condition" false 0 condition) ++
  value.facts.flatMap (fun fact =>
    checkExpression fact.id "the fact's predicate" false 0 fact.predicate) ++
  value.assumptions.flatMap (fun assumption =>
    checkExpression assumption.id "the assumption's predicate" false 0 assumption.predicate) ++
  value.hypotheses.flatMap (fun hypothesis =>
    checkExpression hypothesis.id "the hypothesis's predicate" false 0 hypothesis.predicate) ++
  value.unknowns.flatMap (fun unknown =>
    checkExpression unknown.id "the unknown's property" false 0 unknown.property) ++
  value.constraints.flatMap (fun constraint =>
    checkExpression constraint.id "the constraint's expression" false 0 constraint.expression) ++
  value.proofObligations.flatMap (fun obligation =>
    checkExpression obligation.id "the proof goal" false 0 obligation.predicate ++
    checkExpression obligation.id "the proof budget" true 0 obligation.budget)

def hasSegment (value : EvidenceCase) (path : Path) (source target : String) : Bool :=
  value.edges.any fun edge => edge.source = source && edge.target = target &&
    match relationForPathKind path.kind with
    | none => true
    | some required => edge.kind = required

def checkPaths (value : EvidenceCase) : Issues :=
  value.paths.flatMap fun path =>
    if path.entityIds.length < 2 then
      [⟨.pathDisconnected, path.id, "path " ++ quoted path.id ++
        " carries fewer than two segments"⟩]
    else (path.entityIds.zip path.entityIds.tail).flatMap fun segment =>
      addIf (¬hasSegment value path segment.1 segment.2) .pathDisconnected path.id
        ("path " ++ quoted path.id ++ " jumps from " ++ quoted segment.1 ++ " to " ++
          quoted segment.2 ++ " with no connecting edge")

/-- An empty id is not a hypothesis id. -/
def isHypothesisId (value : EvidenceCase) (id : String) : Bool :=
  id ≠ "" && value.hypotheses.any (·.id = id)

def checkHypothesisIsolation (value : EvidenceCase) : Issues :=
  value.provenance.flatMap (fun record => record.inputFactIds.flatMap fun input =>
    addIf (isHypothesisId value input) .hypothesisAuthority record.id
      ("provenance " ++ quoted record.id ++ " derives from hypothesis " ++ quoted input)) ++
  value.unknowns.flatMap (fun unknown => unknown.blockingIds.flatMap fun blocked =>
    addIf (isHypothesisId value blocked) .hypothesisAuthority unknown.id
      ("unknown " ++ quoted unknown.id ++ " treats hypothesis " ++ quoted blocked ++
        " as blocking evidence"))

/-- The first omission about a member. -/
def omissionDeclaring (value : EvidenceCase) (localId : String) : Option Omission :=
  if localId = "" then none else value.omissions.find? (·.subject = localId)

def checkExpandableEdges (value : EvidenceCase) : Issues :=
  value.edges.flatMap fun edge =>
    if ¬edge.expandable then []
    else if edge.summarizedBy = "" then
      [⟨.hiddenOmission, edge.id, "expandable edge " ++ quoted edge.id ++
        " names no expansion target"⟩]
    else match memberKind? value edge.summarizedBy with
      | none => [⟨.hiddenOmission, edge.id, "expandable edge " ++ quoted edge.id ++
          " names expansion target " ++ quoted edge.summarizedBy ++
          ", which no member declares"⟩]
      | some kind =>
        if kind ≠ .summary then
          [⟨.hiddenOmission, edge.id, "expandable edge " ++ quoted edge.id ++
            " names expansion target " ++ quoted edge.summarizedBy ++ ", a " ++ kind.name ++
            ", not a summary reference"⟩]
        else addIf (omissionDeclaring value edge.summarizedBy = none) .hiddenOmission edge.id
          ("expandable edge " ++ quoted edge.id ++ " leaves summary " ++
            quoted edge.summarizedBy ++ " withheld with no omission declaring it")

def checkWithheldSummaries (value : EvidenceCase) : Issues :=
  value.omissions.flatMap fun omission =>
    addIf (memberKind? value omission.subject = some .summary ∧ ¬omission.expandable)
      .hiddenOmission omission.id ("omission " ++ quoted omission.id ++ " withholds summary " ++
        quoted omission.subject ++ " as non-expandable")

def checkInterruptedQueries (value : EvidenceCase) : Issues :=
  value.unknowns.flatMap fun unknown =>
    if ¬unknown.reasonCode.isInterruptedQuery then []
    else match omissionDeclaring value unknown.id with
      | none => [⟨.hiddenOmission, unknown.id, "interrupted query " ++ quoted unknown.id ++
          " is declared by no omission"⟩]
      | some declaring => addIf (¬declaring.expandable) .hiddenOmission unknown.id
          ("omission " ++ quoted declaring.id ++ " withholds interrupted query " ++
            quoted unknown.id ++ " as non-expandable")

def checkOmissionVisibility (value : EvidenceCase) : Issues :=
  checkExpandableEdges value ++ checkWithheldSummaries value ++ checkInterruptedQueries value

/-- The issues of the report, in pass order. -/
def validateEvidenceCase (value : EvidenceCase) : Issues :=
  checkHeader value ++ checkProgramBinding value ++ checkPrimaryClaim value ++
  checkDuplicateLocalIds value ++ checkRequiredStates value ++ checkProvenance value ++
  checkStableIds value ++ checkProofAuthority value ++ checkReferences value ++
  checkExpressions value ++ checkPaths value ++ checkHypothesisIsolation value ++
  checkOmissionVisibility value

def requireValidEvidenceCase (value : EvidenceCase) : StatusOr Unit :=
  match validateEvidenceCase value with
  | [] => pure ()
  | issue :: _ => throw (.invalidArgument ("invalid evidence case: " ++ issue.code.toString ++
      " (" ++ issue.memberId ++ "): " ++ issue.message))

/-- The identity is assigned only to a valid case. -/
def finalizeEvidenceIdentity (sha256 : String → String) (value : EvidenceCase) :
    StatusOr EvidenceCase := do
  requireValidEvidenceCase value
  return { value with evidenceId := some (computeEvidenceId sha256 value) }

end Veritas.Evidence

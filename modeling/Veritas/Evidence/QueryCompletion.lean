import Veritas.Facts.FactLookup

/-! Query budgets, result metadata and the completion fact that certifies a query result. -/
namespace Veritas

open StatusOr

inductive QueryCompleteness
  | unspecified | complete | truncated
  deriving DecidableEq

inductive TruncationReason
  | unspecified | maxDepth | maxNodes | maxPaths | maxFacts | maxProvenanceDepth | maxFactWork
  | maxFactBytes
  deriving DecidableEq

def TruncationReason.ordinal (reason : TruncationReason) : ℕ := reason.ctorIdx

theorem TruncationReason.ordinal_injective : Function.Injective TruncationReason.ordinal :=
  Function.LeftInverse.injective (g := TruncationReason.ofNat) TruncationReason.ofNat_ctorIdx

/-- Declaration order is the canonical order of a reason list. -/
instance : LinearOrder TruncationReason :=
  LinearOrder.lift' TruncationReason.ordinal TruncationReason.ordinal_injective

def QueryCompleteness.toString : QueryCompleteness → String
  | .unspecified => "unspecified"
  | .complete => "complete"
  | .truncated => "truncated"

def TruncationReason.toString : TruncationReason → String
  | .unspecified => "unspecified"
  | .maxDepth => "max_depth"
  | .maxNodes => "max_nodes"
  | .maxPaths => "max_paths"
  | .maxFacts => "max_facts"
  | .maxProvenanceDepth => "max_provenance_depth"
  | .maxFactWork => "max_fact_work"
  | .maxFactBytes => "max_fact_bytes"

structure QueryResultMetadata where
  completeness : QueryCompleteness
  truncationReasons : List TruncationReason
  examinedItems : ℕ
  analysisRunId : StableId
  queryProvenanceId : StableId

structure EvidenceQueryBudget where
  maxDepth : ℕ
  maxNodes : ℕ
  maxPaths : ℕ
  maxFactsPerQuery : ℕ
  maxProvenanceDepth : ℕ

def validateEvidenceQueryBudget (budget : EvidenceQueryBudget) : StatusOr Unit := do
  if budget.maxDepth = 0 then throw (.invalidArgument "max_depth is zero")
  if budget.maxNodes = 0 then throw (.invalidArgument "max_nodes is zero")
  if budget.maxPaths = 0 then throw (.invalidArgument "max_paths is zero")
  if budget.maxFactsPerQuery = 0 then throw (.invalidArgument "max_facts_per_query is zero")
  if budget.maxProvenanceDepth = 0 then throw (.invalidArgument "max_provenance_depth is zero")

theorem validateEvidenceQueryBudget_eq_ok {budget : EvidenceQueryBudget} :
    validateEvidenceQueryBudget budget = .ok () ↔
      budget.maxDepth ≠ 0 ∧ budget.maxNodes ≠ 0 ∧ budget.maxPaths ≠ 0 ∧
        budget.maxFactsPerQuery ≠ 0 ∧ budget.maxProvenanceDepth ≠ 0 := by
  simp only [validateEvidenceQueryBudget, guard_eq_ok, throwIf_eq_ok]

structure RunFactBinding where
  runId : StableId
  factId : StableId
  producerKind : ProducerKind
  analyzerRunId : String
  scopeKind : String
  scopeId : String
  selectedWitnessId : String
  isCurrent : Bool

structure FactWitness where
  runId : StableId
  outputFactId : StableId
  witnessId : String
  selected : Bool
  producerKind : ProducerKind
  producerId : String
  ruleId : String
  ruleVersion : String
  analyzerRunId : String
  sourceAnchorId : String
  summaryId : String
  description : String

structure QueryCompletionDescriptor where
  queryKind : String
  orderedScopeRefs : List StableId
  budget : EvidenceQueryBudget
  queryImplementationVersion : String
  inputSnapshotFingerprint : String
  completeness : QueryCompleteness
  orderedTruncationReasons : List TruncationReason
  examinedItems : ℕ
  returnedMemberDigest : String

def encodeScopeRefs (refs : List StableId) : String :=
  String.intercalate "," (refs.map StableId.toString)

def encodeReasons (reasons : List TruncationReason) : String :=
  String.intercalate "," (reasons.map TruncationReason.toString)

def encodeBudget (budget : EvidenceQueryBudget) : String :=
  String.intercalate "," [budget.maxDepth.repr, budget.maxNodes.repr, budget.maxPaths.repr,
    budget.maxFactsPerQuery.repr, budget.maxProvenanceDepth.repr]

def validateDescriptor (descriptor : QueryCompletionDescriptor) : StatusOr Unit := do
  if descriptor.completeness = .unspecified then
    throw (.invalidArgument "completion certificate is unspecified")
  validateEvidenceQueryBudget descriptor.budget
  if descriptor.completeness = .complete ∧ descriptor.orderedTruncationReasons ≠ [] then
    throw (.invalidArgument "complete certificate carries reasons")
  if descriptor.completeness = .truncated ∧ descriptor.orderedTruncationReasons = [] then
    throw (.invalidArgument "truncated certificate carries no reason")
  if TruncationReason.unspecified ∈ descriptor.orderedTruncationReasons then
    throw (.invalidArgument "unspecified truncation reason")
  if ¬ descriptor.orderedTruncationReasons.Nodup then
    throw (.invalidArgument "duplicate truncation reason")

/-- The nine cells of the completion relation. -/
def completionRow (descriptor : QueryCompletionDescriptor) : SemanticRow :=
  ⟨.queryCompletion, [.string descriptor.queryKind,
    .string (encodeScopeRefs descriptor.orderedScopeRefs),
    .string (encodeBudget descriptor.budget), .string descriptor.queryImplementationVersion,
    .string descriptor.inputSnapshotFingerprint, .string descriptor.completeness.toString,
    .string (encodeReasons descriptor.orderedTruncationReasons),
    .uint64 (UInt64.ofNat descriptor.examinedItems), .string descriptor.returnedMemberDigest]⟩

def makeQueryCompletionFact (sha256 : String → String) (descriptor : QueryCompletionDescriptor) :
    StatusOr AnalysisFact := do
  validateDescriptor descriptor
  makeFact sha256 (completionRow descriptor)

theorem makeQueryCompletionFact_isOk {sha256 : String → String}
    {descriptor : QueryCompletionDescriptor} (h : validateDescriptor descriptor = .ok ()) :
    ∃ fact, makeQueryCompletionFact sha256 descriptor = .ok fact := by
  refine ⟨⟨makeStableId sha256 .fact (writePreimage (completionRow descriptor)),
    completionRow descriptor⟩, bind_eq_ok.mpr ⟨(), h, ?_⟩⟩
  rfl

structure QueryCertificate where
  completionFact : AnalysisFact
  binding : RunFactBinding
  witness : FactWitness

def queryImplementationVersion : String := "veritas-evidence-query.v2"
def queryCompletionRuleId : String := "evidence.query_completion.v1"
def queryCompletionProducerId : String := "evidence-query"
def queryCompletionWitnessId : String := "completion"

/-- What a query result certifies, with the reasons in canonical order. -/
def completionDescriptor (queryKind : String) (scopeRefs : List StableId)
    (budget : EvidenceQueryBudget) (fingerprint : String) (completeness : QueryCompleteness)
    (reasons : List TruncationReason) (examinedItems : ℕ) (returnedMemberDigest : String) :
    QueryCompletionDescriptor where
  queryKind := queryKind
  orderedScopeRefs := scopeRefs
  budget := budget
  queryImplementationVersion := queryImplementationVersion
  inputSnapshotFingerprint := fingerprint
  completeness := completeness
  orderedTruncationReasons := reasons.insertionSort (· ≤ ·)
  examinedItems := examinedItems
  returnedMemberDigest := returnedMemberDigest

def certificateOf (queryKind : String) (runId : StableId) (fact : AnalysisFact) :
    QueryCertificate where
  completionFact := fact
  binding := ⟨runId, fact.factId, .external, runId.toString, "evidence-query", queryKind,
    queryCompletionWitnessId, true⟩
  witness := ⟨runId, fact.factId, queryCompletionWitnessId, true, .external,
    queryCompletionProducerId, queryCompletionRuleId, "v1", runId.toString, "", "", ""⟩

def makeQueryCertificate (sha256 : String → String) (queryKind : String)
    (scopeRefs : List StableId) (budget : EvidenceQueryBudget) (fingerprint : String)
    (completeness : QueryCompleteness) (reasons : List TruncationReason) (examinedItems : ℕ)
    (returnedMemberDigest : String) (runId : StableId) : StatusOr QueryCertificate := do
  let fact ← makeQueryCompletionFact sha256 (completionDescriptor queryKind scopeRefs budget
    fingerprint completeness reasons examinedItems returnedMemberDigest)
  return certificateOf queryKind runId fact

end Veritas

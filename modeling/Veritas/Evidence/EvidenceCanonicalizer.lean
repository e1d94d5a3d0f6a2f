import Veritas.Evidence.CanonicalValue
import Veritas.Evidence.EvidenceCase
import Veritas.Library.Matching

/-! The canonical bytes of an evidence case: one value tree, every unordered collection sorted. -/
namespace Veritas.Evidence

open Matching

structure SortKey where
  kind : String := ""
  stableId : String := ""
  localId : String := ""

structure KeyedElement where
  key : SortKey
  bytes : String
  value : CanonicalValue

/-- `KeyedLess` compares kind, stable id, local id and then the element's own bytes. -/
def KeyedElement.rank (element : KeyedElement) : String ×ₗ String ×ₗ String ×ₗ String :=
  toLex (element.key.kind, toLex (element.key.stableId, toLex (element.key.localId, element.bytes)))

def makeKeyedElement (key : SortKey) (value : CanonicalValue) : KeyedElement :=
  ⟨key, value.encode, value⟩

def sortedValues (elements : List KeyedElement) : List CanonicalValue :=
  (sortOn KeyedElement.rank elements).map KeyedElement.value

def sortedArray (elements : List KeyedElement) : CanonicalValue := .array (sortedValues elements)

def sortValuesByEncoding (values : List CanonicalValue) : List CanonicalValue :=
  sortedValues (values.map (makeKeyedElement {}))

def stableIdComponent (stableId : Option StableId) : String := (stableId.map StableId.toString).getD ""

def encodeOptionalStableId : Option StableId → CanonicalValue
  | none => .null
  | some stableId => .string stableId.toString

def encodeRequiredStableId (stableId : StableId) : CanonicalValue := .string stableId.toString

/-- A reference list is sorted by value and keeps its repetitions. -/
def encodeSortedStrings (values : List String) : CanonicalValue :=
  .array ((values.insertionSort (· ≤ ·)).map .string)

def ExpressionKind.commutative (kind : ExpressionKind) : Bool := kind = .and || kind = .or

section Values

/-! The trees of the records, over the order of values that carry no identity of their own. -/

variable (order : List CanonicalValue → List CanonicalValue)

mutual

-- Objects list their entries by key, the order in which the map behind them iterates.
def expressionValue : Expression → CanonicalValue
  | ⟨kind, text, integer, boolean, operands⟩ =>
    .object [("boolean", .bool boolean), ("integer", .int integer), ("kind", .string kind.name),
      ("operands", .array (if kind.commutative then order (expressionValues operands)
        else expressionValues operands)),
      ("text", .string text)]

def expressionValues : List Expression → List CanonicalValue
  | [] => []
  | expression :: expressions => expressionValue expression :: expressionValues expressions

end

theorem expressionValues_eq_map (expressions : List Expression) :
    expressionValues order expressions = expressions.map (expressionValue order) := by
  induction expressions with
  | nil => rfl
  | cons expression expressions ih => rw [expressionValues, ih, List.map_cons]

def entityValue (entity : Entity) : CanonicalValue :=
  .object [("id", .string entity.id), ("kind", .string entity.kind.toString),
    ("properties", .object (entity.properties.entries.map fun property =>
      (property.1, expressionValue order property.2))),
    ("stable_id", encodeOptionalStableId entity.stableId)]

/-- The conditions hold together and are ordered like an `and`; the segments are the path. -/
def pathValue (path : Path) : CanonicalValue :=
  .object [("conditions", .array (order (path.conditions.map (expressionValue order)))),
    ("entity_ids", .array (path.entityIds.map .string)),
    ("feasibility", .string path.feasibility.toString), ("id", .string path.id),
    ("kind", .string path.kind.toString), ("provenance_id", .string path.provenanceId)]

def claimValue (claim : Claim) : CanonicalValue :=
  .object [("description", .string claim.description), ("id", .string claim.id),
    ("kind", .string claim.kind.toString), ("predicate", expressionValue order claim.predicate),
    ("severity", .string claim.severity.toString), ("subject", .string claim.subject)]

def factValue (fact : Fact) : CanonicalValue :=
  .object [("confidence", .string fact.confidence.toString), ("derived", .bool fact.derived),
    ("epistemic", .string fact.epistemic.toString), ("id", .string fact.id),
    ("predicate", expressionValue order fact.predicate), ("producer", .string fact.producer),
    ("provenance_id", .string fact.provenanceId),
    ("stable_id", encodeOptionalStableId fact.stableId)]

def assumptionValue (assumption : Assumption) : CanonicalValue :=
  .object [("id", .string assumption.id), ("predicate", expressionValue order assumption.predicate),
    ("scope", .string assumption.scope), ("source", .string assumption.source)]

def hypothesisValue (hypothesis : Hypothesis) : CanonicalValue :=
  .object [("confidence", .string hypothesis.confidence.toString), ("id", .string hypothesis.id),
    ("predicate", expressionValue order hypothesis.predicate),
    ("producer", .string hypothesis.producer), ("reason", .string hypothesis.reason)]

def unknownValue (unknown : Unknown) : CanonicalValue :=
  .object [("blocking_ids", encodeSortedStrings unknown.blockingIds), ("id", .string unknown.id),
    ("property", expressionValue order unknown.property), ("reason", .string unknown.reason),
    ("reason_code", .string unknown.reasonCode.toString),
    ("suggested_resolution", .string unknown.suggestedResolution)]

def constraintValue (constraint : Constraint) : CanonicalValue :=
  .object [("epistemic", .string constraint.epistemic.toString),
    ("expression", expressionValue order constraint.expression), ("id", .string constraint.id),
    ("provenance_id", .string constraint.provenanceId), ("scope", .string constraint.scope)]

def proofObligationValue (obligation : ProofObligation) : CanonicalValue :=
  .object [("budget", expressionValue order obligation.budget),
    ("goal_kind", .string obligation.goalKind.toString), ("id", .string obligation.id),
    ("predicate", expressionValue order obligation.predicate),
    ("result_id", .string obligation.resultId), ("status", .string obligation.status.toString),
    ("verification_producer", .string obligation.verificationProducer),
    ("verifier_kinds", encodeSortedStrings obligation.verifierKinds)]

end Values

def encodeExpression : Expression → CanonicalValue := expressionValue sortValuesByEncoding

def encodeEntity : Entity → CanonicalValue := entityValue sortValuesByEncoding

def encodePath : Path → CanonicalValue := pathValue sortValuesByEncoding

def encodeClaim : Claim → CanonicalValue := claimValue sortValuesByEncoding

def encodeFact : Fact → CanonicalValue := factValue sortValuesByEncoding

def encodeAssumption : Assumption → CanonicalValue := assumptionValue sortValuesByEncoding

def encodeHypothesis : Hypothesis → CanonicalValue := hypothesisValue sortValuesByEncoding

def encodeUnknown : Unknown → CanonicalValue := unknownValue sortValuesByEncoding

def encodeConstraint : Constraint → CanonicalValue := constraintValue sortValuesByEncoding

def encodeProofObligation : ProofObligation → CanonicalValue :=
  proofObligationValue sortValuesByEncoding

/-- A member collection: every record with its sort key and its value. -/
def encodeCollection {α : Type*} (key : α → SortKey) (encode : α → CanonicalValue)
    (records : List α) : CanonicalValue :=
  sortedArray (records.map fun record => makeKeyedElement (key record) (encode record))

def encodeAnalyzerVersion (version : AnalyzerVersion) : CanonicalValue :=
  .object [("configuration", .string version.configuration), ("producer", .string version.producer),
    ("version", .string version.version)]

def encodeProgramBinding (program : ProgramBinding) : CanonicalValue :=
  .object [("analysis_configuration_id", .string program.analysisConfigurationId),
    ("analysis_run_id", encodeOptionalStableId program.analysisRunId),
    ("analyzer_versions",
      encodeCollection (fun _ => {}) encodeAnalyzerVersion program.analyzerVersions),
    ("build_variant_id", .string program.buildVariantId),
    ("repository_id", .string program.repositoryId), ("revision_id", .string program.revisionId),
    ("target_triple", .string program.targetTriple),
    ("type_layout_id", .string program.typeLayoutId)]

def encodeEdge (edge : Edge) : CanonicalValue :=
  .object [("epistemic", .string edge.epistemic.toString), ("expandable", .bool edge.expandable),
    ("from", .string edge.source), ("id", .string edge.id), ("kind", .string edge.kind.toString),
    ("provenance_id", .string edge.provenanceId), ("summarized_by", .string edge.summarizedBy),
    ("to", .string edge.target)]

def encodeProvenance (record : Provenance) : CanonicalValue :=
  .object [("analysis_run_id", encodeOptionalStableId record.analysisRunId),
    ("configuration", .string record.configuration), ("id", .string record.id),
    ("input_fact_ids", encodeSortedStrings record.inputFactIds),
    ("producer", .string record.producer), ("rule", .string record.rule),
    ("source_anchor_id", .string record.sourceAnchorId), ("version", .string record.version)]

def encodeSummaryReference (summary : SummaryReference) : CanonicalValue :=
  .object [("components", encodeSortedStrings summary.components),
    ("function_id", .string summary.functionId), ("id", .string summary.id),
    ("summary_id", encodeRequiredStableId summary.summaryId)]

def encodeDependency (dependency : Dependency) : CanonicalValue :=
  .object [("id", .string dependency.id), ("kind", .string dependency.kind.toString),
    ("stable_id", encodeRequiredStableId dependency.stableId)]

def encodeOmission (omission : Omission) : CanonicalValue :=
  .object [("expandable", .bool omission.expandable), ("id", .string omission.id),
    ("kind", .string omission.kind), ("reason", .string omission.reason),
    ("subject", .string omission.subject)]

/-! The sort keys of the records; a record without a kind or stable id leaves that part empty. -/

def Entity.sortKey (entity : Entity) : SortKey :=
  { kind := entity.kind.toString, stableId := stableIdComponent entity.stableId,
    localId := entity.id }

def Edge.sortKey (edge : Edge) : SortKey := { kind := edge.kind.toString, localId := edge.id }

def Path.sortKey (path : Path) : SortKey := { kind := path.kind.toString, localId := path.id }

def Fact.sortKey (fact : Fact) : SortKey :=
  { stableId := stableIdComponent fact.stableId, localId := fact.id }

def Assumption.sortKey (assumption : Assumption) : SortKey := { localId := assumption.id }

def Hypothesis.sortKey (hypothesis : Hypothesis) : SortKey := { localId := hypothesis.id }

def Unknown.sortKey (unknown : Unknown) : SortKey := { localId := unknown.id }

def Constraint.sortKey (constraint : Constraint) : SortKey := { localId := constraint.id }

def Provenance.sortKey (record : Provenance) : SortKey := { localId := record.id }

def ProofObligation.sortKey (obligation : ProofObligation) : SortKey :=
  { kind := obligation.goalKind.toString, localId := obligation.id }

def SummaryReference.sortKey (summary : SummaryReference) : SortKey := { localId := summary.id }

def Dependency.sortKey (dependency : Dependency) : SortKey :=
  { kind := dependency.kind.toString, localId := dependency.id }

def Omission.sortKey (omission : Omission) : SortKey := { localId := omission.id }

def encodeEntities : List Entity → CanonicalValue :=
  encodeCollection Entity.sortKey encodeEntity

def encodeEdges : List Edge → CanonicalValue :=
  encodeCollection Edge.sortKey encodeEdge

def encodePaths : List Path → CanonicalValue :=
  encodeCollection Path.sortKey encodePath

def encodeFacts : List Fact → CanonicalValue :=
  encodeCollection Fact.sortKey encodeFact

def encodeAssumptions : List Assumption → CanonicalValue :=
  encodeCollection Assumption.sortKey encodeAssumption

def encodeHypotheses : List Hypothesis → CanonicalValue :=
  encodeCollection Hypothesis.sortKey encodeHypothesis

def encodeUnknowns : List Unknown → CanonicalValue :=
  encodeCollection Unknown.sortKey encodeUnknown

def encodeConstraints : List Constraint → CanonicalValue :=
  encodeCollection Constraint.sortKey encodeConstraint

def encodeProvenanceRecords : List Provenance → CanonicalValue :=
  encodeCollection Provenance.sortKey encodeProvenance

def encodeProofObligations : List ProofObligation → CanonicalValue :=
  encodeCollection ProofObligation.sortKey encodeProofObligation

def encodeSummaries : List SummaryReference → CanonicalValue :=
  encodeCollection SummaryReference.sortKey encodeSummaryReference

def encodeDependencies : List Dependency → CanonicalValue :=
  encodeCollection Dependency.sortKey encodeDependency

def encodeOmissions : List Omission → CanonicalValue :=
  encodeCollection Omission.sortKey encodeOmission

/-- The value tree that is hashed; the evidence id is not read. -/
def canonicalEvidenceValue (value : EvidenceCase) : CanonicalValue :=
  .object [("assumptions", encodeAssumptions value.assumptions),
    ("claim", encodeClaim value.primaryClaim), ("constraints", encodeConstraints value.constraints),
    ("dependencies", encodeDependencies value.dependencies), ("edges", encodeEdges value.edges),
    ("entities", encodeEntities value.entities), ("facts", encodeFacts value.facts),
    ("hypotheses", encodeHypotheses value.hypotheses), ("level", .string value.level.toString),
    ("omissions", encodeOmissions value.omissions), ("paths", encodePaths value.paths),
    ("program", encodeProgramBinding value.program),
    ("proof_obligations", encodeProofObligations value.proofObligations),
    ("provenance", encodeProvenanceRecords value.provenance),
    ("schema", .string value.schemaVersion), ("state", .string value.verificationState.toString),
    ("summaries", encodeSummaries value.summaries), ("unknowns", encodeUnknowns value.unknowns)]

def canonicalEvidenceBytes (value : EvidenceCase) : String := (canonicalEvidenceValue value).encode

def computeEvidenceId (sha256 : String → String) (value : EvidenceCase) : StableId :=
  makeStableId sha256 .evidence (canonicalEvidenceBytes value)

end Veritas.Evidence

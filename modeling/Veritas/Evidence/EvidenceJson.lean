import Veritas.Evidence.EvidenceValidator

/-! The JSON document of an evidence case: one value tree, written only for a finalized case. -/
namespace Veritas.Evidence

open Matching

/-- The `llvm::json` library. A tree is printed with an indent and can be read back from its text;
trees with a string that is not UTF-8 are refused before they are printed. -/
structure JsonWriter where
  text : ℕ → CanonicalValue → String
  isUTF8 : String → Bool
  text_injective : ∀ indent, Function.Injective (text indent)

/-- `JsonTextLess`: values without a key of their own are ordered by their compact text. -/
def JsonWriter.order (writer : JsonWriter) (values : List CanonicalValue) : List CanonicalValue :=
  sortOn (writer.text 0) values

/-- `SortKeyLess` compares kind, stable id and local id, and nothing else. -/
def SortKey.rank (key : SortKey) : String ×ₗ String ×ₗ String :=
  toLex (key.kind, toLex (key.stableId, key.localId))

/-- `Collection`: a stable sort by key, so that tied records keep their input order. -/
def emitCollection {α : Type*} (key : α → SortKey) (emit : α → CanonicalValue) (records : List α) :
    CanonicalValue :=
  .array ((sortOn (fun record => (key record).rank) records).map emit)

def AnalyzerVersion.rank (version : AnalyzerVersion) : String ×ₗ String ×ₗ String :=
  toLex (version.producer, toLex (version.version, version.configuration))

def emitAnalyzerVersions (versions : List AnalyzerVersion) : CanonicalValue :=
  .array ((sortOn AnalyzerVersion.rank versions).map encodeAnalyzerVersion)

def emitProgram (program : ProgramBinding) : CanonicalValue :=
  .object [("analysis_configuration_id", .string program.analysisConfigurationId),
    ("analysis_run_id", encodeOptionalStableId program.analysisRunId),
    ("analyzer_versions", emitAnalyzerVersions program.analyzerVersions),
    ("build_variant_id", .string program.buildVariantId),
    ("repository_id", .string program.repositoryId), ("revision_id", .string program.revisionId),
    ("target_triple", .string program.targetTriple),
    ("type_layout_id", .string program.typeLayoutId)]

section Records

/-! The records have the members of the canonical tree; only the order of operands differs. -/

variable (writer : JsonWriter)

def emitExpression : Expression → CanonicalValue := expressionValue writer.order

def emitClaim : Claim → CanonicalValue := claimValue writer.order

def emitEntity : Entity → CanonicalValue := entityValue writer.order

def emitEdge : Edge → CanonicalValue := encodeEdge

def emitPath : Path → CanonicalValue := pathValue writer.order

def emitFact : Fact → CanonicalValue := factValue writer.order

def emitAssumption : Assumption → CanonicalValue := assumptionValue writer.order

def emitHypothesis : Hypothesis → CanonicalValue := hypothesisValue writer.order

def emitUnknown : Unknown → CanonicalValue := unknownValue writer.order

def emitConstraint : Constraint → CanonicalValue := constraintValue writer.order

def emitProvenance : Provenance → CanonicalValue := encodeProvenance

def emitProofObligation : ProofObligation → CanonicalValue := proofObligationValue writer.order

def emitSummaryReference : SummaryReference → CanonicalValue := encodeSummaryReference

def emitDependency : Dependency → CanonicalValue := encodeDependency

def emitOmission : Omission → CanonicalValue := encodeOmission

/-- `JsonEmitter::Case`, its members in the order in which the library prints them. -/
def emitCase (value : EvidenceCase) : CanonicalValue :=
  .object [
    ("assumptions", emitCollection Assumption.sortKey (emitAssumption writer) value.assumptions),
    ("constraints", emitCollection Constraint.sortKey (emitConstraint writer) value.constraints),
    ("dependencies", emitCollection Dependency.sortKey emitDependency value.dependencies),
    ("edges", emitCollection Edge.sortKey emitEdge value.edges),
    ("entities", emitCollection Entity.sortKey (emitEntity writer) value.entities),
    ("evidence_id", encodeOptionalStableId value.evidenceId),
    ("facts", emitCollection Fact.sortKey (emitFact writer) value.facts),
    ("hypotheses", emitCollection Hypothesis.sortKey (emitHypothesis writer) value.hypotheses),
    ("level", .string value.level.toString),
    ("omissions", emitCollection Omission.sortKey emitOmission value.omissions),
    ("paths", emitCollection Path.sortKey (emitPath writer) value.paths),
    ("primary_claim", emitClaim writer value.primaryClaim),
    ("program", emitProgram value.program),
    ("proof_obligations",
      emitCollection ProofObligation.sortKey (emitProofObligation writer) value.proofObligations),
    ("provenance", emitCollection Provenance.sortKey emitProvenance value.provenance),
    ("schema_version", .string value.schemaVersion),
    ("summaries", emitCollection SummaryReference.sortKey emitSummaryReference value.summaries),
    ("unknowns", emitCollection Unknown.sortKey (emitUnknown writer) value.unknowns),
    ("verification_state", .string value.verificationState.toString)]

end Records

section Spelling

variable (isUTF8 : String → Bool)

mutual

/-- Every string of a tree has a JSON spelling. A key that is not fixed text belongs to a property
map and is tested there. -/
def CanonicalValue.spellable : CanonicalValue → Bool
  | .null | .bool _ | .int _ => true
  | .string value => isUTF8 value
  | .array items => spellableItems items
  | .object entries => spellableEntries entries
  | .path _ rootId relativePath => isUTF8 rootId && isUTF8 relativePath

def spellableItems : List CanonicalValue → Bool
  | [] => true
  | item :: items => CanonicalValue.spellable item && spellableItems items

def spellableEntries : List (String × CanonicalValue) → Bool
  | [] => true
  | (_, value) :: entries => CanonicalValue.spellable value && spellableEntries entries

end

theorem spellableItems_eq_all (items : List CanonicalValue) :
    spellableItems isUTF8 items = items.all (CanonicalValue.spellable isUTF8) := by
  induction items with
  | nil => rfl
  | cons item items ih => rw [spellableItems, List.all_cons, ih]

/-- The property keys, which `Key` tests like any other string. -/
def keysSpellable (value : EvidenceCase) : Bool :=
  value.entities.all fun entity => entity.properties.entries.all fun property => isUTF8 property.1

end Spelling

/-- The emitter's latched status: one refusal, whichever string it was. -/
def emitterStatus (writer : JsonWriter) (value : EvidenceCase) : StatusOr Unit :=
  if CanonicalValue.spellable writer.isUTF8 (emitCase writer value) &&
      keysSpellable writer.isUTF8 value then pure ()
  else throw (.invalidArgument ("the case holds a string that is not valid UTF-8, and JSON text is " ++
    "UTF-8 by definition, so the value has no JSON spelling"))

/-- Only a valid case that carries the content address of its own semantics is written. -/
def toEvidenceJson (writer : JsonWriter) (sha256 : String → String) (value : EvidenceCase) :
    StatusOr String := do
  match value.evidenceId with
  | none => throw (.invalidArgument ("the case carries no evidence_id: the JSON writer requires a " ++
      "finalized case, so call FinalizeEvidenceIdentity first"))
  | some evidenceId =>
    requireValidEvidenceCase value
    if computeEvidenceId sha256 value ≠ evidenceId then
      throw (.invalidArgument ("the case's evidence_id is not the content address of its own " ++
        "semantics, so the JSON writer will not stamp it onto a document that disagrees with it"))
    emitterStatus writer value
    return writer.text 2 (emitCase writer value) ++ "\n"

end Veritas.Evidence

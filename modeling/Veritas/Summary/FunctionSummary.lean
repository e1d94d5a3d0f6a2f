import Veritas.Core.Ids

/-! The summary messages of both schemas, as their accessors show them. Enums are open: any integer
is a value. -/
namespace Veritas.Summary

structure SummaryHeader where
  schemaVersion : String
  creationEpochMs : ℤ := 0
  deriving DecidableEq

structure FunctionIdentity where
  repositoryId : String := ""
  revisionId : String
  buildVariantId : String
  functionVariantId : String
  functionBodyId : String := ""
  deriving DecidableEq

structure ComponentDigest where
  kind : ℤ
  semanticHash : String
  evidenceHash : String
  itemCount : ℤ
  payloadOffset : ℤ
  payloadLength : ℤ
  deriving DecidableEq

structure BasicBlockSummaryRef where
  basicBlockSummaryId : String
  functionVariantId : String
  semanticSourceAnchorIds : List String
  predecessorAnchorIds : List String
  successorAnchorIds : List String
  deriving DecidableEq

structure DominatorSummaryFact where
  dominator : String
  dominated : String
  epistemic : ℤ
  provenanceRef : String
  deriving DecidableEq

structure ControlFlowSummary where
  block : BasicBlockSummaryRef
  dominators : List DominatorSummaryFact
  deriving DecidableEq

structure RangeFact where
  variableName : String
  minValue : ℤ
  maxValue : ℤ
  epistemic : ℤ
  provenanceRef : String
  deriving DecidableEq

structure TaintTransfer where
  source : String
  sink : String
  taintKind : String
  epistemic : ℤ
  provenanceRef : String
  deriving DecidableEq

structure OwnershipEffect where
  kind : ℤ
  object : String
  epistemic : ℤ
  provenanceRef : String
  deriving DecidableEq

structure LockEffect where
  kind : ℤ
  lockObject : String
  epistemic : ℤ
  provenanceRef : String
  deriving DecidableEq

structure StateTransition where
  fromState : String
  toState : String
  event : String
  epistemic : ℤ
  provenanceRef : String
  deriving DecidableEq

structure Unknown where
  kind : String
  reason : String
  scope : String
  provenanceRef : String
  deriving DecidableEq

structure Assumption where
  description : String
  condition : String
  provenanceRef : String
  deriving DecidableEq

structure Dependency where
  symbol : String
  kind : String
  provenanceRef : String
  deriving DecidableEq

structure ProvenanceRef where
  id : String
  filePath : String
  line : ℤ
  column : ℤ
  analysisStep : String
  displayText : String
  deriving DecidableEq

/-- The fields the two schemas share, which the messages of both hold in one layout. -/
structure CommonComponents where
  controlFlow : List ControlFlowSummary := []
  rangeFacts : List RangeFact := []
  taintTransfers : List TaintTransfer := []
  ownershipEffects : List OwnershipEffect := []
  lockEffects : List LockEffect := []
  stateTransitions : List StateTransition := []
  unknowns : List Unknown := []
  assumptions : List Assumption := []
  dependencies : List Dependency := []
  provenanceRefs : List ProvenanceRef := []
  deriving DecidableEq

namespace V1

structure Call where
  calleeSymbol : String
  callSiteAnchorId : String
  epistemic : ℤ
  provenanceRef : String
  resolvedCalleeFunctionVariantId : String
  deriving DecidableEq

structure MemoryEffect where
  kind : ℤ
  location : String
  offset : ℤ
  size : ℤ
  epistemic : ℤ
  provenanceRef : String
  deriving DecidableEq

structure ValueFlow where
  source : String
  sink : String
  epistemic : ℤ
  provenanceRef : String
  deriving DecidableEq

structure AliasFact where
  locationA : String
  locationB : String
  epistemic : ℤ
  provenanceRef : String
  deriving DecidableEq

structure FunctionSummary extends CommonComponents where
  header : SummaryHeader
  identity : FunctionIdentity
  componentDigests : List ComponentDigest := []
  calls : List Call := []
  memoryEffects : List MemoryEffect := []
  valueFlows : List ValueFlow := []
  aliasFacts : List AliasFact := []
  deriving DecidableEq

end V1

namespace V2

structure AbstractObject where
  abstractObjectId : String
  kind : ℤ
  ownerFunctionVariantId : String
  semanticAnchorId : String
  diagnosticName : String
  deriving DecidableEq

structure AccessPathSegment where
  kind : ℤ
  first : ℤ
  last : ℤ
  deriving DecidableEq

structure ByteRange where
  offsetKnown : Bool
  offset : ℤ
  sizeKnown : Bool
  size : ℤ
  deriving DecidableEq

structure MemoryLocation where
  memoryLocationId : String
  object : AbstractObject
  accessPath : List AccessPathSegment
  byteRange : ByteRange
  deriving DecidableEq

structure Call where
  callSiteId : String
  calleeSymbol : String
  resolvedCalleeFunctionVariantId : String
  dispatch : ℤ
  epistemic : ℤ
  provenanceRef : String
  deriving DecidableEq

structure MemoryEffect where
  kind : ℤ
  location : MemoryLocation
  epistemic : ℤ
  provenanceRef : String
  deriving DecidableEq

structure ValueFlow where
  sourceValueId : String
  destinationValueId : String
  epistemic : ℤ
  provenanceRef : String
  deriving DecidableEq

structure AliasFact where
  left : MemoryLocation
  right : MemoryLocation
  kind : ℤ
  epistemic : ℤ
  provenanceRef : String
  deriving DecidableEq

structure ParameterFlow where
  callSiteId : String
  actualId : String
  formalId : String
  epistemic : ℤ
  provenanceRef : String
  deriving DecidableEq

structure ReturnFlow where
  callSiteId : String
  returnId : String
  resultId : String
  epistemic : ℤ
  provenanceRef : String
  deriving DecidableEq

structure FunctionSummary extends CommonComponents where
  header : SummaryHeader
  identity : FunctionIdentity
  componentDigests : List ComponentDigest := []
  calls : List Call := []
  memoryEffects : List MemoryEffect := []
  valueFlows : List ValueFlow := []
  aliasFacts : List AliasFact := []
  parameterFlows : List ParameterFlow := []
  returnFlows : List ReturnFlow := []
  deriving DecidableEq

end V2

/-- A summary of either schema. -/
inductive SummaryArtifact
  | v1 (summary : V1.FunctionSummary)
  | v2 (summary : V2.FunctionSummary)
  deriving DecidableEq

namespace SummaryArtifact

def schemaVersion : SummaryArtifact → String
  | v1 summary => summary.header.schemaVersion
  | v2 summary => summary.header.schemaVersion

def identity : SummaryArtifact → FunctionIdentity
  | v1 summary => summary.identity
  | v2 summary => summary.identity

end SummaryArtifact

/-- The message serialization and the hash, which the summaries take as they are. -/
structure SummaryCodec where
  sha256 : String → String
  serializeV1 : V1.FunctionSummary → Option String
  serializeV2 : V2.FunctionSummary → Option String
  parseV1 : String → Option V1.FunctionSummary
  parseV2 : String → Option V2.FunctionSummary

/-- What the message library documents: what it serialized it reads back, and the header, which is
one field of both schemas, reads alike under both. -/
structure SummaryCodec.Lawful (codec : SummaryCodec) : Prop where
  parseV1 : ∀ summary bytes, codec.serializeV1 summary = some bytes →
    codec.parseV1 bytes = some summary
  parseV2 : ∀ summary bytes, codec.serializeV2 summary = some bytes →
    codec.parseV2 bytes = some summary
  header : ∀ bytes v1 v2, codec.parseV1 bytes = some v1 → codec.parseV2 bytes = some v2 →
    v1.header = v2.header

namespace SummaryCodec

def serialize (codec : SummaryCodec) : SummaryArtifact → Option String
  | .v1 summary => codec.serializeV1 summary
  | .v2 summary => codec.serializeV2 summary

def computeFunctionSummaryId (codec : SummaryCodec) (artifact : SummaryArtifact) :
    StatusOr StableId :=
  match codec.serialize artifact with
  | none => throw (.internal "Failed to serialize FunctionSummary")
  | some bytes => pure (makeStableId codec.sha256 .functionSummary bytes)

def serializeSummaryArtifact (codec : SummaryCodec) (artifact : SummaryArtifact) :
    StatusOr String :=
  match codec.serialize artifact with
  | none => throw (.internal "Failed to serialize summary artifact")
  | some bytes => pure bytes

def parseSummaryArtifact (codec : SummaryCodec) (schemaVersion : String) (bytes : String) :
    StatusOr SummaryArtifact :=
  if schemaVersion = "summary.v1" then
    match codec.parseV1 bytes with
    | none => throw (.internal "Failed to parse summary.v1 artifact")
    | some summary => pure (.v1 summary)
  else if schemaVersion = "summary.v2" then
    match codec.parseV2 bytes with
    | none => throw (.internal "Failed to parse summary.v2 artifact")
    | some summary => pure (.v2 summary)
  else throw (.failedPrecondition ("unknown summary schema version: " ++ schemaVersion))

end SummaryCodec

/-- The version in the header is that of the message's own schema. -/
def SummaryArtifact.Labelled : SummaryArtifact → Prop
  | .v1 summary => summary.header.schemaVersion = "summary.v1"
  | .v2 summary => summary.header.schemaVersion = "summary.v2"

variable {bytes : String} {codec : SummaryCodec}

theorem SummaryCodec.Lawful.parse_serialize (hcodec : codec.Lawful) {artifact : SummaryArtifact}
    (hlabel : artifact.Labelled) (h : codec.serialize artifact = some bytes) :
    codec.parseSummaryArtifact artifact.schemaVersion bytes = .ok artifact := by
  cases artifact with
  | v1 summary =>
    have hversion : summary.header.schemaVersion = "summary.v1" := hlabel
    rw [parseSummaryArtifact, SummaryArtifact.schemaVersion, if_pos hversion, hcodec.parseV1 _ _ h]
    rfl
  | v2 summary =>
    have hversion : summary.header.schemaVersion = "summary.v2" := hlabel
    rw [parseSummaryArtifact, SummaryArtifact.schemaVersion, if_neg (by rw [hversion]; decide),
      if_pos hversion, hcodec.parseV2 _ _ h]
    rfl

/-- Artifacts with the same bytes are one artifact when their versions name their schemas. -/
theorem SummaryCodec.Lawful.serialize_injective (hcodec : codec.Lawful) {a b : SummaryArtifact}
    (ha : a.Labelled) (hb : b.Labelled) (hserializeA : codec.serialize a = some bytes)
    (hserializeB : codec.serialize b = some bytes) : a = b := by
  have hversion : a.schemaVersion = b.schemaVersion := by
    cases a with
    | v1 s =>
      cases b with
      | v1 s' =>
        exact (ha : s.header.schemaVersion = _).trans (hb : s'.header.schemaVersion = _).symm
      | v2 s' =>
        exact congrArg SummaryHeader.schemaVersion (hcodec.header bytes s s'
          (hcodec.parseV1 s bytes hserializeA) (hcodec.parseV2 s' bytes hserializeB))
    | v2 s =>
      cases b with
      | v1 s' =>
        exact congrArg SummaryHeader.schemaVersion (hcodec.header bytes s' s
          (hcodec.parseV1 s' bytes hserializeB) (hcodec.parseV2 s bytes hserializeA)).symm
      | v2 s' =>
        exact (ha : s.header.schemaVersion = _).trans (hb : s'.header.schemaVersion = _).symm
  have hparseA := hcodec.parse_serialize ha hserializeA
  have hparseB := hcodec.parse_serialize hb hserializeB
  rw [hversion, hparseB] at hparseA
  exact (Except.ok.inj hparseA).symm

end Veritas.Summary

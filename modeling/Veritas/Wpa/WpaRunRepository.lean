import Veritas.Facts.AnalysisFactBus
import Veritas.Facts.ResultCanonicalizer
import Veritas.Library.ByteReader

/-! The result cache: the bytes a component result is stored as, and the checks before a cached
result is used again. -/
namespace Veritas

open FieldCode ByteReader

/-! The hashes of a result whose rows were read from bytes. -/

/-- An edge with the semantic keys of its rows. -/
structure KeyedEdge where
  result : String
  ruleId : String
  inputOrdinal : ℕ
  input : String

def keyEdge (edge : MachineEdge) : Option KeyedEdge := do
  let result ← encodeMachineKey edge.result
  let input ← encodeMachineKey edge.input
  return ⟨result, edge.ruleId, edge.inputOrdinal, input⟩

def hashKeys (sha256 : String → String) (factKeys : List String) (edges : List KeyedEdge) :
    CanonicalResultHashes :=
  let rows := internAll (factKeys ++ edges.flatMap fun edge => [edge.result, edge.input])
  let labels := internAll (edges.map (·.ruleId))
  let factRanks := (factKeys.map (rankOf rows)).insertionSort (· ≤ ·)
  let witnessRanks := (edges.map fun edge =>
    witnessOrder (rankOf rows edge.result) (rankOf labels edge.ruleId) edge.inputOrdinal
      (rankOf rows edge.input)).insertionSort (· ≤ ·)
  let externalHash := sha256 (appendFields
    ("veritas.wpa.external.v1" :: factRanks.map (keyOfRank rows)))
  let fixpointHash := sha256 (appendFields
    ("veritas.wpa.fixpoint.v1" :: externalHash :: witnessRanks.flatMap fun edge =>
      [keyOfRank rows (ofLex edge).1, keyOfRank labels (ofLex (ofLex edge).2).1,
        keyOfRank rows (ofLex (ofLex (ofLex edge).2).2).2,
        (ofLex (ofLex (ofLex edge).2).2).1.repr]))
  ⟨fixpointHash, externalHash⟩

/-- `ComputeCanonicalResultHashes` over any rows; `none` is the read past the relation table. -/
def computeMachineResultHashes (sha256 : String → String) (facts : List MachineFact)
    (witnesses : List MachineEdge) : Option CanonicalResultHashes := do
  let keys ← facts.mapM (encodeMachineKey ·.row)
  let edges ← witnesses.mapM keyEdge
  return hashKeys sha256 keys edges

/-- A result as the cache reads it back; its component is any byte. -/
structure StoredResult where
  sccId : StableId
  component : UInt8
  logicalInputHash : String
  fixpointHash : String
  externalHash : String
  facts : List MachineFact
  witnesses : List MachineEdge
  diagnostics : List String

namespace WpaRunRepository

def resultMagic : String := "veritas.wpa-result.v1"

def textBytes (text : String) : List UInt8 := text.toList.map fun c => UInt8.ofNat c.toNat

def bytesText (bytes : List UInt8) : String := String.ofList (bytes.map fun b => Char.ofNat b.toNat)

def appendString (value : String) : List UInt8 := leBytes 8 value.length ++ textBytes value
def appendU64 (value : UInt64) : List UInt8 := leBytes 8 value.toNat
def appendU32 (value : UInt32) : List UInt8 := leBytes 4 value.toNat

def appendCell : MachineCell → List UInt8
  | .stableId id => appendU32 0 ++ appendString id.toString
  | .int64 v => appendU32 1 ++ appendU64 v.toUInt64
  | .uint64 v => appendU32 2 ++ appendU64 v
  | .string v => appendU32 3 ++ appendString v
  | .dispatchKind v => appendU32 4 ++ appendU64 v.toUInt64
  | .aliasKind v => appendU32 5 ++ appendU64 v.toUInt64
  | .byteRangeKind v => appendU32 6 ++ appendU64 v.toUInt64
  | .epistemic v => appendU32 7 ++ appendU64 v.toUInt64

/-- A count, and that many values. -/
def appendMany {α : Type} (encode : α → List UInt8) (values : List α) : List UInt8 :=
  appendU32 (UInt32.ofNat values.length) ++ values.flatMap encode

def appendRow (row : MachineRow) : List UInt8 :=
  appendU32 row.relation.toUInt32 ++ appendMany appendCell row.cells

def appendFact (fact : MachineFact) : List UInt8 :=
  appendString fact.factId.toString ++ appendRow fact.row

def appendWitness (edge : MachineEdge) : List UInt8 :=
  appendRow edge.result ++ (appendString edge.ruleId ++ (appendRow edge.input ++
    appendU32 (UInt32.ofNat edge.inputOrdinal)))

def serializeResult (result : StoredResult) : List UInt8 :=
  textBytes resultMagic ++ (appendString result.sccId.toString ++
    (appendU32 result.component.toUInt32 ++ (appendString result.logicalInputHash ++
    (appendString result.fixpointHash ++ (appendString result.externalHash ++
    (appendMany appendFact result.facts ++ (appendMany appendWitness result.witnesses ++
      appendMany appendString result.diagnostics)))))))

def truncatedObject : Status := .invalidArgument "result cache object is truncated"

def readU64 : Reader Status UInt64 := do
  let bytes ← take 8 truncatedObject
  return UInt64.ofNat (ofLeBytes bytes)

def readU32 : Reader Status UInt32 := do
  let bytes ← take 4 truncatedObject
  return UInt32.ofNat (ofLeBytes bytes)

def readString : Reader Status String := do
  let size ← readU64
  let bytes ← take size.toNat (.invalidArgument "result cache object string overruns")
  return bytesText bytes

def readStableId : Reader Status StableId := do
  let text ← readString
  computed (parseStableId text)

/-- An enumerator keeps the low byte of its number, whatever that names. -/
def readOrdinal (cell : UInt8 → MachineCell) : Reader Status MachineCell := do
  let value ← readU64
  return cell value.toUInt8

def readCell : Reader Status MachineCell := do
  let tag ← readU32
  match tag.toNat with
  | 0 =>
    let id ← readStableId
    return .stableId id
  | 1 =>
    let value ← readU64
    return .int64 value.toInt64
  | 2 =>
    let value ← readU64
    return .uint64 value
  | 3 =>
    let text ← readString
    return .string text
  | 4 => readOrdinal .dispatchKind
  | 5 => readOrdinal .aliasKind
  | 6 => readOrdinal .byteRangeKind
  | 7 => readOrdinal .epistemic
  | _ => throw (.invalidArgument "result cache cell has an unknown tag")

/-- A count, and that many values. -/
def readMany {α : Type} (r : Reader Status α) : Reader Status (List α) := do
  let count ← readU32
  many r count.toNat

/-- The relation keeps its low two bytes. -/
def readRow : Reader Status MachineRow := do
  let relation ← readU32
  let cells ← readMany readCell
  return ⟨relation.toUInt16, cells⟩

def readFact : Reader Status MachineFact := do
  let id ← readStableId
  let row ← readRow
  return ⟨id, row⟩

def readWitness : Reader Status MachineEdge := do
  let result ← readRow
  let rule ← readString
  let input ← readRow
  let ordinal ← readU32
  return ⟨result, rule, "", input, ordinal.toNat⟩

def readResult : Reader Status StoredResult := do
  let sccId ← readStableId
  let component ← readU32
  let logical ← readString
  let fixpoint ← readString
  let external ← readString
  let facts ← readMany readFact
  let witnesses ← readMany readWitness
  let diagnostics ← readMany readString
  return ⟨sccId, component.toUInt8, logical, fixpoint, external, facts, witnesses, diagnostics⟩

/-- Bytes behind the result are not looked at. -/
def deserializeResult (data : List UInt8) : StatusOr StoredResult :=
  if data.take (textBytes resultMagic).length ≠ textBytes resultMagic then
    throw (.invalidArgument "result cache object has no magic")
  else (·.1) <$> readResult (data.drop (textBytes resultMagic).length)

end WpaRunRepository

open WpaRunRepository

structure ResultCacheDescriptor where
  engine : EngineIdentity
  engineToolchainIdentity : String
  logicalInputHash : String
  sccId : StableId
  component : WpaComponentKind
  summarySchemaVersion : String
  relationSchemaVersion : String
  ruleBundleVersion : String
  modelBundleVersion : String
  svfConfigurationHash : String
  wpaConfigurationHash : String

def EngineIdentity.ordinal : EngineIdentity → ℕ
  | .souffle => 0
  | .cppConformance => 1
  | .cppEmergency => 2

def ResultCacheDescriptor.encode (d : ResultCacheDescriptor) : String :=
  "veritas.wpa-result-cache.v2" ++ concat field [d.engine.ordinal.repr, d.engineToolchainIdentity,
    d.logicalInputHash, d.sccId.toString, d.component.ordinal.repr, d.summarySchemaVersion,
    d.relationSchemaVersion, d.ruleBundleVersion, d.modelBundleVersion, d.svfConfigurationHash,
    d.wpaConfigurationHash]

def ResultCacheDescriptor.key (sha256 : String → String) (d : ResultCacheDescriptor) : String :=
  sha256 d.encode

/-- What is read of the cache: the rows a query for a key selects, and the object store. -/
structure ResultCache where
  query : String → StatusOr (List (List String))
  get : String → StatusOr (List UInt8)

/-- The columns of the query, in its order. -/
structure ResultCacheRow where
  resultObjectKey : String
  logicalInputHash : String
  engineToolchainIdentity : String
  relationSchemaVersion : String
  ruleBundleVersion : String
  modelBundleVersion : String
  fixpointHash : String
  externalHash : String

def ResultCacheRow.ofColumns : List String → Option ResultCacheRow
  | [object, logical, toolchain, schema, rules, models, fixpoint, external] =>
    some ⟨object, logical, toolchain, schema, rules, models, fixpoint, external⟩
  | _ => none

/-- The row was stored for the requested descriptor. -/
def ResultCacheRow.Describes (row : ResultCacheRow) (d : ResultCacheDescriptor) : Prop :=
  row.logicalInputHash = d.logicalInputHash ∧
    row.engineToolchainIdentity = d.engineToolchainIdentity ∧
    row.relationSchemaVersion = d.relationSchemaVersion ∧
    row.ruleBundleVersion = d.ruleBundleVersion ∧ row.modelBundleVersion = d.modelBundleVersion

instance (row : ResultCacheRow) (d : ResultCacheDescriptor) : Decidable (row.Describes d) := by
  unfold ResultCacheRow.Describes
  infer_instance

def WpaComponentKind.byte (kind : WpaComponentKind) : UInt8 := UInt8.ofNat kind.ordinal

def StoredResult.Answers (result : StoredResult) (d : ResultCacheDescriptor) : Prop :=
  result.sccId = d.sccId ∧ result.component = d.component.byte ∧
    result.logicalInputHash = d.logicalInputHash

instance (result : StoredResult) (d : ResultCacheDescriptor) : Decidable (result.Answers d) := by
  unfold StoredResult.Answers
  infer_instance

def checkFact (sha256 : String → String) (fact : MachineFact) : StatusOr Unit :=
  match deriveMachineFactId sha256 fact.row with
  | .ok id => if id ≠ fact.factId then
      throw (.failedPrecondition "cached fact identity does not match its row") else pure ()
  | .error _ => throw (.failedPrecondition "cached fact identity does not match its row")

/-- Every check of a cached result but that of its hashes. -/
def fetchResult (sha256 : String → String) (cache : ResultCache) (d : ResultCacheDescriptor) :
    StatusOr (Option StoredResult) := do
  let rows ← cache.query (d.key sha256)
  match rows with
  | [] => return none
  | columns :: _ =>
    match ResultCacheRow.ofColumns columns with
    | none => throw (.internal "result cache row has an unexpected shape")
    | some row =>
      if ¬ row.Describes d then
        throw (.failedPrecondition "result cache metadata does not match the requested component")
      let bytes ← cache.get row.resultObjectKey
      let result ← deserializeResult bytes
      if ¬ result.Answers d then
        throw (.failedPrecondition "cached result does not match the requested component")
      result.facts.forM (checkFact sha256)
      return some result

/-- `WpaRunRepository::LoadReusableComponent`; the hash columns of the row are selected and not
compared. `none` is the read past the relation table while the hashes are computed. -/
def loadReusableComponent (sha256 : String → String) (cache : ResultCache)
    (d : ResultCacheDescriptor) : Option (StatusOr (Option StoredResult)) :=
  match fetchResult sha256 cache d with
  | .error status => some (throw status)
  | .ok none => some (pure none)
  | .ok (some result) =>
    (computeMachineResultHashes sha256 result.facts result.witnesses).map fun hashes =>
      if hashes.fixpointHash ≠ result.fixpointHash ∨ hashes.externalHash ≠ result.externalHash then
        throw (.failedPrecondition "cached result hashes do not match its content")
      else pure (some result)

end Veritas

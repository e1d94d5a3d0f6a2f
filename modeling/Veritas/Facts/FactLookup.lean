import Veritas.Facts.FactProto

/-! The fact store's tables, the derived lookup index over them, and its paged reads. -/
namespace Veritas

open FieldCode

/-- A bound text is kept up to its first zero byte. -/
def columnText (text : String) : String :=
  String.ofList (text.toList.takeWhile (· ≠ Char.ofNat 0))

/-- An id as a column holds it. -/
def StableId.column (id : StableId) : String := columnText id.toString

inductive ProducerKind
  | wpaSouffle | wpaCppConformance | wpaCppEmergency | external
  deriving DecidableEq

structure StoredFact where
  relationName : String
  cellsHex : String

/-- A `run_fact_bindings` row; the columns that publication always leaves empty are left out. -/
structure FactBinding where
  runId : String
  factId : String
  producerKind : ProducerKind
  selectedWitnessId : String
  isCurrent : Bool
  deriving DecidableEq

structure ProvenanceNode where
  runId : String
  outputFactId : String
  witnessId : String
  selected : Bool
  producerKind : ProducerKind
  producerId : String
  ruleId : String
  sourceAnchorId : String
  summaryId : String
  description : String

inductive InputKind
  | rooted | derived
  deriving DecidableEq

structure ProvenanceEdge where
  runId : String
  outputFactId : String
  witnessId : String
  inputKind : InputKind
  inputId : String
  inputOrdinal : ℕ

structure LookupRow where
  runId : String
  relationId : String
  columnIndex : ℤ
  valueDigest : String
  factId : String
  deriving DecidableEq

structure IndexMeta where
  batchId : String
  producerVersion : String
  status : String
  receiptDigest : String
  storeIdentity : String
  snapshotDigest : String

/-- The tables behind a `FactStore`, rows in the order they were inserted. -/
structure FactTables where
  /-- `analysis_facts`, by `fact_id`. -/
  facts : String → Option StoredFact
  bindings : List FactBinding
  nodes : List ProvenanceNode
  edges : List ProvenanceEdge
  /-- `fact_batch_receipts`: run and batch. -/
  receipts : List (String × String)
  /-- `PRAGMA fact_lookup.user_version`. -/
  lookupVersion : ℕ
  lookup : List LookupRow
  /-- `index_meta`, by `run_id`. -/
  indexMeta : String → Option IndexMeta

def FactTables.empty : FactTables := ⟨fun _ => none, [], [], [], [], 0, [], fun _ => none⟩

/-- What a store is opened with: the hash, the generated codec, the file's identity, and how many
bindings one insert statement takes. -/
structure StoreContext where
  sha256 : String → String
  wire : FactWire
  identity : String
  bindingRows : ℕ
  /-- Digests are rendered as hex. -/
  digest_hex : ∀ text, ∀ c ∈ (sha256 text).toList, isHexDigit c

/-- The stored fact under an id, with the size of its message. -/
def readCanonicalFact (ctx : StoreContext) (s : FactTables) (factId : StableId) :
    StatusOr (MachineFact × ℕ) :=
  match s.facts factId.column with
  | none => throw (.notFound "fact not found")
  | some stored => do
    let decoded ← hexDecode stored.cellsHex
    match ctx.wire.parse decoded with
    | none => throw (.internal "failed to parse stored fact")
    | some proto =>
      let fact ← fromProtoFact ctx.sha256 proto
      if fact.factId ≠ factId then
        throw (.failedPrecondition "stored fact does not match lookup ID")
      return (fact, ctx.wire.byteSize proto)

def getFact (ctx : StoreContext) (s : FactTables) (factId : StableId) : StatusOr MachineFact :=
  Prod.fst <$> readCanonicalFact ctx s factId

/-- The current binding of a fact in a run. -/
def FactTables.currentBinding (s : FactTables) (run fact : String) : Option FactBinding :=
  s.bindings.find? fun b => b.runId = run ∧ b.factId = fact ∧ b.isCurrent

def getBinding (s : FactTables) (runId factId : StableId) : StatusOr FactBinding :=
  match s.currentBinding runId.column factId.column with
  | none => throw (.notFound "binding not found")
  | some binding => pure binding

def lookupProducer : String := "veritas.fact-lookup.v1"

def lookupUnavailable : String :=
  "UNSUPPORTED: fact lookup is missing, stale, or unsealed; rebuild the index"

def ColumnDomain.ordinal (domain : ColumnDomain) : ℕ := domain.ctorIdx

def encodeCell (domain : ColumnDomain) (cell : MachineCell) : String :=
  encodeField .enum domain.ordinal.repr ++ encodeField cell.keyField.1 cell.keyField.2

/-- Rows of an earlier index stay until a run is cleared. -/
def initFactLookup (s : FactTables) : StatusOr FactTables :=
  if s.lookupVersion = 1 then pure s
  else if s.lookupVersion ≠ 0 then
    throw (.failedPrecondition "UNSUPPORTED: fact lookup schema version")
  else pure { s with lookupVersion := 1 }

structure LookupReceipt where
  batchId : String
  snapshotDigest : String

def FactTables.batchesOf (s : FactTables) (run : String) : List String :=
  (s.receipts.filter (·.1 = run)).map (·.2)

/-- The digest of a run's whole receipt chain, not of its latest batch alone. -/
def receiptDigest (ctx : StoreContext) (runId : StableId) (batches : List String) : String :=
  ctx.sha256 (lookupProducer ++ encodeField .id runId.toString ++ concat (encodeField .id) batches)

def readLookupReceipt (ctx : StoreContext) (s : FactTables) (runId : StableId) :
    Option LookupReceipt :=
  (s.batchesOf runId.column).getLast?.map fun batch =>
    ⟨batch, receiptDigest ctx runId (s.batchesOf runId.column)⟩

def readyLookupFingerprint (ctx : StoreContext) (s : FactTables) (runId : StableId)
    (receipt : LookupReceipt) : Option String :=
  if s.lookupVersion ≠ 1 then none
  else
    (s.indexMeta runId.column).bind fun entry =>
      if entry.batchId = receipt.batchId ∧ entry.producerVersion = lookupProducer ∧
          entry.status = "READY" ∧ entry.receiptDigest = receipt.snapshotDigest ∧
            entry.storeIdentity = ctx.identity then
        some entry.snapshotDigest
      else none

/-- The relation row of a fact and one row for each of its columns. -/
def lookupRows (ctx : StoreContext) (run : String) (fact : MachineFact) : List LookupRow :=
  match relationAt fact.row.relation with
  | none => []
  | some relation =>
    ⟨run, (relationsV2 relation).name, -1, "", fact.factId.column⟩ ::
      ((relationsV2 relation).columns.zip fact.row.cells).mapIdx fun i column =>
        ⟨run, (relationsV2 relation).name, i, ctx.sha256 (encodeCell column.1.domain column.2),
          fact.factId.column⟩

/-- `INSERT OR IGNORE`: the key of the table is the whole row. -/
def insertLookup (table rows : List LookupRow) : List LookupRow :=
  rows.foldl (fun table row => if row ∈ table then table else table ++ [row]) table

def appendLookupFact (ctx : StoreContext) (run : String) (s : FactTables) (fact : MachineFact) :
    FactTables :=
  { s with lookup := insertLookup s.lookup (lookupRows ctx run fact) }

/-- The ids a run currently binds, in the order of a query. -/
def FactTables.currentIds (s : FactTables) (run : String) : List String :=
  ((s.bindings.filter fun b => b.runId = run ∧ b.isCurrent).map (·.factId)).insertionSort (· ≤ ·)

def currentFactKeys (s : FactTables) (run after : String) : List String :=
  ((s.currentIds run).filter (after < ·)).take 4096

/-- The pages of the current ids one after another; each page starts behind the last id of the
one before, so a page for each id is more than enough. -/
def pagedFactKeys (s : FactTables) (run : String) : ℕ → String → List String
  | 0, _ => []
  | fuel + 1, after =>
    match (currentFactKeys s run after).getLast? with
    | none => []
    | some last => currentFactKeys s run after ++ pagedFactKeys s run fuel last

def FactTables.allFactKeys (s : FactTables) (run : String) : List String :=
  pagedFactKeys s run ((s.currentIds run).length + 1) ""

def clearFactLookup (s : FactTables) (run : String) : FactTables :=
  { s with lookup := s.lookup.filter (·.runId ≠ run) }

def snapshotDigest (ctx : StoreContext) (receipt : String) (ids : List String) : String :=
  ctx.sha256 ("veritas.fact-lookup.snapshot.v1" ++ receipt ++ concat (encodeField .id) ids)

def lookupSeal (ctx : StoreContext) (s : FactTables) (runId : StableId) (receipt : LookupReceipt) :
    IndexMeta :=
  ⟨receipt.batchId, lookupProducer, "READY", receipt.snapshotDigest, ctx.identity,
    snapshotDigest ctx receipt.snapshotDigest (s.allFactKeys runId.column)⟩

def sealFactLookup (ctx : StoreContext) (s : FactTables) (runId : StableId)
    (receipt : LookupReceipt) : FactTables :=
  { s with indexMeta :=
      Function.update s.indexMeta runId.column (some (lookupSeal ctx s runId receipt)) }

def uniqueViolation (columns : String) : Status :=
  .internal ("SQLite step failed: UNIQUE constraint failed: " ++ columns)

/-- Indexes the fact stored under one id; a plain insert refuses a row that is there already. -/
def rebuildFact (ctx : StoreContext) (run : String) (s : FactTables) (id : String) :
    StatusOr FactTables := do
  let parsed ← parseStableId id
  let fact ← getFact ctx s parsed
  if ∃ row ∈ lookupRows ctx run fact, row ∈ s.lookup then
    throw (uniqueViolation ("fact_lookup_v1.run_id, fact_lookup_v1.relation_id, " ++
      "fact_lookup_v1.column_index, fact_lookup_v1.value_digest, fact_lookup_v1.fact_id"))
  return { s with lookup := s.lookup ++ lookupRows ctx run fact }

/-- The error of a failed rebuild leaves the tables as they were. -/
def rebuildFactLookup (ctx : StoreContext) (s : FactTables) (runId : StableId) :
    StatusOr FactTables := do
  if runId.kind ≠ .analysisRun then throw (.invalidArgument "expected AnalysisRunID")
  match readLookupReceipt ctx s runId with
  | none =>
    throw (.failedPrecondition
      "UNSUPPORTED: no sealed native fact receipt; reanalyze into a new store")
  | some receipt =>
    let s ← initFactLookup s
    let s := clearFactLookup s runId.column
    let s ← (s.allFactKeys runId.column).foldlM (rebuildFact ctx runId.column) s
    return sealFactLookup ctx s runId receipt

def factLookupFingerprint (ctx : StoreContext) (inTransaction : Bool) (s : FactTables)
    (runId : StableId) : StatusOr String := do
  if ¬ inTransaction then
    throw (.failedPrecondition "fact lookup requires a pinned transaction")
  match readLookupReceipt ctx s runId with
  | none => throw (.failedPrecondition lookupUnavailable)
  | some receipt =>
    match readyLookupFingerprint ctx s runId receipt with
    | none => throw (.failedPrecondition lookupUnavailable)
    | some digest => pure digest

structure CellEquality where
  column : ℕ
  domain : ColumnDomain
  value : MachineCell

structure FactSelector where
  relation : UInt16
  equalities : List CellEquality

def factPageOrderingVersion : ℕ := 1
def maxFactPageRows : ℕ := 4096

structure PageCursor where
  snapshotDigest : String
  selectorDigest : String
  lastConsumed : StableId
  orderingVersion : ℕ

structure PageRequest where
  limit : ℕ
  maxExamined : ℕ
  maxOutputBytes : ℕ
  after : Option PageCursor

structure FactPage where
  facts : List MachineFact
  examined : ℕ
  outputBytes : ℕ
  continuation : Option PageCursor
  exhausted : Bool
  workExhausted : Bool
  requiredOutputBytes : Option ℕ

def isCanonicalSelectorValue : MachineCell → Bool
  | .stableId id => (hexToDigest id.digestHex.toList).isSome
  | .dispatchKind v => v.toNat ≤ 5
  | .aliasKind v => v.toNat ≤ 3
  | .byteRangeKind v => v.toNat ≤ 1
  | .epistemic v => v.toNat ≤ 5
  | _ => true

/-- One equality against the schema; columns come in ascending order, each at most once. -/
def checkEquality (schema : RelationSchema) (previous : Option ℕ) (eq : CellEquality) :
    StatusOr Unit := do
  if (schema.columns[eq.column]?.map (·.domain)) ≠ some eq.domain ∨ previous = some eq.column then
    throw (.invalidArgument "invalid or repeated fact selector column")
  validateMachineCell eq.domain eq.value
  if ¬ isCanonicalSelectorValue eq.value then
    throw (.invalidArgument "noncanonical fact selector value")

def checkEqualities (schema : RelationSchema) : Option ℕ → List CellEquality → StatusOr Unit
  | _, [] => pure ()
  | previous, eq :: rest => do
    checkEquality schema previous eq
    checkEqualities schema (some eq.column) rest

/-- A checked selector: the name of its relation, its equalities by column, and the index column
and digest that drive the scan. -/
structure PageScan where
  relationName : String
  equalities : List CellEquality
  drivingColumn : ℤ
  drivingDigest : String
  selectorDigest : String

def sortEqualities (equalities : List CellEquality) : List CellEquality :=
  equalities.insertionSort fun a b => a.column ≤ b.column

def pageScan (ctx : StoreContext) (selector : FactSelector) : StatusOr PageScan :=
  match relationAt selector.relation with
  | none => throw (.invalidArgument "unknown fact selector relation")
  | some relation => do
    let schema := relationsV2 relation
    if selector.equalities.length > schema.columns.length then
      throw (.invalidArgument "too many fact selector equalities")
    let equalities := sortEqualities selector.equalities
    checkEqualities schema none equalities
    let selectorKey := encodeKeyHeader schema.name equalities.length ++ concat (fun eq =>
      encodeField .unsigned eq.column.repr ++ encodeCell eq.domain eq.value) equalities
    let driving : ℤ × String := match equalities with
      | [] => (-1, "")
      | eq :: _ => (eq.column, ctx.sha256 (encodeCell eq.domain eq.value))
    return ⟨schema.name, equalities, driving.1, driving.2, ctx.sha256 selectorKey⟩

/-- The text to seek behind; a cursor of another snapshot, selector or order is refused. -/
def resumeAfter (snapshot : String) (scan : PageScan) : Option PageCursor → StatusOr String
  | none => pure ""
  | some cursor => do
    if cursor.snapshotDigest ≠ snapshot ∨ cursor.selectorDigest ≠ scan.selectorDigest ∨
        cursor.orderingVersion ≠ factPageOrderingVersion ∨ cursor.lastConsumed.kind ≠ .fact then
      throw (.invalidArgument "fact cursor does not match snapshot, selector, or order")
    if parseStableId cursor.lastConsumed.toString ≠ .ok cursor.lastConsumed ∨
        (hexToDigest cursor.lastConsumed.digestHex.toList).isNone then
      throw (.invalidArgument "invalid fact cursor key")
    return cursor.lastConsumed.toString

/-- The first candidate behind a text. -/
def nextCandidate (s : FactTables) (run : String) (scan : PageScan) (after : String) :
    Option String :=
  ((s.lookup.filter fun row => row.runId = run ∧ row.relationId = scan.relationName ∧
    row.columnIndex = scan.drivingColumn ∧ row.valueDigest = scan.drivingDigest ∧
      after < row.factId).map (·.factId)).min?

def PageScan.matches (scan : PageScan) (row : MachineRow) : Bool :=
  scan.equalities.all fun eq => row.cells[eq.column]? = some eq.value

/-- What every page of one read shares. -/
structure PageRead where
  runId : StableId
  snapshot : String
  relation : UInt16
  scan : PageScan
  limit : ℕ
  maxOutputBytes : ℕ

def PageRead.cursor (read : PageRead) (id : StableId) : PageCursor :=
  ⟨read.snapshot, read.scan.selectorDigest, id, factPageOrderingVersion⟩

/-- One candidate at a time, for as many as may still be examined. -/
def readCandidates (ctx : StoreContext) (s : FactTables) (read : PageRead) :
    ℕ → FactPage → String → StatusOr FactPage
  | 0, page, _ => pure { page with workExhausted := true }
  | remaining + 1, page, after =>
    match nextCandidate s read.runId.column read.scan after with
    | none => pure { page with exhausted := true, continuation := none }
    | some idText => do
      let page := { page with examined := page.examined + 1 }
      let id ← parseStableId idText
      let (fact, bytes) ← readCanonicalFact ctx s id
      if fact.row.relation ≠ read.relation then
        throw (.failedPrecondition "fact lookup relation disagrees with canonical row")
      if read.scan.matches fact.row then
        if page.facts.length = read.limit then return page
        if bytes > read.maxOutputBytes - page.outputBytes then
          if bytes > 2 ^ 64 - 1 - page.outputBytes then
            throw (.internal "fact page byte size overflow")
          return { page with requiredOutputBytes := some (page.outputBytes + bytes) }
        let _ ← getBinding s read.runId id
        readCandidates ctx s read remaining { page with
          outputBytes := page.outputBytes + bytes
          facts := page.facts ++ [fact]
          continuation := some (read.cursor id) } idText
      else
        readCandidates ctx s read remaining
          { page with continuation := some (read.cursor id) } idText

def readFacts (ctx : StoreContext) (inTransaction : Bool) (s : FactTables) (runId : StableId)
    (snapshot : String) (selector : FactSelector) (request : PageRequest) : StatusOr FactPage := do
  if ¬ inTransaction ∨ snapshot = "" then
    throw (.failedPrecondition "fact page requires a pinned lookup snapshot")
  if request.limit = 0 ∨ request.limit > maxFactPageRows ∨ request.maxExamined = 0 ∨
      request.maxOutputBytes = 0 then
    throw (.invalidArgument "invalid fact page row, work, or byte limit")
  let scan ← pageScan ctx selector
  let after ← resumeAfter snapshot scan request.after
  readCandidates ctx s ⟨runId, snapshot, selector.relation, scan, request.limit,
    request.maxOutputBytes⟩ request.maxExamined ⟨[], 0, 0, request.after, false, false, none⟩ after

end Veritas

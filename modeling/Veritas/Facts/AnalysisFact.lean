import Veritas.Facts.RelationSchema

/-! Semantic and execution rows and their validation against the relations.v2 registry. -/
namespace Veritas

/-- A run-local dense id; the tag keeps the domains apart. -/
structure DenseId (tag : ColumnDomain) where
  value : UInt32

abbrev FunctionId := DenseId .functionId
abbrev ValueId := DenseId .valueId
abbrev MemoryId := DenseId .memoryId
abbrev CallSiteId := DenseId .callSiteId
abbrev FactId := DenseId .factId

inductive SemanticCellValue
  | stableId (id : StableId)
  | int64 (value : Int64)
  | uint64 (value : UInt64)
  | string (value : String)
  | dispatchKind (value : DispatchKind)
  | aliasKind (value : AliasKind)
  | byteRangeKind (value : ByteRangeKind)
  | epistemic (value : EpistemicState)

/-- The variant order: the alternative first, then its value. -/
def SemanticCellValue.sortKey : SemanticCellValue → ℕ ×ₗ ℤ ×ₗ String
  | .stableId id => toLex (0, toLex ((id.kind.ordinal : ℤ), id.digestHex))
  | .int64 v => toLex (1, toLex (v.toInt, ""))
  | .uint64 v => toLex (2, toLex ((v.toNat : ℤ), ""))
  | .string v => toLex (3, toLex (0, v))
  | .dispatchKind v => toLex (4, toLex ((v.ordinal : ℤ), ""))
  | .aliasKind v => toLex (5, toLex ((v.ordinal : ℤ), ""))
  | .byteRangeKind v => toLex (6, toLex ((v.ordinal : ℤ), ""))
  | .epistemic v => toLex (7, toLex ((v.ordinal : ℤ), ""))

theorem SemanticCellValue.sortKey_injective : Function.Injective SemanticCellValue.sortKey := by
  intro a b h
  cases a <;> cases b <;>
    simp only [sortKey, EmbeddingLike.apply_eq_iff_eq, Prod.mk.injEq, Int.natCast_inj] at h
  case stableId.stableId a b =>
    obtain ⟨k, d⟩ := a
    obtain ⟨k', d'⟩ := b
    obtain ⟨-, hk, hd⟩ := h
    obtain rfl : k = k' := IdKind.ordinal_injective hk
    obtain rfl : d = d' := hd
    rfl
  case int64.int64 => rw [Int64.toInt_inj.mp h.2.1]
  case uint64.uint64 => rw [UInt64.toNat_inj.mp h.2.1]
  case string.string => rw [h.2.2]
  case dispatchKind.dispatchKind => rw [DispatchKind.ordinal_injective h.2.1]
  case aliasKind.aliasKind => rw [AliasKind.ordinal_injective h.2.1]
  case byteRangeKind.byteRangeKind => rw [ByteRangeKind.ordinal_injective h.2.1]
  case epistemic.epistemic => rw [EpistemicState.ordinal_injective h.2.1]
  all_goals exact absurd h.1 (by decide)

instance : LinearOrder SemanticCellValue :=
  LinearOrder.lift' SemanticCellValue.sortKey SemanticCellValue.sortKey_injective

inductive ExecutionCellValue
  | functionId (id : FunctionId)
  | valueId (id : ValueId)
  | memoryId (id : MemoryId)
  | callSiteId (id : CallSiteId)
  | factId (id : FactId)
  | int64 (value : Int64)
  | uint64 (value : UInt64)
  | string (value : String)
  | dispatchKind (value : DispatchKind)
  | aliasKind (value : AliasKind)
  | byteRangeKind (value : ByteRangeKind)
  | epistemic (value : EpistemicState)

@[ext]
structure SemanticRow where
  relation : RelationId
  cells : List SemanticCellValue

def SemanticRow.sortKey (row : SemanticRow) : ℕ ×ₗ List SemanticCellValue :=
  toLex (row.relation.ordinal, row.cells)

theorem SemanticRow.sortKey_injective : Function.Injective SemanticRow.sortKey := by
  rintro ⟨r, cs⟩ ⟨r', cs'⟩ h
  have h := Prod.ext_iff.mp (toLex.injective h)
  rw [SemanticRow.mk.injEq]
  exact ⟨RelationId.ordinal_injective h.1, h.2⟩

instance : LinearOrder SemanticRow :=
  LinearOrder.lift' SemanticRow.sortKey SemanticRow.sortKey_injective

structure ExecutionRow where
  relation : RelationId
  cells : List ExecutionCellValue

structure AnalysisFact where
  factId : StableId
  row : SemanticRow

def isRangeRelation (relation : RelationId) : Bool :=
  relation = .directRead ∨ relation = .directWrite

def matchStableId (cell : SemanticCellValue) (kind : IdKind) : StatusOr Unit :=
  match cell with
  | .stableId id =>
    if id.kind ≠ kind then throw (.invalidArgument "stable id kind mismatch") else pure ()
  | _ => throw (.invalidArgument "expected stable id cell")

def semanticTypeMismatch : StatusOr Unit := throw (.invalidArgument "semantic cell type mismatch")

def executionTypeMismatch : StatusOr Unit :=
  throw (.invalidArgument "execution cell type mismatch")

def validateSemanticCell (domain : ColumnDomain) (cell : SemanticCellValue) : StatusOr Unit :=
  match domain, cell with
  | .functionId, cell => matchStableId cell .functionVariant
  | .valueId, cell => matchStableId cell .valueRef
  | .memoryId, cell => matchStableId cell .memoryRef
  | .callSiteId, cell => matchStableId cell .callSite
  | .factId, cell => matchStableId cell .fact
  | .modelId, cell => matchStableId cell .model
  | .int64, .int64 _ => pure ()
  | .uint64, .uint64 _ => pure ()
  | .string, .string _ => pure ()
  | .dispatchKind, .dispatchKind _ => pure ()
  | .aliasKind, .aliasKind _ => pure ()
  | .byteRangeKind, .byteRangeKind _ => pure ()
  | .epistemic, .epistemic _ => pure ()
  | _, _ => semanticTypeMismatch

def validateExecutionCell (domain : ColumnDomain) (cell : ExecutionCellValue) : StatusOr Unit :=
  match domain, cell with
  | .functionId, .functionId _ => pure ()
  | .valueId, .valueId _ => pure ()
  | .memoryId, .memoryId _ => pure ()
  | .callSiteId, .callSiteId _ => pure ()
  | .factId, .factId _ => pure ()
  | .modelId, .string _ => pure ()
  | .int64, .int64 _ => pure ()
  | .uint64, .uint64 _ => pure ()
  | .string, .string _ => pure ()
  | .dispatchKind, .dispatchKind _ => pure ()
  | .aliasKind, .aliasKind _ => pure ()
  | .byteRangeKind, .byteRangeKind _ => pure ()
  | .epistemic, .epistemic _ => pure ()
  | _, _ => executionTypeMismatch

/-! `std::get_if` on a cell: the value when the cell holds that alternative. -/

def SemanticCellValue.stableId? : SemanticCellValue → Option StableId
  | .stableId id => some id
  | _ => none

def SemanticCellValue.string? : SemanticCellValue → Option String
  | .string v => some v
  | _ => none

def SemanticCellValue.byteRangeKind? : SemanticCellValue → Option ByteRangeKind
  | .byteRangeKind k => some k
  | _ => none

def SemanticCellValue.int64? : SemanticCellValue → Option Int64
  | .int64 v => some v
  | _ => none

def SemanticCellValue.uint64? : SemanticCellValue → Option UInt64
  | .uint64 v => some v
  | _ => none

def SemanticCellValue.epistemic? : SemanticCellValue → Option EpistemicState
  | .epistemic e => some e
  | _ => none

def ExecutionCellValue.functionId? : ExecutionCellValue → Option FunctionId
  | .functionId id => some id
  | _ => none

def ExecutionCellValue.string? : ExecutionCellValue → Option String
  | .string v => some v
  | _ => none

def ExecutionCellValue.byteRangeKind? : ExecutionCellValue → Option ByteRangeKind
  | .byteRangeKind k => some k
  | _ => none

def ExecutionCellValue.int64? : ExecutionCellValue → Option Int64
  | .int64 v => some v
  | _ => none

def ExecutionCellValue.uint64? : ExecutionCellValue → Option UInt64
  | .uint64 v => some v
  | _ => none

def ExecutionCellValue.epistemic? : ExecutionCellValue → Option EpistemicState
  | .epistemic e => some e
  | _ => none

/-- The admission check runs after the domain check, so an epistemic column holds a state. -/
def validateEpistemicAdmission (schema : RelationSchema) (domain : ColumnDomain)
    (state : Option EpistemicState) : StatusOr Unit :=
  if domain ≠ .epistemic then pure ()
  else match state with
    | none => pure ()
    | some state =>
      if state ∈ schema.allowedEpistemic then pure ()
      else throw (.invalidArgument ("epistemic state not allowed for relation " ++ schema.name))

/-- The payload rule shared by both row kinds, over the range columns 2, 3 and 4. -/
def validateRangePayload (kind : Option ByteRangeKind) (offset : Option Int64)
    (size : Option UInt64) : StatusOr Unit :=
  match kind with
  | none => throw (.invalidArgument "missing range kind")
  | some .known => pure ()
  | some .unknown =>
    match offset, size with
    | some offset, some size =>
      if offset ≠ 0 ∨ size ≠ 0 then
        throw (.invalidArgument "non-canonical unknown range payload")
      else pure ()
    | _, _ => throw (.invalidArgument "missing range payload")

def validateSemanticRangePayload (row : SemanticRow) : StatusOr Unit :=
  if isRangeRelation row.relation then
    validateRangePayload (row.cells[2]?.bind (·.byteRangeKind?)) (row.cells[3]?.bind (·.int64?))
      (row.cells[4]?.bind (·.uint64?))
  else pure ()

def validateExecutionRangePayload (row : ExecutionRow) : StatusOr Unit :=
  if isRangeRelation row.relation then
    validateRangePayload (row.cells[2]?.bind (·.byteRangeKind?)) (row.cells[3]?.bind (·.int64?))
      (row.cells[4]?.bind (·.uint64?))
  else pure ()

/-- Columns and cells are walked together; each cell is checked for domain, then admission. -/
def validateSemanticCells (schema : RelationSchema) :
    List ColumnSpec → List SemanticCellValue → StatusOr Unit
  | column :: columns, cell :: cells => do
    validateSemanticCell column.domain cell
    validateEpistemicAdmission schema column.domain cell.epistemic?
    validateSemanticCells schema columns cells
  | _, _ => pure ()

def validateExecutionCells (schema : RelationSchema) :
    List ColumnSpec → List ExecutionCellValue → StatusOr Unit
  | column :: columns, cell :: cells => do
    validateExecutionCell column.domain cell
    validateEpistemicAdmission schema column.domain cell.epistemic?
    validateExecutionCells schema columns cells
  | _, _ => pure ()

def validateSemanticRow (row : SemanticRow) : StatusOr Unit := do
  let schema := relationsV2 row.relation
  if row.cells.length ≠ schema.columns.length then
    throw (.invalidArgument "semantic cell count mismatch")
  validateSemanticCells schema schema.columns row.cells
  validateSemanticRangePayload row

def validateExecutionRow (row : ExecutionRow) : StatusOr Unit := do
  let schema := relationsV2 row.relation
  if row.cells.length ≠ schema.columns.length then
    throw (.invalidArgument "execution cell count mismatch")
  validateExecutionCells schema schema.columns row.cells
  validateExecutionRangePayload row

/-- Eight bytes, most significant first; a length prefix and a number cell share the form. -/
def encodeU64 (value : UInt64) : String :=
  String.ofList ((List.range 8).map fun i => Char.ofNat (value.toNat / 256 ^ (7 - i) % 256))

def lenPrefixed (text : String) : String := encodeU64 (UInt64.ofNat text.length) ++ text

def preimageByte (value : ℕ) : String := String.singleton (Char.ofNat value)

def preimageCell : SemanticCellValue → String
  | .stableId id => preimageByte 0 ++ lenPrefixed id.toString
  | .int64 v => preimageByte 1 ++ encodeU64 v.toUInt64
  | .uint64 v => preimageByte 2 ++ encodeU64 v
  | .string v => preimageByte 3 ++ lenPrefixed v
  | .dispatchKind v => preimageByte 4 ++ preimageByte v.ordinal
  | .aliasKind v => preimageByte 5 ++ preimageByte v.ordinal
  | .byteRangeKind v => preimageByte 6 ++ preimageByte v.ordinal
  | .epistemic v => preimageByte 7 ++ preimageByte v.ordinal

def writePreimage (row : SemanticRow) : String :=
  lenPrefixed "relations.v2" ++ lenPrefixed (relationsV2 row.relation).name ++
    String.join (row.cells.map preimageCell)

def deriveFactId (sha256 : String → String) (row : SemanticRow) : StatusOr StableId := do
  validateSemanticRow row
  return makeStableId sha256 .fact (writePreimage row)

def makeFact (sha256 : String → String) (row : SemanticRow) : StatusOr AnalysisFact := do
  let factId ← deriveFactId sha256 row
  return ⟨factId, row⟩

end Veritas

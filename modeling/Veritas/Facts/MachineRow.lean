import Veritas.Facts.AnalysisFact

/-! Semantic rows as memory holds them: relation ids and enumerations are raw, in range or not. -/
namespace Veritas

open StatusOr SemanticCellValue

/-- A `SemanticCellValue`; the four enumerations are one unchecked byte each. -/
inductive MachineCell
  | stableId (id : StableId)
  | int64 (value : Int64)
  | uint64 (value : UInt64)
  | string (value : String)
  | dispatchKind (value : UInt8)
  | aliasKind (value : UInt8)
  | byteRangeKind (value : UInt8)
  | epistemic (value : UInt8)
  deriving DecidableEq

@[ext]
structure MachineRow where
  relation : UInt16
  cells : List MachineCell
  deriving DecidableEq

/-- `RelationsV2().Get` inside the table; `none` is a read past its end. -/
def relationAt (relation : UInt16) : Option RelationId := relationIds[relation.toNat]?

def RelationId.toMachine (relation : RelationId) : UInt16 := UInt16.ofNat relation.ordinal

def SemanticCellValue.machine : SemanticCellValue → MachineCell
  | .stableId id => .stableId id
  | .int64 v => .int64 v
  | .uint64 v => .uint64 v
  | .string v => .string v
  | .dispatchKind v => .dispatchKind (UInt8.ofNat v.ordinal)
  | .aliasKind v => .aliasKind (UInt8.ofNat v.ordinal)
  | .byteRangeKind v => .byteRangeKind (UInt8.ofNat v.ordinal)
  | .epistemic v => .epistemic (UInt8.ofNat v.ordinal)

/-- The row whose enumerations are all in range, as memory holds it. -/
def SemanticRow.machine (row : SemanticRow) : MachineRow :=
  ⟨row.relation.toMachine, row.cells.map (·.machine)⟩

/-- A `std::string` holds fewer than 2^63 bytes. -/
def MachineCell.Fits : MachineCell → Prop
  | .stableId id => id.digestHex.length < 2 ^ 63
  | .string v => v.length < 2 ^ 63
  | _ => True

instance : DecidablePred MachineCell.Fits := fun cell => by
  cases cell <;> unfold MachineCell.Fits <;> infer_instance

def MachineRow.Fits (row : MachineRow) : Prop := ∀ cell ∈ row.cells, cell.Fits

instance : DecidablePred MachineRow.Fits := fun row => by
  unfold MachineRow.Fits
  infer_instance

def matchMachineId (cell : MachineCell) (kind : IdKind) : StatusOr Unit :=
  match cell with
  | .stableId id =>
    if id.kind ≠ kind then throw (.invalidArgument "stable id kind mismatch") else pure ()
  | _ => throw (.invalidArgument "expected stable id cell")

def validateMachineCell (domain : ColumnDomain) (cell : MachineCell) : StatusOr Unit :=
  match domain, cell with
  | .functionId, cell => matchMachineId cell .functionVariant
  | .valueId, cell => matchMachineId cell .valueRef
  | .memoryId, cell => matchMachineId cell .memoryRef
  | .callSiteId, cell => matchMachineId cell .callSite
  | .factId, cell => matchMachineId cell .fact
  | .modelId, cell => matchMachineId cell .model
  | .int64, .int64 _ => pure ()
  | .uint64, .uint64 _ => pure ()
  | .string, .string _ => pure ()
  | .dispatchKind, .dispatchKind _ => pure ()
  | .aliasKind, .aliasKind _ => pure ()
  | .byteRangeKind, .byteRangeKind _ => pure ()
  | .epistemic, .epistemic _ => pure ()
  | _, _ => semanticTypeMismatch

def MachineCell.epistemic? : MachineCell → Option UInt8
  | .epistemic e => some e
  | _ => none

def MachineCell.byteRangeKind? : MachineCell → Option UInt8
  | .byteRangeKind k => some k
  | _ => none

def MachineCell.int64? : MachineCell → Option Int64
  | .int64 v => some v
  | _ => none

def MachineCell.uint64? : MachineCell → Option UInt64
  | .uint64 v => some v
  | _ => none

def validateMachineAdmission (schema : RelationSchema) (domain : ColumnDomain)
    (state : Option UInt8) : StatusOr Unit :=
  if domain ≠ .epistemic then pure ()
  else match state with
    | none => pure ()
    | some state =>
      if state ∈ schema.allowedEpistemic.map (fun e => UInt8.ofNat e.ordinal) then pure ()
      else throw (.invalidArgument ("epistemic state not allowed for relation " ++ schema.name))

/-- Every range kind but the known one needs a zero payload, also one out of range. -/
def validateMachinePayload (kind : Option UInt8) (offset : Option Int64) (size : Option UInt64) :
    StatusOr Unit :=
  match kind with
  | none => throw (.invalidArgument "missing range kind")
  | some kind =>
    if kind = UInt8.ofNat ByteRangeKind.known.ordinal then pure ()
    else match offset, size with
      | some offset, some size =>
        if offset ≠ 0 ∨ size ≠ 0 then
          throw (.invalidArgument "non-canonical unknown range payload")
        else pure ()
      | _, _ => throw (.invalidArgument "missing range payload")

def validateMachineRangePayload (relation : RelationId) (cells : List MachineCell) :
    StatusOr Unit :=
  if isRangeRelation relation then
    validateMachinePayload (cells[2]?.bind (·.byteRangeKind?)) (cells[3]?.bind (·.int64?))
      (cells[4]?.bind (·.uint64?))
  else pure ()

def validateMachineCells (schema : RelationSchema) :
    List ColumnSpec → List MachineCell → StatusOr Unit
  | column :: columns, cell :: cells => do
    validateMachineCell column.domain cell
    validateMachineAdmission schema column.domain cell.epistemic?
    validateMachineCells schema columns cells
  | _, _ => pure ()

/-- `ValidateSemanticRow` on any row, also one whose relation id is outside the table. -/
def validateMachineRow (row : MachineRow) : StatusOr Unit :=
  match relationAt row.relation with
  | none => throw (.invalidArgument "unknown relation id")
  | some relation => do
    let schema := relationsV2 relation
    if row.cells.length ≠ schema.columns.length then
      throw (.invalidArgument "semantic cell count mismatch")
    validateMachineCells schema schema.columns row.cells
    validateMachineRangePayload relation row.cells

theorem validateMachineCells_cons {schema : RelationSchema} {column : ColumnSpec}
    {columns : List ColumnSpec} {cell : MachineCell} {cells : List MachineCell} :
    validateMachineCells schema (column :: columns) (cell :: cells) = .ok () ↔
      validateMachineCell column.domain cell = .ok () ∧
        validateMachineAdmission schema column.domain cell.epistemic? = .ok () ∧
          validateMachineCells schema columns cells = .ok () := by
  simp only [validateMachineCells, bind_unit_eq_ok]

theorem validateMachineRow_eq_ok {row : MachineRow} :
    validateMachineRow row = .ok () ↔ ∃ relation, relationAt row.relation = some relation ∧
      row.cells.length = (relationsV2 relation).columns.length ∧
        validateMachineCells (relationsV2 relation) (relationsV2 relation).columns
          row.cells = .ok () ∧ validateMachineRangePayload relation row.cells = .ok () := by
  unfold validateMachineRow
  cases relationAt row.relation with
  | none => simp [throw, throwThe, MonadExceptOf.throw]
  | some relation =>
    simp only [guard_eq_ok, bind_unit_eq_ok, not_not, Option.some.injEq, exists_eq_left']

theorem relationAt_toMachine (relation : RelationId) :
    relationAt relation.toMachine = some relation := by
  cases relation <;> decide

theorem toMachine_of_relationAt {raw : UInt16} {relation : RelationId}
    (h : relationAt raw = some relation) : raw = relation.toMachine := by
  obtain ⟨hlt, hget⟩ := List.getElem?_eq_some_iff.mp h
  simp only [relationIds, List.getElem_map, List.getElem_range] at hget
  have hlt : raw.toNat < 28 := by simpa [relationIds] using hlt
  have htable : ∀ n : Fin 28, (RelationId.ofNat n).toMachine.toNat = n := by decide
  rw [← hget, ← UInt16.toNat_inj, htable ⟨raw.toNat, hlt⟩]

theorem SemanticCellValue.machine_injective : Function.Injective machine := by
  have hbyte : ∀ {m n : ℕ}, m < 256 → n < 256 → UInt8.ofNat m = UInt8.ofNat n → m = n := by
    intro m n hm hn h
    have := congrArg UInt8.toNat h
    simpa [Nat.mod_eq_of_lt hm, Nat.mod_eq_of_lt hn] using this
  intro a b h
  cases a <;> cases b <;> simp only [machine, reduceCtorEq, MachineCell.stableId.injEq,
    MachineCell.int64.injEq, MachineCell.uint64.injEq, MachineCell.string.injEq,
    MachineCell.dispatchKind.injEq, MachineCell.aliasKind.injEq, MachineCell.byteRangeKind.injEq,
    MachineCell.epistemic.injEq] at h
  case dispatchKind.dispatchKind a b =>
    rw [DispatchKind.ordinal_injective (hbyte (by cases a <;> decide) (by cases b <;> decide) h)]
  case aliasKind.aliasKind a b =>
    rw [AliasKind.ordinal_injective (hbyte (by cases a <;> decide) (by cases b <;> decide) h)]
  case byteRangeKind.byteRangeKind a b =>
    rw [ByteRangeKind.ordinal_injective (hbyte (by cases a <;> decide) (by cases b <;> decide) h)]
  case epistemic.epistemic a b =>
    rw [EpistemicState.ordinal_injective (hbyte (by cases a <;> decide) (by cases b <;> decide) h)]
  all_goals rw [h]

theorem SemanticRow.machine_injective : Function.Injective SemanticRow.machine := by
  intro a b h
  obtain ⟨hrelation, hcells⟩ := MachineRow.mk.inj h
  have hrelation := congrArg relationAt hrelation
  simp only [relationAt_toMachine, Option.some.injEq] at hrelation
  exact SemanticRow.ext hrelation
    (List.map_injective_iff.mpr SemanticCellValue.machine_injective hcells)

theorem validateMachineCell_machine (domain : ColumnDomain) (cell : SemanticCellValue) :
    validateMachineCell domain cell.machine = validateSemanticCell domain cell := by
  cases domain <;> cases cell <;> rfl

theorem validateMachineAdmission_machine (schema : RelationSchema) (domain : ColumnDomain)
    (cell : SemanticCellValue) :
    validateMachineAdmission schema domain cell.machine.epistemic? =
      validateEpistemicAdmission schema domain cell.epistemic? := by
  cases cell
  case epistemic e =>
    have hmem : UInt8.ofNat e.ordinal ∈ schema.allowedEpistemic.map
        (fun e => UInt8.ofNat e.ordinal) ↔ e ∈ schema.allowedEpistemic := by
      refine List.mem_map_of_injective ?_
      intro a b h
      exact epistemic.inj (machine_injective (congrArg MachineCell.epistemic h))
    simp only [machine, MachineCell.epistemic?, epistemic?,
      validateMachineAdmission, validateEpistemicAdmission, hmem]
  all_goals rfl

/-- Rows whose enumerations are in range are validated as before. -/
theorem validateMachineRow_machine (row : SemanticRow) :
    validateMachineRow row.machine = validateSemanticRow row := by
  have hcells : ∀ schema columns cells, validateMachineCells schema columns
      (cells.map machine) = validateSemanticCells schema columns cells := by
    intro schema columns cells
    induction columns generalizing cells with
    | nil => cases cells <;> rfl
    | cons column columns ih =>
      cases cells with
      | nil => rfl
      | cons cell cells =>
        simp only [List.map_cons, validateMachineCells, validateSemanticCells,
          validateMachineCell_machine, validateMachineAdmission_machine, ih]
  have hrange : validateMachineRangePayload row.relation (row.cells.map (·.machine)) =
      validateSemanticRangePayload row := by
    have hkind : ∀ cell : Option SemanticCellValue, (cell.map (·.machine)).bind (·.byteRangeKind?) =
          (cell.bind (·.byteRangeKind?)).map (fun k => UInt8.ofNat k.ordinal) := by
      rintro (_ | _ | _) <;> rfl
    have hoffset : ∀ cell : Option SemanticCellValue,
        (cell.map (·.machine)).bind (·.int64?) = cell.bind (·.int64?) := by
      rintro (_ | _ | _) <;> rfl
    have hsize : ∀ cell : Option SemanticCellValue,
        (cell.map (·.machine)).bind (·.uint64?) = cell.bind (·.uint64?) := by
      rintro (_ | _ | _) <;> rfl
    have hpayload : ∀ kind offset size, validateMachinePayload
        (kind.map fun k : ByteRangeKind => UInt8.ofNat k.ordinal) offset size =
          validateRangePayload kind offset size := by
      intro kind offset size
      rcases kind with _ | _ | _ <;> rfl
    simp only [validateMachineRangePayload, validateSemanticRangePayload, List.getElem?_map,
      hkind, hoffset, hsize, hpayload]
  simp only [validateMachineRow, SemanticRow.machine, relationAt_toMachine, validateSemanticRow,
    List.length_map, hcells, hrange]

end Veritas

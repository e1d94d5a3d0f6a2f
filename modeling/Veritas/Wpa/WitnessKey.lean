import Veritas.Facts.KeyDecoding

/-! Rows read back from the keys an engine returns. -/
namespace Veritas

open List MachineCell UInt64

def parseUnsigned (text : List Char) : StatusOr UInt64 :=
  if text = [] then throw (.invalidArgument "empty numeric cell")
  else readDecimal (.invalidArgument "non-numeric cell") text

/-- The negation wraps, so the magnitude of the least number stands for itself. -/
def parseSigned (text : List Char) : StatusOr Int64 :=
  match text with
  | '-' :: digits => (fun magnitude => -magnitude.toInt64) <$> parseUnsigned digits
  | _ => toInt64 <$> parseUnsigned text

def idFromField (field : KeyField) : StatusOr MachineCell := do
  if field.tag ≠ .id then throw (.invalidArgument "key field is not an identifier")
  let parsed ← parseStableId field.value
  return .stableId parsed

/-- An ordinal is cast to the enumeration's byte with no check of its range. -/
def enumFromField (cell : UInt8 → MachineCell) (field : KeyField) : StatusOr MachineCell := do
  if field.tag ≠ .enum then throw (.invalidArgument "key field is not an enum")
  let ordinal ← parseUnsigned field.value.toList
  return cell ordinal.toUInt8

def cellFromField (domain : ColumnDomain) (field : KeyField) : StatusOr MachineCell :=
  match domain with
  | .functionId | .valueId | .memoryId | .callSiteId | .factId | .modelId => idFromField field
  | .string => do
    if field.tag ≠ .symbol then throw (.invalidArgument "key field is not a symbol")
    return .string field.value
  | .int64 => .int64 <$> parseSigned field.value.toList
  | .uint64 => .uint64 <$> parseUnsigned field.value.toList
  | .dispatchKind => enumFromField .dispatchKind field
  | .aliasKind => enumFromField .aliasKind field
  | .byteRangeKind => enumFromField .byteRangeKind field
  | .epistemic => enumFromField .epistemic field

def rowFromKey (key : String) : StatusOr MachineRow := do
  let decoded ← decodeKey key.toList
  match findByName decoded.relationName with
  | none => throw (.invalidArgument "key names an unknown relation")
  | some relation =>
    let columns := (relationsV2 relation).columns
    if columns.length ≠ decoded.cells.length then
      throw (.invalidArgument "key arity does not match the schema")
    let cells ← (columns.zip decoded.cells).mapM fun p => cellFromField p.1.domain p.2
    validateMachineRow ⟨relation.toMachine, cells⟩
    return ⟨relation.toMachine, cells⟩

/-- A stable id in its canonical spelling: 64 lower-case hex digits. -/
def MachineCell.Canonical : MachineCell → Prop
  | .stableId id => parseStableId id.toString = .ok id
  | _ => True

def MachineRow.Canonical (row : MachineRow) : Prop := ∀ cell ∈ row.cells, cell.Canonical

theorem parseUnsigned_repr (n : ℕ) : parseUnsigned n.repr.toList = .ok (ofNat n) := by
  rw [parseUnsigned, if_neg (repr_ne_nil n), readDecimal_repr]

theorem toInt64_ofNat_eq_ofInt (n : ℕ) : (ofNat n).toInt64 = Int64.ofInt n := by
  exact (Int64.ofInt_eq_ofNat).symm

theorem parseSigned_repr (v : Int64) : parseSigned v.toInt.repr.toList = .ok v := by
  rw [Int.repr_eq_if]
  split_ifs with hnonneg
  · -- no digit is a sign, so the text is read as a magnitude
    have hplain : parseSigned v.toInt.toNat.repr.toList =
        toInt64 <$> parseUnsigned v.toInt.toNat.repr.toList := by
      unfold parseSigned
      split
      · rename_i digits hsign
        have hmem : '-' ∈ v.toInt.toNat.repr.toList := hsign ▸ mem_cons_self
        exact absurd (isDigit_of_mem_repr hmem) (by decide)
      · rfl
    have hvalue : (ofNat v.toInt.toNat).toInt64 = v := by
      rw [toInt64_ofNat_eq_ofInt, Int.toNat_of_nonneg hnonneg, Int64.ofInt_toInt]
    rw [hplain, parseUnsigned_repr]
    exact congrArg Except.ok hvalue
  · have hvalue : -(ofNat (-v.toInt).toNat).toInt64 = v := by
      rw [toInt64_ofNat_eq_ofInt, Int.toNat_of_nonneg (by omega), ← Int64.ofInt_neg,
        Int.neg_neg, Int64.ofInt_toInt]
    rw [String.toList_append]
    have hsign : parseSigned ("-".toList ++ (-v.toInt).toNat.repr.toList) =
        (fun magnitude => -magnitude.toInt64) <$> parseUnsigned (-v.toInt).toNat.repr.toList := rfl
    rw [hsign, parseUnsigned_repr]
    exact congrArg Except.ok hvalue

theorem enumFromField_repr (cell : UInt8 → MachineCell) (v : UInt8) :
    enumFromField cell ⟨.enum, v.toNat.repr⟩ = .ok (cell v) := by
  have hcast : (ofNat v.toNat).toUInt8 = v := by
    rw [toUInt8_ofNat', UInt8.ofNat_toNat]
  simp only [enumFromField, ne_eq, not_true_eq_false, if_false, parseUnsigned_repr]
  exact congrArg (fun v => Except.ok (cell v)) hcast

variable {cell : MachineCell}

/-- In the column it was written for, a field is read back as its cell. -/
theorem cellFromField_keyField {domain : ColumnDomain}
    (hvalid : validateMachineCell domain cell = .ok ()) (hcanonical : cell.Canonical) :
    cellFromField domain ⟨cell.keyField.1, cell.keyField.2⟩ = .ok cell := by
  have hid : ∀ kind, matchMachineId cell kind = .ok () →
      idFromField ⟨cell.keyField.1, cell.keyField.2⟩ = .ok cell := by
    intro kind hmatch
    obtain ⟨id, rfl, -⟩ := matchMachineId_eq_ok.mp hmatch
    have hparse : parseStableId id.toString = .ok id := hcanonical
    simp only [idFromField, keyField, ne_eq, not_true_eq_false, if_false, hparse]
    rfl
  cases domain
  case functionId | valueId | memoryId | callSiteId | factId | modelId => exact hid _ hvalid
  all_goals
    cases cell <;> simp only [validateMachineCell, semanticTypeMismatch, reduceCtorEq] at hvalid
  case int64 v =>
    simp only [cellFromField, keyField, parseSigned_repr]
    rfl
  case uint64 v =>
    simp only [cellFromField, keyField, parseUnsigned_repr, UInt64.ofNat_toNat]
    rfl
  case string v => rfl
  all_goals exact enumFromField_repr _ _

theorem mapM_cellFromField {schema : RelationSchema} {columns : List ColumnSpec}
    {cells : List MachineCell} (hvalid : validateMachineCells schema columns cells = .ok ())
    (hlen : cells.length = columns.length) (hcanonical : ∀ cell ∈ cells, cell.Canonical) :
    (columns.zip ((cells.map (·.keyField)).map fun f => (⟨f.1, f.2⟩ : KeyField))).mapM
      (fun p => cellFromField p.1.domain p.2) = .ok cells := by
  induction columns generalizing cells with
  | nil =>
    obtain rfl := length_eq_zero_iff.mp hlen
    rfl
  | cons column columns ih =>
    obtain ⟨cell, cells, rfl⟩ := exists_cons_of_length_eq_add_one hlen
    obtain ⟨hcell, -, hcells⟩ := validateMachineCells_cons.mp hvalid
    have hhead := cellFromField_keyField hcell (hcanonical cell mem_cons_self)
    have htail := ih hcells (by simpa using hlen)
      fun c hc => hcanonical c (mem_cons_of_mem _ hc)
    simp only [map_cons, zip_cons_cons, mapM_cons, hhead, htail]
    rfl

theorem keyField_length_le (h : cell.Fits) : cell.keyField.2.length ≤ sizeMax := by
  cases cell
  case stableId id =>
    have h : id.digestHex.length < 2 ^ 63 := h
    have hkind := id.kind.length_toString_le
    simp only [keyField, id.length_toString, sizeMax]
    omega
  case string v =>
    have h : v.length < 2 ^ 63 := h
    simp only [keyField, sizeMax]
    omega
  case int64 v =>
    have hlow := v.le_toInt
    have hhigh := v.toInt_lt
    simp only [keyField, Int.repr_eq_if]
    split_ifs with hsign
    · exact repr_length_le (by omega)
    · have hdigits : (-v.toInt).toNat.repr.length ≤ 20 :=
        (Nat.length_repr_le_iff (by decide)).mpr (by omega)
      have hone : ("-" : String).length = 1 := rfl
      rw [String.length_append, hone, sizeMax]
      omega
  case uint64 v => exact repr_length_le v.toNat_lt
  all_goals exact repr_length_le ((UInt8.toNat_lt _).trans (by decide))

theorem columns_length_lt (relation : RelationId) :
    (relationsV2 relation).columns.length < 2 ^ 64 := by
  cases relation <;> decide

theorem name_length_le (relation : RelationId) : (relationsV2 relation).name.length ≤ sizeMax := by
  cases relation <;> decide

/-- A valid row with canonical ids is read back from its key. -/
theorem rowFromKey_encodeMachineKey {row : MachineRow} (hvalid : validateMachineRow row = .ok ())
    (hfits : row.Fits) (hcanonical : row.Canonical) :
    ∃ key, encodeMachineKey row = some key ∧ rowFromKey key = .ok row := by
  obtain ⟨relation, hrelation, hlen, hcells, -⟩ := validateMachineRow_eq_ok.mp hvalid
  refine ⟨_, by rw [encodeMachineKey, hrelation]; rfl, ?_⟩
  have hfields : ∀ f ∈ row.cells.map (·.keyField), f.2.length ≤ sizeMax := by
    intro f hf
    obtain ⟨cell, hcell, rfl⟩ := mem_map.mp hf
    exact keyField_length_le (hfits cell hcell)
  have hcount : (row.cells.map (·.keyField)).length < 2 ^ 64 := by
    rw [length_map, hlen]
    exact columns_length_lt relation
  have hdecode := decodeKey_encode (name_length_le relation) hfields hcount
  rw [length_map] at hdecode
  have hrow : (⟨relation.toMachine, row.cells⟩ : MachineRow) = row := by
    rw [← toMachine_of_relationAt hrelation]
  have harity : ¬ (relationsV2 relation).columns.length ≠
      ((row.cells.map (·.keyField)).map fun f => (⟨f.1, f.2⟩ : KeyField)).length := by
    rw [length_map, length_map, hlen]
    exact fun h => h rfl
  simp only [rowFromKey, hdecode, bind, Except.bind, findByName_name, if_neg harity,
    mapM_cellFromField hcells hlen hcanonical, hrow, hvalid]
  rfl

/-- A row that `ValidateSemanticRow` accepted. -/
structure ValidRow where
  row : MachineRow
  valid : validateMachineRow row = .ok ()

/-- Validation kept the relation id inside the table, so the row has a key. -/
def ValidRow.key (r : ValidRow) : String :=
  (encodeMachineKey r.row).get (encodeMachineKey_isSome r.valid)

theorem ValidRow.encode_eq (r : ValidRow) : encodeMachineKey r.row = some r.key :=
  (Option.some_get _).symm

theorem ValidRow.key_prefixFree : FieldCode.PrefixFree ValidRow.key := by
  rintro ⟨a, ha⟩ ⟨b, hb⟩ r r' h
  obtain ⟨rfl, hr⟩ := encodeMachineKey_append_inj ha hb (ValidRow.encode_eq ⟨a, ha⟩)
    (ValidRow.encode_eq ⟨b, hb⟩) h
  exact ⟨rfl, hr⟩

theorem ValidRow.key_ne_empty (r : ValidRow) : r.key ≠ "" := by
  have h := r.encode_eq
  obtain ⟨relation, hrelation, -⟩ := validateMachineRow_eq_ok.mp r.valid
  simp only [encodeMachineKey, hrelation, Option.map_some, Option.some.injEq] at h
  rw [← h, encodeKeyHeader]
  intro hempty
  simp only [String.append_eq_empty_iff] at hempty
  exact absurd hempty.1.1.1 (by decide)

/-- A read at the least offset there is. -/
def farRead : MachineRow :=
  ⟨RelationId.directRead.toMachine,
    [.stableId ⟨.functionVariant, String.ofList (List.replicate 64 'a')⟩,
      .stableId ⟨.memoryRef, String.ofList (List.replicate 64 'b')⟩,
      .byteRangeKind 0, .int64 Int64.minValue, .uint64 8, .epistemic 1]⟩

end Veritas

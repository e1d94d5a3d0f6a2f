import Veritas.Facts.MachineRow
import Veritas.Library.FieldCode

/-! The semantic-key codec: a row's canonical, self-delimiting text. -/
namespace Veritas

open FieldCode Option

inductive KeyFieldTag
  | id | symbol | number | unsigned | enum
  deriving DecidableEq

def KeyFieldTag.char : KeyFieldTag → Char
  | .id => 'I'
  | .symbol => 'S'
  | .number => 'N'
  | .unsigned => 'U'
  | .enum => 'E'

def semanticKeyVersion : String := "veritas.semantic-key.v1"

def encodeField (tag : KeyFieldTag) (value : String) : String :=
  String.singleton tag.char ++ field value

def encodeKeyHeader (relationName : String) (arity : ℕ) : String :=
  semanticKeyVersion ++ encodeField .symbol relationName ++ encodeField .unsigned arity.repr

/-- The tag and text a cell contributes; every enum travels as its ordinal. -/
def SemanticCellValue.keyField : SemanticCellValue → KeyFieldTag × String
  | .stableId id => (.id, id.toString)
  | .string v => (.symbol, v)
  | .int64 v => (.number, v.toInt.repr)
  | .uint64 v => (.unsigned, v.toNat.repr)
  | .dispatchKind v => (.enum, v.ordinal.repr)
  | .aliasKind v => (.enum, v.ordinal.repr)
  | .byteRangeKind v => (.enum, v.ordinal.repr)
  | .epistemic v => (.enum, v.ordinal.repr)

def MachineCell.keyField : MachineCell → KeyFieldTag × String
  | .stableId id => (.id, id.toString)
  | .string v => (.symbol, v)
  | .int64 v => (.number, v.toInt.repr)
  | .uint64 v => (.unsigned, v.toNat.repr)
  | .dispatchKind v => (.enum, v.toNat.repr)
  | .aliasKind v => (.enum, v.toNat.repr)
  | .byteRangeKind v => (.enum, v.toNat.repr)
  | .epistemic v => (.enum, v.toNat.repr)

def encodeFields (fields : List (KeyFieldTag × String)) : String :=
  concat (fun f => encodeField f.1 f.2) fields

def encodeSemanticKey (row : SemanticRow) : String :=
  encodeKeyHeader (relationsV2 row.relation).name row.cells.length ++
    encodeFields (row.cells.map (·.keyField))

/-- The key of any row; a relation id outside the table has no name to read. -/
def encodeMachineKey (row : MachineRow) : Option String :=
  (relationAt row.relation).map fun relation =>
    encodeKeyHeader (relationsV2 relation).name row.cells.length ++
      encodeFields (row.cells.map (·.keyField))

theorem keyField_machine (cell : SemanticCellValue) : cell.machine.keyField = cell.keyField := by
  cases cell
  case dispatchKind v => cases v <;> rfl
  case aliasKind v => cases v <;> rfl
  case byteRangeKind v => cases v <;> rfl
  case epistemic v => cases v <;> rfl
  all_goals rfl

theorem encodeMachineKey_machine (row : SemanticRow) :
    encodeMachineKey row.machine = some (encodeSemanticKey row) := by
  simp only [encodeMachineKey, SemanticRow.machine, relationAt_toMachine, map_some,
    List.length_map, List.map_map, Function.comp_def, keyField_machine, encodeSemanticKey]

theorem KeyFieldTag.char_injective : Function.Injective KeyFieldTag.char := by
  intro a b h
  cases a <;> cases b <;> first | rfl | exact absurd h (by decide)

theorem encodeField_prefixFree :
    PrefixFree fun f : KeyFieldTag × String => encodeField f.1 f.2 := by
  rintro ⟨t, v⟩ ⟨t', v'⟩ r r' h
  obtain ⟨hp, hr⟩ :=
    singleton_prefixFree.prod field_prefixFree (t.char, v) (t'.char, v') r r' h
  obtain ⟨ht, hv⟩ := Prod.mk.inj hp
  exact ⟨Prod.ext (KeyFieldTag.char_injective ht) hv, hr⟩

/-- No kind's spelling holds a colon, so the rendered id tells the kind from the digest. -/
theorem StableId.toString_injective : Function.Injective StableId.toString := by
  intro a b h
  have hid : ∀ id : StableId, id.toString =
      idKindToString id.kind ++ String.singleton ':' ++ ("sha256:" ++ id.digestHex) := by
    intro id
    rw [← String.append_assoc, @String.append_assoc (idKindToString _)]
    rfl
  rw [hid, hid] at h
  obtain ⟨hkind, hdigest⟩ := terminated_prefixFree idKindToString_injective
    colon_notMem_idKindToString _ _ _ _ h
  rw [show a = ⟨a.kind, a.digestHex⟩ from rfl, hkind, (String.append_right_inj _).mp hdigest]

theorem matchMachineId_eq_ok {cell : MachineCell} {kind : IdKind} :
    matchMachineId cell kind = .ok () ↔ ∃ id, cell = .stableId id ∧ id.kind = kind := by
  cases cell
  case stableId id =>
    by_cases h : id.kind = kind <;> simp [matchMachineId, h, throw, throwThe, MonadExceptOf.throw,
      pure, Except.pure]
  all_goals simp [matchMachineId, throw, throwThe, MonadExceptOf.throw]

/-- Within one column domain the field determines the cell. -/
theorem keyField_injective_of_domain {domain : ColumnDomain} {a b : MachineCell}
    (ha : validateMachineCell domain a = .ok ()) (hb : validateMachineCell domain b = .ok ())
    (h : a.keyField = b.keyField) : a = b := by
  have hid : ∀ {kind : IdKind} {a b : MachineCell}, matchMachineId a kind = .ok () →
      matchMachineId b kind = .ok () → a.keyField = b.keyField → a = b := by
    intro kind a b ha hb h
    obtain ⟨x, rfl, -⟩ := matchMachineId_eq_ok.mp ha
    obtain ⟨y, rfl, -⟩ := matchMachineId_eq_ok.mp hb
    rw [StableId.toString_injective (Prod.mk.inj h).2]
  have hbyte : ∀ {m n : UInt8}, m.toNat.repr = n.toNat.repr → m = n := by
    intro m n h
    exact UInt8.toNat_inj.mp (repr_injective h)
  cases domain
  case functionId | valueId | memoryId | callSiteId | factId | modelId => exact hid ha hb h
  all_goals
    cases a <;> simp only [validateMachineCell, semanticTypeMismatch, reduceCtorEq] at ha
    cases b <;> simp only [validateMachineCell, semanticTypeMismatch, reduceCtorEq] at hb
  case int64 => rw [Int64.toInt_inj.mp (intRepr_injective (Prod.mk.inj h).2)]
  case uint64 => rw [UInt64.toNat_inj.mp (repr_injective (Prod.mk.inj h).2)]
  case string => rw [(Prod.mk.inj h).2]
  all_goals rw [hbyte (Prod.mk.inj h).2]

theorem cells_injective_of_columns {schema : RelationSchema} {columns : List ColumnSpec}
    {as bs : List MachineCell} (ha : validateMachineCells schema columns as = .ok ())
    (hb : validateMachineCells schema columns bs = .ok ()) (hlen : as.length = columns.length)
    (h : as.map (·.keyField) = bs.map (·.keyField)) : as = bs := by
  induction columns generalizing as bs with
  | nil =>
    obtain rfl := List.length_eq_zero_iff.mp hlen
    exact (List.map_eq_nil_iff.mp h.symm).symm
  | cons column columns ih =>
    obtain ⟨a, as, rfl⟩ := List.exists_cons_of_length_eq_add_one hlen
    obtain ⟨b, bs, rfl, hhead, htail⟩ := List.map_eq_cons_iff.mp h.symm
    obtain ⟨ha, -, has⟩ := validateMachineCells_cons.mp ha
    obtain ⟨hb, -, hbs⟩ := validateMachineCells_cons.mp hb
    rw [keyField_injective_of_domain ha hb hhead.symm, ih has hbs (by simpa using hlen) htail.symm]

theorem encodeMachineKey_isSome {row : MachineRow} (h : validateMachineRow row = .ok ()) :
    (encodeMachineKey row).isSome := by
  obtain ⟨relation, hrelation, -⟩ := validateMachineRow_eq_ok.mp h
  rw [encodeMachineKey, hrelation]
  rfl

/-- On valid rows a key names its row, whatever text follows it. -/
theorem encodeMachineKey_append_inj {a b : MachineRow} {ka kb r r' : String}
    (ha : validateMachineRow a = .ok ()) (hb : validateMachineRow b = .ok ())
    (hka : encodeMachineKey a = some ka) (hkb : encodeMachineKey b = some kb)
    (h : ka ++ r = kb ++ r') : a = b ∧ r = r' := by
  obtain ⟨ra, hra, hla, hca, -⟩ := validateMachineRow_eq_ok.mp ha
  obtain ⟨rb, hrb, hlb, hcb, -⟩ := validateMachineRow_eq_ok.mp hb
  simp only [encodeMachineKey, hra, map_some, some.injEq] at hka
  simp only [encodeMachineKey, hrb, map_some, some.injEq] at hkb
  subst hka hkb
  simp only [encodeKeyHeader, String.append_assoc, String.append_right_inj] at h
  obtain ⟨hname, hrest⟩ := encodeField_prefixFree (.symbol, _) (.symbol, _) _ _ h
  obtain ⟨hsize, hfields⟩ := encodeField_prefixFree (.unsigned, _) (.unsigned, _) _ _ hrest
  obtain rfl : ra = rb := relationsV2_name_injective (Prod.mk.inj hname).2
  have hsize : (a.cells.map (·.keyField)).length = (b.cells.map (·.keyField)).length := by
    simpa using repr_injective (Prod.mk.inj hsize).2
  obtain ⟨hcells, hr⟩ := concat_append_inj encodeField_prefixFree hsize hfields
  have hrelation := (toMachine_of_relationAt hra).trans (toMachine_of_relationAt hrb).symm
  exact ⟨MachineRow.ext hrelation (cells_injective_of_columns hca hcb hla hcells), hr⟩

theorem encodeSemanticKey_append_inj {a b : SemanticRow} {r r' : String}
    (ha : validateSemanticRow a = .ok ()) (hb : validateSemanticRow b = .ok ())
    (h : encodeSemanticKey a ++ r = encodeSemanticKey b ++ r') : a = b ∧ r = r' := by
  rw [← validateMachineRow_machine] at ha hb
  obtain ⟨hrow, hr⟩ := encodeMachineKey_append_inj ha hb (encodeMachineKey_machine a)
    (encodeMachineKey_machine b) h
  exact ⟨SemanticRow.machine_injective hrow, hr⟩

theorem encodeSemanticKey_inj {a b : SemanticRow} (ha : validateSemanticRow a = .ok ())
    (hb : validateSemanticRow b = .ok ()) (h : encodeSemanticKey a = encodeSemanticKey b) :
    a = b := by
  have happ : encodeSemanticKey a ++ "" = encodeSemanticKey b ++ "" := by rw [h]
  exact (encodeSemanticKey_append_inj ha hb happ).1

end Veritas

import Veritas.Facts.AnalysisFactBus

/-! The stored form of a fact: its protobuf message, the message's bytes, and their hex text. -/
namespace Veritas

open StatusOr List Option

/-- A `Cell` message by its `value_case`; enumerations are open. -/
inductive ProtoCell
  | notSet
  | stableId (text : String)
  | int64Value (value : Int64)
  | uint64Value (value : UInt64)
  | stringValue (value : String)
  | dispatchKind (value : ℤ)
  | aliasKind (value : ℤ)
  | byteRangeKind (value : ℤ)
  | epistemic (value : ℤ)
  deriving DecidableEq

structure ProtoFact where
  factId : String
  relationName : String
  relationSchemaVersion : String
  cells : List ProtoCell
  deriving DecidableEq

/-- Enumerators in order from one; zero is the unspecified value. -/
def toProtoEnum (count : ℕ) (value : UInt8) : ℤ :=
  if value.toNat < count then value.toNat + 1 else 0

def fromProtoEnum (count : ℕ) (what : String) (value : ℤ) : StatusOr UInt8 :=
  if 1 ≤ value ∧ value ≤ count then pure (UInt8.ofNat (value.toNat - 1))
  else throw (.invalidArgument ("unrecognized " ++ what))

def toProtoEpistemic : UInt8 → ℤ := toProtoEnum 6
def fromProtoEpistemic : ℤ → StatusOr UInt8 := fromProtoEnum 6 "epistemic state"
def toProtoDispatch : UInt8 → ℤ := toProtoEnum 6
def fromProtoDispatch : ℤ → StatusOr UInt8 := fromProtoEnum 6 "dispatch kind"
def toProtoAlias : UInt8 → ℤ := toProtoEnum 4
def fromProtoAlias : ℤ → StatusOr UInt8 := fromProtoEnum 4 "alias kind"
def toProtoByteRange : UInt8 → ℤ := toProtoEnum 2
def fromProtoByteRange : ℤ → StatusOr UInt8 := fromProtoEnum 2 "byte range kind"

def fillCell : MachineCell → ProtoCell
  | .stableId id => .stableId id.toString
  | .int64 v => .int64Value v
  | .uint64 v => .uint64Value v
  | .string v => .stringValue v
  | .dispatchKind v => .dispatchKind (toProtoDispatch v)
  | .aliasKind v => .aliasKind (toProtoAlias v)
  | .byteRangeKind v => .byteRangeKind (toProtoByteRange v)
  | .epistemic v => .epistemic (toProtoEpistemic v)

def fromProtoCell : ProtoCell → StatusOr MachineCell
  | .stableId text => MachineCell.stableId <$> parseStableId text
  | .int64Value v => pure (.int64 v)
  | .uint64Value v => pure (.uint64 v)
  | .stringValue v => pure (.string v)
  | .dispatchKind v => MachineCell.dispatchKind <$> fromProtoDispatch v
  | .aliasKind v => MachineCell.aliasKind <$> fromProtoAlias v
  | .byteRangeKind v => MachineCell.byteRangeKind <$> fromProtoByteRange v
  | .epistemic v => MachineCell.epistemic <$> fromProtoEpistemic v
  | .notSet => throw (.invalidArgument "empty fact cell")

/-- The message of a fact, once its id has been found to match its row. -/
def MachineFact.proto (fact : MachineFact) : ProtoFact :=
  ⟨fact.factId.toString, preimageRelationName fact.row.relation, "relations.v2",
    fact.row.cells.map fillCell⟩

def toProtoFact (sha256 : String → String) (fact : MachineFact) : StatusOr ProtoFact := do
  let expected ← deriveMachineFactId sha256 fact.row
  if expected ≠ fact.factId then
    throw (.invalidArgument "fact_id does not match its semantic row")
  return fact.proto

def fromProtoFact (sha256 : String → String) (proto : ProtoFact) : StatusOr MachineFact := do
  let storedId ← parseStableId proto.factId
  if storedId.kind ≠ .fact then
    throw (.invalidArgument "fact_id has the wrong IdKind")
  match findByName proto.relationName with
  | none => throw (.invalidArgument "unknown relation name")
  | some relation =>
    let cells ← proto.cells.mapM fromProtoCell
    let factId ← deriveMachineFactId sha256 ⟨relation.toMachine, cells⟩
    if factId ≠ storedId then
      throw (.invalidArgument "fact_id does not match reconstructed row")
    return ⟨factId, ⟨relation.toMachine, cells⟩⟩

def ProtoCell.texts : ProtoCell → List String
  | .stableId text => [text]
  | .stringValue value => [value]
  | _ => []

/-- The string fields of a message. -/
def ProtoFact.texts (proto : ProtoFact) : List String :=
  [proto.factId, proto.relationName, proto.relationSchemaVersion] ++ proto.cells.flatMap (·.texts)

/-- The generated protobuf codec for `Fact`: a message that could be serialized parses back to
itself when its strings are UTF-8, and is refused by the parser when one of them is not. -/
structure FactWire where
  utf8 : String → Prop
  serialize : ProtoFact → Option String
  parse : String → Option ProtoFact
  byteSize : ProtoFact → ℕ
  bytes : ∀ proto text, serialize proto = some text → ∀ c ∈ text.toList, c.toNat < 256
  parse_serialize : ∀ proto text, serialize proto = some text →
    (∀ t ∈ proto.texts, utf8 t) → parse text = some proto
  parse_refused : ∀ proto text, serialize proto = some text →
    ¬ (∀ t ∈ proto.texts, utf8 t) → parse text = none

/-- A codec for the messages of a table, each written as its position. -/
def tableWire (messages : List ProtoFact) : FactWire where
  utf8 := fun _ => True
  serialize := fun proto => if proto ∈ messages then some (messages.idxOf proto).repr else none
  parse := fun text => messages.find? fun proto => (messages.idxOf proto).repr = text
  byteSize := fun _ => 1
  bytes := by
    intro proto text h c hc
    obtain ⟨-, h⟩ := ite_none_right_eq_some.mp h
    rw [← some.inj h] at hc
    by_contra hlarge
    refine FieldCode.notMem_repr ?_ _ hc
    have hover : ¬ c.val ≤ 57 := fun hle => hlarge (lt_of_le_of_lt
      (UInt32.le_iff_toNat_le.mp hle) (by decide))
    simp [Char.isDigit, hover]
  parse_serialize := by
    intro proto text h _
    obtain ⟨hmem, h⟩ := ite_none_right_eq_some.mp h
    rw [← some.inj h]
    cases hfound : messages.find? fun p => (messages.idxOf p).repr = (messages.idxOf proto).repr with
    | none => exact absurd (decide_eq_true rfl) (find?_eq_none.mp hfound proto hmem)
    | some other =>
      have hsame := find?_some hfound
      rw [decide_eq_true_eq] at hsame
      rw [(idxOf_inj (mem_of_find?_eq_some hfound)).mp (FieldCode.repr_injective hsame)]
  parse_refused := fun _ _ _ h => absurd (fun _ _ => trivial) h

def hexEncode (bytes : String) : String := String.ofList (digestToHex (bytes.toList.map (·.toNat)))

def hexDecodePairs : List Char → StatusOr (List Char)
  | high :: low :: rest =>
    if isHexDigit high ∧ isHexDigit low then
      (Char.ofNat (hexToNibble high * 16 + hexToNibble low) :: ·) <$> hexDecodePairs rest
    else throw (.invalidArgument "invalid hex digit")
  | _ => pure []

def hexDecode (hex : String) : StatusOr String :=
  if hex.length % 2 ≠ 0 then throw (.invalidArgument "odd-length hex string")
  else String.ofList <$> hexDecodePairs hex.toList

theorem hexDecodePairs_digestToHex {bytes : List Char} (h : ∀ c ∈ bytes, c.toNat < 256) :
    hexDecodePairs (digestToHex (bytes.map (·.toNat))) = .ok bytes := by
  induction bytes with
  | nil => rfl
  | cons c bytes ih =>
    obtain ⟨hc, hrest⟩ := forall_mem_cons.mp h
    obtain ⟨hhigh, hhigh'⟩ := hexToNibble_hexChar (c.toNat / 16) (by omega)
    obtain ⟨hlow, hlow'⟩ := hexToNibble_hexChar (c.toNat % 16) (by omega)
    have hbyte : Char.ofNat (c.toNat / 16 * 16 + c.toNat % 16) = c := by
      rw [Nat.div_add_mod']
      exact Char.ofNat_toNat c
    have hcons : digestToHex ((c :: bytes).map (·.toNat)) = hexChar (c.toNat / 16) ::
        hexChar (c.toNat % 16) :: digestToHex (bytes.map (·.toNat)) := rfl
    rw [hcons, hexDecodePairs, if_pos ⟨hhigh, hlow⟩, hhigh', hlow', hbyte, ih hrest]
    rfl

theorem hexDecode_hexEncode {bytes : String} (h : ∀ c ∈ bytes.toList, c.toNat < 256) :
    hexDecode (hexEncode bytes) = .ok bytes := by
  have heven : (hexEncode bytes).length % 2 = 0 := by
    rw [hexEncode, String.length_ofList, length_digestToHex]
    omega
  rw [hexDecode, if_neg (not_not.mpr heven), hexEncode, String.toList_ofList,
    hexDecodePairs_digestToHex h]
  exact congrArg Except.ok String.ofList_toList

theorem fromProtoEnum_toProtoEnum {count : ℕ} {what : String} {v w : UInt8}
    (h : fromProtoEnum count what (toProtoEnum count v) = .ok w) : w = v := by
  unfold toProtoEnum fromProtoEnum at h
  by_cases hv : v.toNat < count
  · rw [if_pos hv, if_pos ⟨by omega, by omega⟩] at h
    rw [← pure_eq_ok.mp h]
    have hnat : ((v.toNat : ℤ) + 1).toNat - 1 = v.toNat := by omega
    exact UInt8.ofNat_toNat
  · rw [if_neg hv, if_neg (by omega)] at h
    simp at h

theorem fromProtoCell_fillCell {cell cell' : MachineCell}
    (h : fromProtoCell (fillCell cell) = .ok cell') : cell' = cell := by
  cases cell with
  | stableId id =>
    obtain ⟨id', hid, rfl⟩ := map_eq_ok.mp h
    rw [StableId.toString_injective (toString_of_parseStableId hid)]
  | int64 v => exact (pure_eq_ok.mp h).symm
  | uint64 v => exact (pure_eq_ok.mp h).symm
  | string v => exact (pure_eq_ok.mp h).symm
  | dispatchKind v =>
    obtain ⟨w, hw, rfl⟩ := map_eq_ok.mp h
    rw [fromProtoEnum_toProtoEnum hw]
  | aliasKind v =>
    obtain ⟨w, hw, rfl⟩ := map_eq_ok.mp h
    rw [fromProtoEnum_toProtoEnum hw]
  | byteRangeKind v =>
    obtain ⟨w, hw, rfl⟩ := map_eq_ok.mp h
    rw [fromProtoEnum_toProtoEnum hw]
  | epistemic v =>
    obtain ⟨w, hw, rfl⟩ := map_eq_ok.mp h
    rw [fromProtoEnum_toProtoEnum hw]

variable {sha256 : String → String}

theorem exists_findByName_proto {fact : MachineFact}
    (hfact : deriveMachineFactId sha256 fact.row = .ok fact.factId) :
    ∃ relation, relationAt fact.row.relation = some relation ∧
      findByName fact.proto.relationName = some relation := by
  obtain ⟨relation, hrelation⟩ := isSome_iff_exists.mp (relationAt_isSome_of_derive hfact)
  refine ⟨relation, hrelation, ?_⟩
  rw [MachineFact.proto, preimageRelationName, hrelation]
  exact findByName_name relation

/-- A stored fact that can be read at all is the fact that was stored. -/
theorem fromProtoFact_proto {fact fact' : MachineFact}
    (hfact : deriveMachineFactId sha256 fact.row = .ok fact.factId)
    (h : fromProtoFact sha256 fact.proto = .ok fact') : fact' = fact := by
  obtain ⟨relation, hrelation, hname⟩ := exists_findByName_proto hfact
  obtain ⟨storedId, -, h⟩ := bind_eq_ok.mp h
  obtain ⟨-, h⟩ := guard_eq_ok.mp h
  rw [hname] at h
  obtain ⟨cells, hcells, h⟩ := bind_eq_ok.mp h
  obtain ⟨factId, hid, h⟩ := bind_eq_ok.mp h
  obtain ⟨-, h⟩ := guard_eq_ok.mp h
  have hsame : cells = fact.row.cells := by
    have hread := mapM_eq_ok.mp hcells
    rw [MachineFact.proto, forall₂_map_left_iff] at hread
    exact (forall₂_eq_eq_eq ▸ hread.imp fun a b hab => (fromProtoCell_fillCell hab).symm).symm
  have hrow : (⟨relation.toMachine, cells⟩ : MachineRow) = fact.row := by
    rw [hsame, ← toMachine_of_relationAt hrelation]
  rw [hrow, hfact] at hid
  rw [← pure_eq_ok.mp h, hrow, ← Except.ok.inj hid]

end Veritas

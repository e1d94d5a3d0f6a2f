import Veritas.Wpa.WitnessKey

/-! Which of the keys that decode are the canonical keys of their rows. -/
namespace Veritas

open FieldCode StatusOr

/-- A numeric cell is under its column's tag, and its text is the shortest decimal of a number the
column holds. -/
def WellSpelled (domain : ColumnDomain) (field : KeyField) : Prop :=
  match domain with
  | .int64 => ∃ v : Int64, field = ⟨.number, v.toInt.repr⟩
  | .uint64 => ∃ v : UInt64, field = ⟨.unsigned, v.toNat.repr⟩
  | .dispatchKind | .aliasKind | .byteRangeKind | .epistemic =>
    ∃ v : UInt8, field.value = v.toNat.repr
  | _ => True

def KeyField.text (field : KeyField) : KeyFieldTag × String := (field.tag, field.value)

/-- Lengths and arity are in shortest decimal, and so are the numeric cells of the relation. -/
def KeySpelled (key : String) : Prop :=
  ∃ name cells, key = encodeKeyHeader name cells.length ++ encodeFields (cells.map (·.text)) ∧
    ∀ relation, findByName name = some relation →
      ∀ p ∈ (relationsV2 relation).columns.zip cells, WellSpelled p.1.domain p.2

theorem length_le_of_decodeFields {tag : KeyFieldTag} {value rest : String}
    {fields : List KeyField} (h : decodeFields (encodeField tag value ++ rest).toList = .ok fields) :
    value.length ≤ sizeMax := by
  rw [decodeFields_first] at h
  cases hread : readLength value.length.repr.toList with
  | none =>
    rw [hread] at h
    exact absurd h nofun
  | some length =>
    obtain ⟨hvalue, hle⟩ := le_of_readLength hread
    rw [ofDigitChars_repr] at hvalue
    omega

/-- Text in shortest form is read back, if at all, as the fields it was made of. -/
theorem decodeFields_unique {cells fields : List KeyField}
    (h : decodeFields (encodeFields (cells.map (·.text))).toList = .ok fields) :
    fields = cells := by
  induction cells generalizing fields with
  | nil =>
    rw [List.map_nil, encodeFields, concat, String.toList_empty, decodeFields] at h
    exact (Except.ok.inj h).symm
  | cons cell cells ih =>
    have hcons : encodeFields ((cell :: cells).map (·.text)) =
        encodeField cell.tag cell.value ++ encodeFields (cells.map (·.text)) := rfl
    rw [hcons] at h
    rw [decodeFields_encodeField (length_le_of_decodeFields h)] at h
    obtain ⟨rest, hrest, rfl⟩ := map_eq_ok.mp h
    rw [ih hrest]

variable {decoded : DecodedKey}

theorem decodeKey_eq_ok {encoded : List Char} (h : decodeKey encoded = .ok decoded) :
    ∃ arity, decodeFields (encoded.drop semanticKeyVersion.length) =
      .ok (⟨.symbol, decoded.relationName⟩ :: arity :: decoded.cells) := by
  unfold decodeKey at h
  by_cases hversion : ¬ semanticKeyVersion.toList.isPrefixOf encoded
  · rw [if_pos hversion] at h
    exact absurd h nofun
  · rw [if_neg hversion] at h
    obtain ⟨fields, hfields, h⟩ := bind_eq_ok.mp h
    rcases fields with _ | ⟨name, _ | ⟨arity, cells⟩⟩
    · exact absurd h nofun
    · exact absurd h nofun
    · simp only [guard_eq_ok, bind_eq_ok, pure_eq_ok, not_or, not_not] at h
      obtain ⟨⟨htag, -⟩, -, -, -, -, rfl⟩ := h
      obtain ⟨tag, value⟩ := name
      obtain rfl : tag = .symbol := htag
      exact ⟨arity, hfields⟩

theorem decodeKey_unique {name : String} {cells : List KeyField}
    (h : decodeKey (encodeKeyHeader name cells.length ++
      encodeFields (cells.map (·.text))).toList = .ok decoded) : decoded = ⟨name, cells⟩ := by
  obtain ⟨arity, hfields⟩ := decodeKey_eq_ok h
  have hkey : (encodeKeyHeader name cells.length ++ encodeFields (cells.map (·.text))).toList =
      semanticKeyVersion.toList ++ (encodeFields ((⟨.symbol, name⟩ :: ⟨.unsigned,
        cells.length.repr⟩ :: cells : List KeyField).map (·.text))).toList := by
    simp [encodeKeyHeader, encodeFields, concat, KeyField.text]
  rw [hkey, ← String.length_toList, List.drop_left] at hfields
  have hsame := decodeFields_unique hfields
  simp only [List.cons.injEq, KeyField.mk.injEq, true_and] at hsame
  cases decoded
  rw [← hsame.1, ← hsame.2.2]

theorem rowFromKey_eq_ok {key : String} {row : MachineRow} (h : rowFromKey key = .ok row) :
    ∃ decoded relation, decodeKey key.toList = .ok decoded ∧
      findByName decoded.relationName = some relation ∧
        (relationsV2 relation).columns.length = decoded.cells.length ∧
          row.relation = relation.toMachine ∧ validateMachineRow row = .ok () ∧
            ((relationsV2 relation).columns.zip decoded.cells).mapM
              (fun p => cellFromField p.1.domain p.2) = .ok row.cells := by
  obtain ⟨decoded, hdecoded, h⟩ := bind_eq_ok.mp h
  cases hrelation : findByName decoded.relationName with
  | none =>
    rw [hrelation] at h
    exact absurd h nofun
  | some relation =>
    rw [hrelation] at h
    simp only [guard_eq_ok, bind_eq_ok, pure_eq_ok, not_not] at h
    obtain ⟨harity, cells, hcells, _, hvalid, rfl⟩ := h
    exact ⟨decoded, relation, hdecoded, hrelation, harity, rfl, hvalid, hcells⟩

/-- A field that decodes is its cell's field exactly when it is well spelled. -/
theorem keyField_eq_iff {domain : ColumnDomain} {field : KeyField} {cell : MachineCell}
    (h : cellFromField domain field = .ok cell) :
    cell.keyField = field.text ↔ WellSpelled domain field := by
  have hid : idFromField field = .ok cell → cell.keyField = field.text := by
    intro h
    simp only [idFromField, guard_eq_ok, bind_eq_ok, pure_eq_ok, not_not] at h
    obtain ⟨htag, id, hparse, rfl⟩ := h
    rw [MachineCell.keyField, toString_of_parseStableId hparse, KeyField.text, htag]
  have henum : ∀ mk : UInt8 → MachineCell, (∀ v, (mk v).keyField = (.enum, v.toNat.repr)) →
      enumFromField mk field = .ok cell →
        (cell.keyField = field.text ↔ ∃ v : UInt8, field.value = v.toNat.repr) := by
    intro mk hmk h
    have htag : field.tag = .enum := by
      by_contra hne
      rw [enumFromField, if_pos hne] at h
      cases h
    constructor
    · intro heq
      simp only [enumFromField, guard_eq_ok, bind_eq_ok, pure_eq_ok] at h
      obtain ⟨-, ordinal, -, rfl⟩ := h
      rw [hmk] at heq
      exact ⟨_, (Prod.mk.inj heq).2.symm⟩
    · rintro ⟨v, hv⟩
      obtain ⟨tag, value⟩ := field
      obtain rfl : tag = .enum := htag
      obtain rfl : value = v.toNat.repr := hv
      rw [enumFromField_repr] at h
      obtain rfl := Except.ok.inj h
      rw [hmk]
      rfl
  cases domain
  case functionId | valueId | memoryId | callSiteId | factId | modelId =>
    exact ⟨fun _ => trivial, fun _ => hid h⟩
  case string =>
    simp only [cellFromField, guard_eq_ok, pure_eq_ok, not_not] at h
    obtain ⟨htag, rfl⟩ := h
    refine ⟨fun _ => trivial, fun _ => ?_⟩
    rw [MachineCell.keyField, KeyField.text, htag]
  case int64 =>
    obtain ⟨v, hv, rfl⟩ := map_eq_ok.mp h
    constructor
    · intro heq
      exact ⟨v, by rw [KeyField.mk.injEq]; exact (Prod.mk.inj heq).imp Eq.symm Eq.symm⟩
    · rintro ⟨w, rfl⟩
      rw [parseSigned_repr] at hv
      rw [Except.ok.inj hv]
      rfl
  case uint64 =>
    obtain ⟨v, hv, rfl⟩ := map_eq_ok.mp h
    constructor
    · intro heq
      exact ⟨v, by rw [KeyField.mk.injEq]; exact (Prod.mk.inj heq).imp Eq.symm Eq.symm⟩
    · rintro ⟨w, rfl⟩
      rw [parseUnsigned_repr, UInt64.ofNat_toNat] at hv
      rw [Except.ok.inj hv]
      rfl
  case dispatchKind => exact henum _ (fun _ => rfl) h
  case aliasKind => exact henum _ (fun _ => rfl) h
  case byteRangeKind => exact henum _ (fun _ => rfl) h
  case epistemic => exact henum _ (fun _ => rfl) h

theorem map_eq_map_iff_of_forall₂ {α β γ : Type} {R : α → β → Prop} {g : α → γ} {k : β → γ}
    {W : α → Prop} {l : List α} {l' : List β} (h : List.Forall₂ R l l')
    (hiff : ∀ a b, R a b → (k b = g a ↔ W a)) : l'.map k = l.map g ↔ ∀ a ∈ l, W a := by
  induction h with
  | nil => simp
  | cons hab _ ih =>
    rw [List.map_cons, List.map_cons, List.cons.injEq, hiff _ _ hab, ih, List.forall_mem_cons]

/-- A decoded row's key is the key it was decoded from exactly when that one is well spelled. -/
theorem rowFromKey_canonical_iff {key : String} {row : MachineRow}
    (h : rowFromKey key = .ok row) : encodeMachineKey row = some key ↔ KeySpelled key := by
  obtain ⟨decoded, relation, hdecoded, hrelation, harity, hrow, -, hcells⟩ := rowFromKey_eq_ok h
  have hname : (relationsV2 relation).name = decoded.relationName := by
    simpa using List.find?_some hrelation
  have hlen : row.cells.length = decoded.cells.length := by
    rw [← (mapM_eq_ok.mp hcells).length_eq, List.length_zip, harity, min_self]
  have hkey : encodeMachineKey row = some (encodeKeyHeader decoded.relationName
      decoded.cells.length ++ encodeFields (row.cells.map (·.keyField))) := by
    rw [encodeMachineKey, hrow, relationAt_toMachine, Option.map_some, hname, hlen]
  have hspelled : row.cells.map (·.keyField) = decoded.cells.map (·.text) ↔
      ∀ p ∈ (relationsV2 relation).columns.zip decoded.cells, WellSpelled p.1.domain p.2 := by
    have hsnd : ((relationsV2 relation).columns.zip decoded.cells).map (fun p => p.2.text) =
        decoded.cells.map (·.text) := by
      rw [← Function.comp_def KeyField.text, ← List.map_map, List.map_snd_zip harity.ge]
    rw [← hsnd]
    exact map_eq_map_iff_of_forall₂ (mapM_eq_ok.mp hcells)
      fun p cell hcell => keyField_eq_iff hcell
  rw [hkey, Option.some.injEq]
  constructor
  · rintro rfl
    let fields := row.cells.map fun cell => (⟨cell.keyField.1, cell.keyField.2⟩ : KeyField)
    have hfields : fields.map (·.text) = row.cells.map (·.keyField) := List.map_map
    have hcount : fields.length = decoded.cells.length := (List.length_map _).trans hlen
    rw [← hfields, ← hcount] at hdecoded
    have hsame : fields = decoded.cells :=
      (congrArg DecodedKey.cells (decodeKey_unique hdecoded)).symm
    rw [hsame] at hfields
    refine ⟨decoded.relationName, decoded.cells, by rw [hfields], fun relation' hrelation' => ?_⟩
    obtain rfl := Option.some.inj (hrelation.symm.trans hrelation')
    exact hspelled.mp hfields.symm
  · rintro ⟨name, cells, rfl, hspell⟩
    obtain rfl := decodeKey_unique hdecoded
    rw [hspelled.mpr (hspell relation hrelation)]

/-- A read of 8 bytes at offset 0, with the text of its size left open. -/
def readKey (size : String) : String :=
  encodeKeyHeader (relationsV2 .directRead).name 6 ++ encodeFields
    [(.id, (⟨.functionVariant, String.ofList (List.replicate 64 'a')⟩ : StableId).toString),
      (.id, (⟨.memoryRef, String.ofList (List.replicate 64 'b')⟩ : StableId).toString),
      (.enum, "0"), (.number, "0"), (.unsigned, size), (.enum, "1")]

def nearRead : MachineRow :=
  ⟨RelationId.directRead.toMachine,
    [.stableId ⟨.functionVariant, String.ofList (List.replicate 64 'a')⟩,
      .stableId ⟨.memoryRef, String.ofList (List.replicate 64 'b')⟩,
      .byteRangeKind 0, .int64 0, .uint64 8, .epistemic 1]⟩

theorem readKey_canonical : rowFromKey (readKey "8") = .ok nearRead ∧ KeySpelled (readKey "8") := by
  have hrow : rowFromKey (readKey "8") = .ok nearRead :=
    toOption_eq_some.mp (by decide +kernel)
  exact ⟨hrow, (rowFromKey_canonical_iff hrow).mp (by decide +kernel)⟩

/-- A size of 2^64 + 8 in the key is read as 8: the key of a row that is not there decodes as the
key of another row. -/
theorem wide_size_forges_key : rowFromKey (readKey "18446744073709551624") = .ok nearRead ∧
    encodeMachineKey nearRead ≠ some (readKey "18446744073709551624") :=
  ⟨toOption_eq_some.mp (by decide +kernel), by decide +kernel⟩

end Veritas

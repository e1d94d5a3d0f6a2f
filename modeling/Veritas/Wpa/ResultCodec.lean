import Veritas.Wpa.WpaRunRepository

/-! The bytes of a stored result: reading them gives the result back. -/
namespace Veritas

open ByteReader WpaRunRepository

/-- A text whose characters are bytes and whose length fits its length field. -/
structure Storable (text : String) : Prop where
  bytes : ∀ c ∈ text.toList, c.toNat < 256
  short : text.length < 2 ^ 64

/-- An id that is stored as its text and parsed back. -/
structure StableId.Storable (id : StableId) : Prop where
  text : Veritas.Storable id.toString
  parse : parseStableId id.toString = .ok id

def MachineCell.Storable : MachineCell → Prop
  | .stableId id => id.Storable
  | .string v => Veritas.Storable v
  | _ => True

structure MachineRow.Storable (row : MachineRow) : Prop where
  cells : ∀ cell ∈ row.cells, cell.Storable
  short : row.cells.length < 2 ^ 32

structure MachineFact.Storable (fact : MachineFact) : Prop where
  factId : fact.factId.Storable
  row : fact.row.Storable

/-- The derivation key of an edge is not stored. -/
structure MachineEdge.Storable (edge : MachineEdge) : Prop where
  result : edge.result.Storable
  ruleId : Veritas.Storable edge.ruleId
  derivationKey : edge.derivationKey = ""
  input : edge.input.Storable
  ordinal : edge.inputOrdinal < 2 ^ 32

structure StoredResult.Storable (result : StoredResult) : Prop where
  sccId : result.sccId.Storable
  logical : Veritas.Storable result.logicalInputHash
  fixpoint : Veritas.Storable result.fixpointHash
  external : Veritas.Storable result.externalHash
  facts : ∀ f ∈ result.facts, f.Storable
  witnesses : ∀ e ∈ result.witnesses, e.Storable
  diagnostics : ∀ text ∈ result.diagnostics, Veritas.Storable text
  short : result.facts.length < 2 ^ 32 ∧ result.witnesses.length < 2 ^ 32 ∧
    result.diagnostics.length < 2 ^ 32

theorem reads_u64 (value : UInt64) : Reads readU64 (appendU64 value) value := by
  refine (Reads.take _ (length_leBytes 8 value.toNat)).last (Reads.pure ?_)
  rw [ofLeBytes_leBytes (lt_of_lt_of_eq value.toNat_lt (by decide))]
  exact UInt64.ofNat_toNat

theorem reads_u32 (value : UInt32) : Reads readU32 (appendU32 value) value := by
  refine (Reads.take _ (length_leBytes 4 value.toNat)).last (Reads.pure ?_)
  rw [ofLeBytes_leBytes (lt_of_lt_of_eq value.toNat_lt (by decide))]
  exact UInt32.ofNat_toNat

variable {text : String} {result : StoredResult}

theorem bytesText_textBytes (h : ∀ c ∈ text.toList, c.toNat < 256) :
    bytesText (textBytes text) = text := by
  have hchars : (text.toList.map fun c => UInt8.ofNat c.toNat).map (fun b => Char.ofNat b.toNat) =
      text.toList := by
    rw [List.map_map]
    refine (List.map_congr_left fun c hc => ?_).trans (List.map_id _)
    rw [Function.comp_apply, UInt8.toNat_ofNat_of_lt' (h c hc)]
    exact Char.ofNat_toNat c
  rw [bytesText, textBytes, hchars, String.ofList_toList]

theorem reads_string (h : Storable text) : Reads readString (appendString text) text := by
  have hsize : (UInt64.ofNat text.length).toNat = text.length :=
    UInt64.toNat_ofNat_of_lt' h.short
  have hlength := reads_u64 (UInt64.ofNat text.length)
  rw [appendU64, hsize] at hlength
  refine hlength.bind ((Reads.take _ ?_).last (Reads.pure (bytesText_textBytes h.bytes)))
  rw [textBytes, List.length_map, String.length_toList, hsize]

theorem reads_stableId {id : StableId} (h : id.Storable) :
    Reads readStableId (appendString id.toString) id :=
  (reads_string h.text).last (Reads.computed h.parse)

theorem reads_ordinal (cell : UInt8 → MachineCell) (value : UInt8) :
    Reads (readOrdinal cell) (appendU64 value.toUInt64) (cell value) := by
  refine (reads_u64 value.toUInt64).last (Reads.pure ?_)
  rw [UInt8.toUInt8_toUInt64]

theorem reads_cell {cell : MachineCell} (h : cell.Storable) :
    Reads readCell (appendCell cell) cell := by
  cases cell with
  | stableId id => exact (reads_u32 0).bind ((reads_stableId h).last (Reads.pure rfl))
  | int64 v =>
    refine (reads_u32 1).bind ((reads_u64 v.toUInt64).last (Reads.pure ?_))
    rfl
  | uint64 v => exact (reads_u32 2).bind ((reads_u64 v).last (Reads.pure rfl))
  | string v => exact (reads_u32 3).bind ((reads_string h).last (Reads.pure rfl))
  | dispatchKind v => exact (reads_u32 4).bind (reads_ordinal _ v)
  | aliasKind v => exact (reads_u32 5).bind (reads_ordinal _ v)
  | byteRangeKind v => exact (reads_u32 6).bind (reads_ordinal _ v)
  | epistemic v => exact (reads_u32 7).bind (reads_ordinal _ v)

/-- A count and the values behind it. -/
theorem reads_many {α : Type} {r : Reader Status α} {encode : α → List UInt8} {as : List α}
    (hshort : as.length < 2 ^ 32) (h : ∀ a ∈ as, Reads r (encode a) a) :
    Reads (readMany r) (appendMany encode as) as := by
  refine (reads_u32 _).bind ?_
  rw [UInt32.toNat_ofNat_of_lt' hshort]
  exact Reads.many h

theorem reads_row {row : MachineRow} (h : row.Storable) :
    Reads WpaRunRepository.readRow (appendRow row) row := by
  refine (reads_u32 _).bind ((reads_many h.short fun cell hcell =>
    reads_cell (h.cells cell hcell)).last (Reads.pure ?_))
  rw [UInt16.toUInt16_toUInt32]

theorem reads_fact {fact : MachineFact} (h : fact.Storable) :
    Reads readFact (WpaRunRepository.appendFact fact) fact :=
  (reads_stableId h.factId).bind ((reads_row h.row).last (Reads.pure rfl))

theorem reads_witness {edge : MachineEdge} (h : edge.Storable) :
    Reads readWitness (appendWitness edge) edge := by
  refine (reads_row h.result).bind ((reads_string h.ruleId).bind ((reads_row h.input).bind
    ((reads_u32 _).last (Reads.pure ?_))))
  rw [UInt32.toNat_ofNat_of_lt' h.ordinal, ← h.derivationKey]

theorem reads_result (h : result.Storable) :
    ∃ bytes, serializeResult result = textBytes resultMagic ++ bytes ∧
      Reads readResult bytes result := by
  obtain ⟨hfacts, hwitnesses, hdiagnostics⟩ := h.short
  refine ⟨_, rfl, (reads_stableId h.sccId).bind ((reads_u32 _).bind ((reads_string h.logical).bind
    ((reads_string h.fixpoint).bind ((reads_string h.external).bind
    ((reads_many hfacts fun f hf => reads_fact (h.facts f hf)).bind
    ((reads_many hwitnesses fun e he => reads_witness (h.witnesses e he)).bind
    ((reads_many hdiagnostics fun text ht => reads_string (h.diagnostics text ht)).last
      (Reads.pure ?_))))))))⟩
  rw [UInt8.toUInt8_toUInt32]

/-- A stored result is read back as it was. -/
theorem deserialize_serialize (h : result.Storable) :
    deserializeResult (serializeResult result) = .ok result := by
  obtain ⟨bytes, hbytes, hreads⟩ := reads_result h
  have hread := hreads []
  rw [List.append_nil] at hread
  rw [deserializeResult, hbytes, List.take_left, if_neg (not_not.mpr rfl), List.drop_left, hread]
  rfl

end Veritas

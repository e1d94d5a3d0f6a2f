import Mathlib.Data.List.TakeWhile
import Veritas.Wpa.RowShape

/-! Semantic keys built inside the rule engine, whose numbers are 32 bits wide. -/
namespace Veritas

open FieldCode UInt64

/-- A cell as it crosses to the runner: text, or a 64-bit pattern. -/
inductive SouffleCell
  | symbol (text : String)
  | number (pattern : UInt64)

/-- The engine's representation of a column, the first letter of its declared type. -/
inductive Primitive
  | symbol | signed | unsigned

/-- A value inside the engine, where `RAM_DOMAIN_SIZE` is 32. -/
inductive RamValue
  | symbol (text : String)
  | signed (value : Int32)
  | unsigned (value : UInt32)

def ExecutionCellValue.pattern? : ExecutionCellValue → Option UInt64
  | .functionId id => some id.value.toUInt64
  | .valueId id => some id.value.toUInt64
  | .memoryId id => some id.value.toUInt64
  | .callSiteId id => some id.value.toUInt64
  | .factId id => some id.value.toUInt64
  | .int64 v => some v.toUInt64
  | .uint64 v => some v
  | .string _ => none
  | .dispatchKind v => some (ofNat v.ordinal)
  | .aliasKind v => some (ofNat v.ordinal)
  | .byteRangeKind v => some (ofNat v.ordinal)
  | .epistemic v => some (ofNat v.ordinal)

def flatCell (cell : ExecutionCellValue) (domain : ColumnDomain) : StatusOr SouffleCell :=
  if domain = .string then
    match cell.string? with
    | none => throw (.invalidArgument "a symbol column carries a number")
    | some text => pure (.symbol text)
  else
    match cell.pattern? with
    | none => throw (.invalidArgument "a numeric column carries a symbol")
    | some pattern => pure (.number pattern)

/-- `relations.v2.dl` declares every id and enum type a subtype of `number`. -/
def ColumnDomain.primitive : ColumnDomain → Primitive
  | .string => .symbol
  | .uint64 => .unsigned
  | _ => .signed

/-- The text of a C string ends at its first zero byte. -/
def cString (text : String) : String := String.ofList (text.toList.takeWhile (· ≠ '\x00'))

/-- A 64-bit pattern keeps its low half; no result is the runner's invalid-argument code. -/
def pushCell (primitive : Primitive) (cell : SouffleCell) : Option RamValue :=
  match cell, primitive with
  | .symbol text, .symbol => some (.symbol (cString text))
  | .number pattern, .unsigned => some (.unsigned pattern.toUInt32)
  | .number pattern, .signed => some (.signed pattern.toUInt32.toInt32)
  | _, _ => none

def pushRow (row : ExecutionRow) : Option (List RamValue) :=
  ((relationsV2 row.relation).columns.zip row.cells).mapM fun entry => do
    let flat ← (flatCell entry.2 entry.1.domain).toOption
    pushCell entry.1.domain.primitive flat

def veritasKeyHeader (relation : String) (arity : Int32) : String :=
  encodeKeyHeader relation arity.toUInt32.toNat

def veritasKeyId (value : String) : String := encodeField .id value

def veritasKeyFieldNumber (value : Int32) : String :=
  encodeField .number value.toInt64.toInt.repr

def veritasKeyFieldUnsigned (value : UInt32) : String :=
  encodeField .unsigned value.toUInt64.toNat.repr

def veritasKeyFieldEnum (value : Int32) : String :=
  encodeField .enum value.toUInt32.toUInt64.toNat.repr

section Rules

variable (edb : List ExecutionRow)

/-- The tuples the engine holds for an input relation. -/
def EngineTuple (relation : RelationId) (tuple : List RamValue) : Prop :=
  ∃ row ∈ edb, row.relation = relation ∧ pushRow row = some tuple

/-- The key rule of a range relation; the two bundles spell it alike up to the name. -/
inductive RangeKey (relation : RelationId) (name : String) : List RamValue → String → Prop
  | intro {f x rk off e : Int32} {sz : UInt32} {fs xs : String} :
      EngineTuple edb relation [.signed f, .signed x, .signed rk, .signed off, .unsigned sz,
        .signed e] →
      EngineTuple edb .functionMap [.signed f, .symbol fs] →
      EngineTuple edb .memoryMap [.signed x, .symbol xs] →
      RangeKey relation name
        [.signed f, .signed x, .signed rk, .signed off, .unsigned sz, .signed e]
        (veritasKeyHeader name 6 ++ (veritasKeyId fs ++ (veritasKeyId xs ++
          (veritasKeyFieldEnum rk ++ (veritasKeyFieldNumber off ++
            (veritasKeyFieldUnsigned sz ++ veritasKeyFieldEnum e))))))

def DirectReadKey : List RamValue → String → Prop := RangeKey edb .directRead "DirectRead"

def DirectWriteKey : List RamValue → String → Prop := RangeKey edb .directWrite "DirectWrite"

def EngineKey : RelationId → List RamValue → String → Prop
  | .directRead => DirectReadKey edb
  | .directWrite => DirectWriteKey edb
  | _ => fun _ _ => False

end Rules

/-- The rows of one map relation: each stable id of the map, as text, under its dense id. -/
structure MapRows {tag : ColumnDomain} {kind : IdKind} (edb : List ExecutionRow)
    (relation : RelationId) (cell : DenseId tag → ExecutionCellValue)
    (map : DenseIdMap tag kind) : Prop where
  mem_iff : ∀ row, row.relation = relation → (row ∈ edb ↔
    ∃ d s, map.toStable d = .ok s ∧ row = ⟨relation, [cell d, .string s.toString]⟩)
  text : ∀ s ∈ map.stableIds, '\x00' ∉ s.toString.toList

/-- The row's offset and size are numbers of the engine's own width. -/
def ExecutionRow.FitsEngine (row : ExecutionRow) : Prop :=
  (∀ offset, .int64 offset ∈ row.cells → -2 ^ 31 ≤ offset.toInt ∧ offset.toInt < 2 ^ 31) ∧
    ∀ size, .uint64 size ∈ row.cells → size.toNat < 2 ^ 32

/-- A dense id keeps its bits, so the engine tells as many ids apart as the map does. -/
theorem denseId_signed_injective {a b : UInt32}
    (h : a.toUInt64.toUInt32.toInt32 = b.toUInt64.toUInt32.toInt32) : a = b := by
  rw [UInt32.toUInt32_toUInt64, UInt32.toUInt32_toUInt64] at h
  have h := congrArg Int32.toUInt32 h
  rwa [UInt32.toUInt32_toInt32, UInt32.toUInt32_toInt32] at h

/-- An ordinal comes back unchanged. -/
theorem veritasKeyFieldEnum_ordinal {n : ℕ} (h : n < 2 ^ 32) :
    veritasKeyFieldEnum (ofNat n).toUInt32.toInt32 = encodeField .enum n.repr := by
  rw [veritasKeyFieldEnum, UInt32.toUInt32_toInt32, UInt32.toNat_toUInt64, toNat_toUInt32,
    toNat_ofNat_of_lt' (h.trans (by decide)), Nat.mod_eq_of_lt h]

theorem signed_eq_iff (v : Int64) :
    v.toUInt64.toUInt32.toInt32.toInt64.toInt = v.toInt ↔ -2 ^ 31 ≤ v.toInt ∧ v.toInt < 2 ^ 31 := by
  have hnarrow : v.toUInt64.toUInt32.toInt32 = v.toInt32 := by
    apply Int32.toBitVec_inj.mp
    rw [Int64.toBitVec_toInt32, BitVec.signExtend_eq_setWidth_of_le _ (by decide)]
    simp
  rw [hnarrow, Int32.toInt_toInt64, Int64.toInt_toInt32]
  constructor
  · intro h
    have hlow := Int.le_bmod (x := v.toInt) (m := 2 ^ 32) (by decide)
    have hhigh := Int.bmod_lt (x := v.toInt) (m := 2 ^ 32) (by decide)
    omega
  · rintro ⟨hlow, hhigh⟩
    exact Int.bmod_eq_of_le (by omega) (by omega)

theorem unsigned_eq_iff (v : UInt64) : v.toUInt32.toUInt64.toNat = v.toNat ↔ v.toNat < 2 ^ 32 := by
  exact Nat.mod_eq_iff_lt (by decide)

variable {text : String} {kind : IdKind} {tag : ColumnDomain}

theorem cString_eq (h : '\x00' ∉ text.toList) : cString text = text := by
  have htake : text.toList.takeWhile (· ≠ '\x00') = text.toList := by
    refine List.takeWhile_eq_self_iff.mpr fun c hc => decide_eq_true ?_
    rintro rfl
    exact h hc
  rw [cString, htake, String.ofList_toList]

/-- The engine finds one text under a dense id: that of the id it was made from. -/
theorem mapTuple_iff {edb : List ExecutionRow} {relation : RelationId}
    {cell : DenseId tag → ExecutionCellValue} {map : DenseIdMap tag kind}
    (hmap : MapRows edb relation cell map)
    (hpush : ∀ d text, pushRow ⟨relation, [cell d, .string text]⟩ =
      some [.signed d.value.toUInt64.toUInt32.toInt32, .symbol (cString text)]) {d : DenseId tag}
    {s : StableId} (hs : map.toStable d = .ok s) :
    EngineTuple edb relation [.signed d.value.toUInt64.toUInt32.toInt32, .symbol text] ↔
      text = s.toString := by
  have htext := cString_eq (hmap.text s (DenseIdMap.mem_of_toStable hs))
  constructor
  · rintro ⟨row, hrow, hrel, hpushed⟩
    obtain ⟨d', s', hs', rfl⟩ := (hmap.mem_iff row hrel).mp hrow
    simp only [hpush, Option.some.injEq, List.cons.injEq, RamValue.signed.injEq,
      RamValue.symbol.injEq, and_true] at hpushed
    obtain rfl : d' = d := congrArg DenseId.mk (denseId_signed_injective hpushed.1)
    obtain rfl : s' = s := Except.ok.inj (hs'.symm.trans hs)
    exact hpushed.2.symm.trans htext
  · rintro rfl
    refine ⟨_, (hmap.mem_iff _ rfl).mpr ⟨d, s, hs, rfl⟩, rfl, ?_⟩
    rw [hpush, htext]

theorem rangeRow_shape {row : ExecutionRow} (hv : validateExecutionRow row = .ok ())
    (hrange : isRangeRelation row.relation) : ∃ f x k o z e, row = ⟨row.relation,
      [.functionId f, .memoryId x, .byteRangeKind k, .int64 o, .uint64 z, .epistemic e]⟩ := by
  cases row
  have hshape := rowShape_of_valid hv
  simp only [isRangeRelation, decide_eq_true_eq] at hrange
  rcases hrange with rfl | rfl
  all_goals
    obtain ⟨f, x, k, o, z, e, rfl⟩ := hshape
    exact ⟨f, x, k, o, z, e, rfl⟩

/-- The key fields of a range row, with whatever number texts stand for its offset and size. -/
def rangeFields (sf sx : StableId) (k : ByteRangeKind) (offset size : String)
    (e : EpistemicState) : List (KeyFieldTag × String) :=
  [(.id, sf.toString), (.id, sx.toString), (.enum, k.ordinal.repr), (.number, offset),
    (.unsigned, size), (.enum, e.ordinal.repr)]

section Range

variable {input : WpaLogicalComponentInput} {relation : RelationId} {f : FunctionId}
  {x : MemoryId} {k : ByteRangeKind} {o : Int64} {z : UInt64} {e : EpistemicState}
  {sf sx : StableId} {key : String}

def rangeTuple (f : FunctionId) (x : MemoryId) (k : ByteRangeKind) (o : Int64) (z : UInt64)
    (e : EpistemicState) : List RamValue :=
  [.signed f.value.toUInt64.toUInt32.toInt32, .signed x.value.toUInt64.toUInt32.toInt32,
    .signed (ofNat k.ordinal).toUInt32.toInt32, .signed o.toUInt64.toUInt32.toInt32,
    .unsigned z.toUInt32, .signed (ofNat e.ordinal).toUInt32.toInt32]

theorem pushRow_range (hrange : isRangeRelation relation) :
    pushRow ⟨relation, [.functionId f, .memoryId x, .byteRangeKind k, .int64 o, .uint64 z,
      .epistemic e]⟩ = some (rangeTuple f x k o z e) := by
  simp only [isRangeRelation, decide_eq_true_eq] at hrange
  rcases hrange with rfl | rfl <;> rfl

/-- The rule concatenates the fields of the row, read through the engine's number types. -/
theorem rangeKey_iff (hfun : MapRows input.edb .functionMap .functionId input.mappings.functions)
    (hmem : MapRows input.edb .memoryMap .memoryId input.mappings.memories)
    (hf : input.mappings.functions.toStable f = .ok sf)
    (hx : input.mappings.memories.toStable x = .ok sx)
    (htuple : EngineTuple input.edb relation (rangeTuple f x k o z e)) {name : String} :
    RangeKey input.edb relation name (rangeTuple f x k o z e) key ↔
      key = encodeKeyHeader name 6 ++ encodeFields (rangeFields sf sx k
        o.toUInt64.toUInt32.toInt32.toInt64.toInt.repr z.toUInt32.toUInt64.toNat.repr e) := by
  have hkind : k.ordinal < 2 ^ 32 := by cases k <;> decide
  have hstate : e.ordinal < 2 ^ 32 := by cases e <;> decide
  have hfields : encodeKeyHeader name 6 ++ encodeFields (rangeFields sf sx k
      o.toUInt64.toUInt32.toInt32.toInt64.toInt.repr z.toUInt32.toUInt64.toNat.repr e) =
      veritasKeyHeader name 6 ++ (veritasKeyId sf.toString ++ (veritasKeyId sx.toString ++
        (veritasKeyFieldEnum (ofNat k.ordinal).toUInt32.toInt32 ++
          (veritasKeyFieldNumber o.toUInt64.toUInt32.toInt32 ++
            (veritasKeyFieldUnsigned z.toUInt32 ++
              veritasKeyFieldEnum (ofNat e.ordinal).toUInt32.toInt32))))) := by
    rw [veritasKeyFieldEnum_ordinal hkind, veritasKeyFieldEnum_ordinal hstate]
    simp only [rangeFields, encodeFields, concat, String.append_empty]
    rfl
  rw [hfields]
  constructor
  · intro h
    generalize htup : rangeTuple f x k o z e = tuple at h
    obtain ⟨-, hfs, hxs⟩ := h
    obtain ⟨rfl, rfl, rfl, rfl, rfl, rfl⟩ := htup
    obtain rfl := (mapTuple_iff hfun (fun _ _ => rfl) hf).mp hfs
    obtain rfl := (mapTuple_iff hmem (fun _ _ => rfl) hx).mp hxs
    rfl
  · rintro rfl
    exact .intro htuple ((mapTuple_iff hfun (fun _ _ => rfl) hf).mpr rfl)
      ((mapTuple_iff hmem (fun _ _ => rfl) hx).mpr rfl)

theorem decodeRow_range {sem : SemanticRow} (h : decodeRow input.mappings ⟨relation,
      [.functionId f, .memoryId x, .byteRangeKind k, .int64 o, .uint64 z, .epistemic e]⟩ =
        .ok sem) :
    ∃ sf sx, input.mappings.functions.toStable f = .ok sf ∧
      input.mappings.memories.toStable x = .ok sx ∧ encodeSemanticKey sem =
        encodeKeyHeader (relationsV2 relation).name 6 ++
          encodeFields (rangeFields sf sx k o.toInt.repr z.toNat.repr e) := by
  simp only [decodeRow, List.mapM_cons, List.mapM_nil, decodeCell, StatusOr.bind_eq_ok,
    StatusOr.pure_eq_ok] at h
  obtain ⟨_, ⟨_, ⟨sf, hf, rfl⟩, _, ⟨_, ⟨sx, hx, rfl⟩, _, ⟨_, rfl, _, ⟨_, rfl, _, ⟨_, rfl, _,
    ⟨_, rfl, _, rfl, rfl⟩, rfl⟩, rfl⟩, rfl⟩, rfl⟩, rfl⟩, rfl⟩ := h
  exact ⟨sf, sx, hf, hx, rfl⟩

/-- Two keys of one row differ where its number texts do. -/
theorem rangeFields_key_inj {name offset offset' size size' : String}
    (h : encodeKeyHeader name 6 ++ encodeFields (rangeFields sf sx k offset size e) =
      encodeKeyHeader name 6 ++ encodeFields (rangeFields sf sx k offset' size' e)) :
    offset = offset' ∧ size = size' := by
  have hne : ∀ a : KeyFieldTag × String, encodeField a.1 a.2 ≠ "" := by
    intro a ha
    simpa [encodeField] using congrArg String.length ha
  have hcells := concat_inj encodeField_prefixFree hne (String.append_right_inj _ |>.mp h)
  simp only [rangeFields, List.cons.injEq, Prod.mk.injEq, true_and, and_true] at hcells
  exact hcells

end Range

/-- The engine's key of a direct effect is the key the materializer rooted exactly when the
offset and the size fit the engine's 32-bit numbers. -/
theorem engineKey_eq_semanticKey_iff {input : WpaLogicalComponentInput}
    (hfun : MapRows input.edb .functionMap .functionId input.mappings.functions)
    (hmem : MapRows input.edb .memoryMap .memoryId input.mappings.memories) {row : ExecutionRow}
    (hrow : row ∈ input.edb) (hvalid : validateExecutionRow row = .ok ())
    (hrange : isRangeRelation row.relation) {sem : SemanticRow}
    (hsem : decodeRow input.mappings row = .ok sem) :
    (∃ tuple, pushRow row = some tuple ∧ ∀ key,
      EngineKey input.edb row.relation tuple key ↔ key = encodeSemanticKey sem) ↔
      row.FitsEngine := by
  obtain ⟨f, x, k, o, z, e, hshape⟩ := rangeRow_shape hvalid hrange
  obtain ⟨relation, cells⟩ := row
  obtain ⟨-, rfl⟩ := ExecutionRow.mk.inj hshape
  obtain ⟨sf, sx, hf, hx, hkey⟩ := decodeRow_range hsem
  have hpush := pushRow_range (f := f) (x := x) (k := k) (o := o) (z := z) (e := e) hrange
  have hengine : ∀ key, EngineKey input.edb relation (rangeTuple f x k o z e) key ↔
      RangeKey input.edb relation (relationsV2 relation).name (rangeTuple f x k o z e) key := by
    intro key
    simp only [isRangeRelation, decide_eq_true_eq] at hrange
    rcases hrange with rfl | rfl <;> rfl
  have hfits : ExecutionRow.FitsEngine ⟨relation, [.functionId f, .memoryId x, .byteRangeKind k,
      .int64 o, .uint64 z, .epistemic e]⟩ ↔
      o.toUInt64.toUInt32.toInt32.toInt64.toInt = o.toInt ∧
        z.toUInt32.toUInt64.toNat = z.toNat := by
    rw [signed_eq_iff, unsigned_eq_iff]
    simp [ExecutionRow.FitsEngine]
  rw [hfits, hpush, hkey]
  simp only [Option.some.injEq, exists_eq_left', hengine,
    rangeKey_iff hfun hmem hf hx ⟨_, hrow, rfl, hpush⟩]
  constructor
  · intro h
    obtain ⟨hoffset, hsize⟩ := rangeFields_key_inj ((h _).mp rfl)
    exact ⟨intRepr_injective hoffset, repr_injective hsize⟩
  · rintro ⟨hoffset, hsize⟩ key
    rw [hoffset, hsize]

/-- The read of one object by one function, at an offset and a size. -/
def readRow (offset : Int64) (size : UInt64) : ExecutionRow :=
  ⟨.directRead, [.functionId ⟨0⟩, .memoryId ⟨0⟩, .byteRangeKind .known, .int64 offset,
    .uint64 size, .epistemic .must]⟩

def rootedRead (offset : Int64) (size : UInt64) : SemanticRow :=
  ⟨.directRead, [.stableId ⟨.functionVariant, "a"⟩, .stableId ⟨.memoryRef, "b"⟩,
    .byteRangeKind .known, .int64 offset, .uint64 size, .epistemic .must]⟩

def readInput (offset : Int64) (size : UInt64) : WpaLogicalComponentInput where
  sccId := ⟨.scc, "a"⟩
  component := .memoryEffects
  mappings :=
    { functions := ⟨[⟨.functionVariant, "a"⟩], List.Pairwise.sortedLT (by decide), by decide,
        by decide⟩
      values := .empty
      memories := ⟨[⟨.memoryRef, "b"⟩], List.Pairwise.sortedLT (by decide), by decide, by decide⟩
      callSites := .empty
      facts := .empty }
  edb := [readRow offset size, ⟨.functionMap, [.functionId ⟨0⟩, .string "funcvar:sha256:a"]⟩,
    ⟨.memoryMap, [.memoryId ⟨0⟩, .string "memref:sha256:b"]⟩]
  localRoots := []
  successorRoots := []
  logicalInputHash := ""

/-- The map rows of a component with one id of a kind. -/
theorem mapRows_singleton {edb : List ExecutionRow} {relation : RelationId}
    {cell : DenseId tag → ExecutionCellValue} {map : DenseIdMap tag kind} {id : StableId}
    (hmap : map.denseToStable = [id]) (htext : '\x00' ∉ id.toString.toList)
    (hedb : edb.filter (·.relation = relation) = [⟨relation, [cell ⟨0⟩, .string id.toString]⟩]) :
    MapRows edb relation cell map := by
  constructor
  · intro row hrel
    have hrow : row ∈ edb ↔ row = ⟨relation, [cell ⟨0⟩, .string id.toString]⟩ := by
      rw [← List.mem_singleton, ← hedb]
      simp [hrel]
    have hzero : map.toStable ⟨0⟩ = .ok id := by
      rw [DenseIdMap.toStable_eq_ok, hmap]
      rfl
    rw [hrow]
    constructor
    · rintro rfl
      exact ⟨_, _, hzero, rfl⟩
    · rintro ⟨d, s, hs, rfl⟩
      have hmem := DenseIdMap.mem_of_toStable hs
      rw [hmap, List.mem_singleton] at hmem
      subst hmem
      rw [DenseIdMap.toStable_injective hs hzero]
  · intro s hs
    have hs : s ∈ map.denseToStable := hs
    rw [hmap, List.mem_singleton] at hs
    rwa [hs]

theorem readInput_functions (offset : Int64) (size : UInt64) :
    MapRows (readInput offset size).edb .functionMap .functionId
      (readInput offset size).mappings.functions :=
  mapRows_singleton rfl (by decide) rfl

theorem readInput_memories (offset : Int64) (size : UInt64) :
    MapRows (readInput offset size).edb .memoryMap .memoryId
      (readInput offset size).mappings.memories :=
  mapRows_singleton rfl (by decide) rfl

theorem narrow_read_key_rooted : (readRow (-4) 8).FitsEngine ∧
    ∃ tuple, pushRow (readRow (-4) 8) = some tuple ∧ ∀ key,
      EngineKey (readInput (-4) 8).edb .directRead tuple key ↔
        key = encodeSemanticKey (rootedRead (-4) 8) := by
  have hfits : (readRow (-4) 8).FitsEngine := by
    constructor <;> simp [readRow]
  exact ⟨hfits, (engineKey_eq_semanticKey_iff (readInput_functions _ _) (readInput_memories _ _)
    List.mem_cons_self (by decide) (by decide) rfl).mpr hfits⟩

/-- An offset of `2 ^ 31` comes back negative, so the key is that of a fact nobody rooted. -/
theorem wide_offset_key_not_rooted :
    validateExecutionRow (readRow 2147483648 8) = .ok () ∧
      decodeRow (readInput 2147483648 8).mappings (readRow 2147483648 8) =
        .ok (rootedRead 2147483648 8) ∧
      ∃ tuple, pushRow (readRow 2147483648 8) = some tuple ∧
        EngineKey (readInput 2147483648 8).edb .directRead tuple
          (encodeSemanticKey (rootedRead (-2147483648) 8)) ∧
        ¬ EngineKey (readInput 2147483648 8).edb .directRead tuple
          (encodeSemanticKey (rootedRead 2147483648 8)) := by
  have hpush : pushRow (readRow 2147483648 8) =
      some (rangeTuple ⟨0⟩ ⟨0⟩ .known 2147483648 8 .must) := pushRow_range rfl
  have hkey : ∀ key, EngineKey (readInput 2147483648 8).edb .directRead
      (rangeTuple ⟨0⟩ ⟨0⟩ .known 2147483648 8 .must) key ↔ _ := fun key =>
    rangeKey_iff (readInput_functions _ _) (readInput_memories _ _) rfl rfl
      ⟨_, List.mem_cons_self, rfl, hpush⟩
  refine ⟨by decide, rfl, _, hpush, (hkey _).mpr (by decide +kernel), fun h => ?_⟩
  exact absurd ((hkey _).mp h) (by decide +kernel)

end Veritas

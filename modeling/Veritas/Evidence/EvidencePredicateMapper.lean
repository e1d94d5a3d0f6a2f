import Mathlib.Algebra.Group.Int.Defs
import Veritas.Evidence.EvidenceCase
import Veritas.Facts.AnalysisFact

/-! Lowering an analysis fact to a fact of the case, and the byte windows that survive it. -/
namespace Veritas.Evidence

open StatusOr

def copyEpistemicState : Veritas.EpistemicState → EpistemicState
  | .must => .must
  | .may => .may
  | .mustNot => .mustNot
  | .inferred => .inferred
  | .assumed => .assumed
  | .unknown => .unknown

def confidenceForState : EpistemicState → Confidence
  | .must | .mustNot => .exact
  | .may => .medium
  | .inferred | .assumed => .low
  | .unknown | .unspecified => .unknown

/-- The case-local handle of a stable id. -/
abbrev StableIdResolver := StableId → Option String

structure FactMappingHandle where
  localId : String
  provenanceId : String

namespace EvidencePredicateMapper

def reference (localId : String) : Expression := { kind := .reference, text := localId }

def integer (value : Int64) : Expression := { kind := .integer, integer := value }

def call (callee : String) (arguments : List Expression) : Expression :=
  { kind := .call, text := callee, operands := arguments }

def predicateName : RelationId → Option String
  | .directRead => some "range"
  | .directWrite => some "capacity"
  | .reachableCall => some "reachable"
  | .alias => some "alias"
  | .mayRead => some "reads"
  | .mayWrite => some "writes"
  | .globalFlow => some "reachable"
  | _ => none

def producerName : RelationId → Option String
  | .directRead => some "analysis.value_range"
  | .directWrite => some "analysis.memory_object"
  | .reachableCall => some "analysis.call_graph"
  | .alias => some "analysis.alias"
  | .mayRead | .mayWrite => some "analysis.memory_effect"
  | .globalFlow => some "analysis.value_flow"
  | _ => none

def cellMismatch (relation : RelationId) (index : ℕ) (expected : String) : Status :=
  .invalidArgument ("fact row for relation '" ++ (relationsV2 relation).name ++ "' cell " ++
    toString index ++ " is not a " ++ expected)

/-- The window `[offset, offset + size)` of a bounded access. -/
structure ByteWindow where
  offset : Int64
  size : UInt64

/-- The exclusive upper bound, added without a sign. -/
def ByteWindow.upper (window : ByteWindow) : Int64 := (window.offset.toUInt64 + window.size).toInt64

variable (fact : AnalysisFact) (resolver : StableIdResolver) (handle : FactMappingHandle)

/-- An unbounded access has no window; its offset and size are placeholders. -/
def readByteWindow : StatusOr ByteWindow :=
  let relation := fact.row.relation
  match fact.row.cells[2]?.bind (·.byteRangeKind?) with
  | none => throw (cellMismatch relation 2 "byte range kind")
  | some kind =>
    match fact.row.cells[3]?.bind (·.int64?) with
    | none => throw (cellMismatch relation 3 "signed offset")
    | some offset =>
      match fact.row.cells[4]?.bind (·.uint64?) with
      | none => throw (cellMismatch relation 4 "size")
      | some size =>
        if kind = .unknown then
          throw (.invalidArgument ("the range row for '" ++ (relationsV2 relation).name ++
            "' carries range_kind 'unknown': the analysis declined to bound this access, so its " ++
            "offset and size cells are sentinels and the row supports no bounded interval. " ++
            "Refused rather than lowered to a zero-length window"))
        else pure ⟨offset, size⟩

def resolveCell (index : ℕ) : StatusOr String :=
  match fact.row.cells[index]?.bind (·.stableId?) with
  | none => throw (cellMismatch fact.row.relation index "stable ID")
  | some stable =>
    match resolver stable with
    | none => throw (.invalidArgument ("the case declares no member for the stable ID '" ++
        stable.toString ++ "' referenced by a fact row for relation '" ++
        (relationsV2 fact.row.relation).name ++ "'"))
    | some localId => pure localId

/-- A state the analysis did not establish as certain is derived. -/
def assemble (predicate : Expression) : StatusOr Fact :=
  match fact.row.cells.getLast?.bind (·.epistemic?) with
  | none => throw (cellMismatch fact.row.relation (fact.row.cells.length - 1) "epistemic state")
  | some state =>
    match producerName fact.row.relation with
    | none => throw (.invalidArgument ("the relation '" ++ (relationsV2 fact.row.relation).name ++
        "' has no built-in producer identity"))
    | some producer => pure
        { id := handle.localId
          stableId := some fact.factId
          predicate := predicate
          epistemic := copyEpistemicState state
          confidence := confidenceForState (copyEpistemicState state)
          producer := producer
          provenanceId := handle.provenanceId
          derived := state ≠ .must }

/-- Both ends of a binary row under one predicate. -/
def mapPair (predicate : String) : StatusOr Fact := do
  let left ← resolveCell fact resolver 0
  let right ← resolveCell fact resolver 1
  assemble fact handle (call predicate [reference left, reference right])

def mapRange : StatusOr Fact := do
  let window ← readByteWindow fact
  let value ← resolveCell fact resolver 1
  assemble fact handle (call "range" [reference value, integer window.offset, integer window.upper])

/-- The size of the object, not a bound of the window. -/
def mapCapacity : StatusOr Fact := do
  let window ← readByteWindow fact
  let memory ← resolveCell fact resolver 1
  assemble fact handle (call "capacity" [reference memory, integer window.size.toInt64])

def mapReachability : StatusOr Fact := mapPair fact resolver handle "reachable"

def mapAlias : StatusOr Fact := mapPair fact resolver handle "alias"

def mapMemoryEffect : StatusOr Fact :=
  mapPair fact resolver handle ((predicateName fact.row.relation).getD "")

def mapFact : StatusOr Fact := do
  validateSemanticRow fact.row
  match fact.row.relation with
  | .directRead => mapRange fact resolver handle
  | .directWrite => mapCapacity fact resolver handle
  | .reachableCall | .globalFlow => mapReachability fact resolver handle
  | .alias => mapAlias fact resolver handle
  | .mayRead | .mayWrite => mapMemoryEffect fact resolver handle
  | relation => throw (.invalidArgument ("the relation '" ++ (relationsV2 relation).name ++
      "' has no built-in EIR predicate mapping"))

/-- A capacity counts from the start of the object. -/
def firstByte (window : ByteWindow) : Int64 :=
  if fact.row.relation = .directRead then window.offset else 0

/-- What an access is lowered to, with the end of its bytes. -/
def lowered (window : ByteWindow) (memory : String) (upper : Int64) : Expression :=
  if fact.row.relation = .directRead then
    call "range" [reference memory, integer window.offset, integer upper]
  else call "capacity" [reference memory, integer upper]

/-- The predicate is about the accessed memory, and its bytes end, in unbounded integers, where those
of the window do; they do not end before they start. -/
def StatesWindow (window : ByteWindow) (predicate : Expression) : Prop :=
  ∃ memory upper, resolveCell fact resolver 1 = .ok memory ∧
    predicate = lowered fact window memory upper ∧
      upper.toInt = (firstByte fact window).toInt + window.size.toNat ∧ firstByte fact window ≤ upper

variable {fact resolver handle} {mapped : Fact} {predicate : Expression} {window : ByteWindow}

theorem predicate_of_assemble (h : assemble fact handle predicate = .ok mapped) :
    mapped.predicate = predicate := by
  unfold assemble at h
  split at h
  · cases h
  · split at h
    · cases h
    · rw [← pure_eq_ok.mp h]

theorem eq_of_readByteWindow (hoffset : fact.row.cells[3]? = some (.int64 window.offset))
    (hsize : fact.row.cells[4]? = some (.uint64 window.size)) {read : ByteWindow}
    (h : readByteWindow fact = .ok read) : read = window := by
  simp only [readByteWindow, hoffset, hsize, Option.bind_some, SemanticCellValue.int64?,
    SemanticCellValue.uint64?] at h
  split at h
  · cases h
  · split at h
    · cases h
    · exact (pure_eq_ok.mp h).symm

theorem lowered_inj {memory memory' : String} {upper upper' : Int64}
    (h : lowered fact window memory upper = lowered fact window memory' upper') :
    upper = upper' := by
  unfold lowered at h
  split at h <;> simp_all [call, integer]

/-- The upper bound is the sum of offset and size unless that leaves the signed range. -/
theorem ByteWindow.toInt_upper_iff (window : ByteWindow) :
    window.upper.toInt = window.offset.toInt + window.size.toNat ↔
      window.offset.toInt + window.size.toNat < 2 ^ 63 := by
  constructor
  · intro h
    rw [← h]
    exact window.upper.toInt_lt
  · intro h
    have hsize : window.size.toInt64 = Int64.ofNat window.size.toNat := by
      rw [← UInt64.toInt64_ofNat', UInt64.ofNat_toNat]
    have hupper : window.upper = Int64.ofInt (window.offset.toInt + window.size.toNat) := by
      simp [upper, Int64.ofInt_add, Int64.ofInt_eq_ofNat, hsize]
    have hlow := window.offset.le_toInt
    rw [hupper, Int64.toInt_ofInt_of_le (by omega) h]

/-- A known access is lowered to the bytes it means exactly when they end within the signed range. -/
theorem statesWindow_iff (hrelation : isRangeRelation fact.row.relation)
    (hoffset : fact.row.cells[3]? = some (.int64 window.offset))
    (hsize : fact.row.cells[4]? = some (.uint64 window.size))
    (h : mapFact fact resolver handle = .ok mapped) :
    StatesWindow fact resolver window mapped.predicate ↔
      (firstByte fact window).toInt + window.size.toNat < 2 ^ 63 := by
  obtain ⟨-, -, h⟩ := bind_eq_ok.mp h
  obtain ⟨memory, hmemory, hpredicate⟩ : ∃ memory, resolveCell fact resolver 1 = .ok memory ∧
      mapped.predicate = lowered fact window memory
        (ByteWindow.upper ⟨firstByte fact window, window.size⟩) := by
    rcases of_decide_eq_true hrelation with hkind | hkind
    all_goals
      rw [hkind] at h
      obtain ⟨read, hread, h⟩ := bind_eq_ok.mp h
      obtain rfl := eq_of_readByteWindow hoffset hsize hread
      obtain ⟨memory, hmemory, h⟩ := bind_eq_ok.mp h
      refine ⟨memory, hmemory, (predicate_of_assemble h).trans ?_⟩
      simp [lowered, firstByte, hkind, ByteWindow.upper]
  rw [← ByteWindow.toInt_upper_iff ⟨firstByte fact window, window.size⟩, hpredicate]
  constructor
  · rintro ⟨memory', upper, -, hsame, hupper, -⟩
    rw [lowered_inj hsame]
    exact hupper
  · intro hupper
    refine ⟨memory, _, hmemory, rfl, hupper, Int64.le_iff_toInt_le.mpr ?_⟩
    exact hupper ▸ Int.le_add_of_nonneg_right (Int.natCast_nonneg _)

/-- A read or write of so many bytes at an offset. -/
def sampleAccess (relation : RelationId) (offset : Int64) (size : UInt64) : AnalysisFact :=
  ⟨⟨.fact, ""⟩, relation, [.stableId ⟨.functionVariant, ""⟩, .stableId ⟨.memoryRef, ""⟩,
    .byteRangeKind .known, .int64 offset, .uint64 size, .epistemic .must]⟩

theorem read_states_window : ∃ mapped,
    mapFact (sampleAccess .directRead 8 16) (fun _ => some "m") ⟨"f", "p"⟩ = .ok mapped ∧
      StatesWindow (sampleAccess .directRead 8 16) (fun _ => some "m") ⟨8, 16⟩ mapped.predicate :=
  ⟨_, rfl, (statesWindow_iff rfl rfl rfl rfl).mpr (by decide)⟩

/-- Sixteen bytes read eight below the limit end below where they start. -/
theorem read_window_wraps :
    (mapFact (sampleAccess .directRead 9223372036854775800 16) (fun _ => some "m")
      ⟨"f", "p"⟩).toOption.map (·.predicate) =
        some (call "range" [reference "m", integer 9223372036854775800,
          integer (-9223372036854775800)]) := by
  decide +kernel

end EvidencePredicateMapper

end Veritas.Evidence

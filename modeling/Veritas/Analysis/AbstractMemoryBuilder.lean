import Veritas.Core.Ids
import Veritas.Library.FieldCode

/-! Memory locations of pointers: the abstract object, the access path and the byte range. -/
namespace Veritas.Analysis

open FieldCode

/-- The types of the intermediate language; an `unsized` type has no size at all. -/
inductive IrType
  | integer (bits : ℕ)
  | floating (name : String)
  | pointer (addressSpace : ℕ)
  | struct (packed : Bool) (elements : List IrType)
  | array (count : ℕ) (element : IrType)
  | vector (scalable : Bool) (count : ℕ) (element : IrType)
  | unsized (name : String)

mutual

/-- Sized, and of a size that does not scale with the target. -/
def IrType.isFixed : IrType → Bool
  | .integer _ | .floating _ | .pointer _ => true
  | .struct _ elements => IrType.allFixed elements
  | .array _ element => element.isFixed
  | .vector scalable _ element => !scalable && element.isFixed
  | .unsized _ => false

def IrType.allFixed : List IrType → Bool
  | [] => true
  | element :: elements => element.isFixed && IrType.allFixed elements

end

/-- The two questions asked of `llvm::DataLayout`, about types that are fixed. -/
structure DataLayout where
  allocSize : IrType → ℕ
  elementOffset : (packed : Bool) → (elements : List IrType) → (field : ℕ) → ℕ

/-- A value of a module, with the number that tells it from every other one. An index of a `gep` is
`none` when it is not a constant. -/
inductive Value
  | gep (number : ℕ) (sourceElementType : IrType) (indices : List (Option Int64)) (pointer : Value)
  | bitCast (number : ℕ) (operand : Value)
  | addrSpaceCast (number : ℕ) (operand : Value)
  | load (number : ℕ) (pointer : Value)
  | alloca (number : ℕ) (allocatedType : IrType)
  | globalVariable (number : ℕ) (valueType : IrType)
  | argument (number : ℕ)
  | function (number : ℕ)
  | other (number : ℕ)

def Value.number : Value → ℕ
  | .gep number .. | .bitCast number _ | .addrSpaceCast number _ | .load number _ |
    .alloca number _ | .globalVariable number _ | .argument number | .function number |
    .other number => number

/-- What an instruction does with a slot. -/
inductive User
  | load (pointer : Value)
  | store (pointer value : Value)
  | other

structure OwnerFunction where
  symbolId : Option String
  name : String

/-- A module, the value mapper and the origin map. -/
structure IrModule where
  layout : DataLayout
  users : ℕ → List User
  stripPointerCasts : Value → Value
  idFor : Value → StatusOr StableId
  /-- The function of an instruction or of an argument. -/
  ownerFunctionOf : Value → Option OwnerFunction
  nameOf : Value → String

inductive SegmentKind
  | field | arrayIndex | arrayRange | unknown
  deriving DecidableEq

structure AccessPathSegment where
  kind : SegmentKind
  first : Int64
  last : Int64

inductive ByteRange
  | known (offset : Int64) (size : UInt64)
  | unknown

inductive AbstractObjectKind
  | global | stack | heap | argument | function | external | unknown | legacyOpaque
  deriving DecidableEq

structure AbstractObject where
  id : StableId
  kind : AbstractObjectKind
  ownerFunction : Option StableId
  semanticAnchor : String
  diagnosticName : String

structure MemoryLocation where
  id : StableId
  object : AbstractObject
  accessPath : List AccessPathSegment
  byteRange : ByteRange

structure GepSummary where
  segments : List AccessPathSegment := []
  constantOffset : Bool := true
  offset : Int64 := 0

/-- Where the next index applies: to a field of a struct, or in steps over a type. After a scalar
nothing is left to step over. -/
inductive Cursor
  | inStruct (packed : Bool) (elements : List IrType)
  | flat (type : Option IrType)

/-- The cursor behind a field: an array is entered at its element type. -/
def Cursor.ofField : IrType → Cursor
  | .array _ element => .flat (some element)
  | .struct packed elements => .inStruct packed elements
  | next => .flat (some next)

/-- The cursor behind a step: a vector is kept. -/
def Cursor.ofStep : Option IrType → Cursor
  | some (.array _ element) => .flat (some element)
  | some (.vector scalable count element) => .flat (some (.vector scalable count element))
  | some (.struct packed elements) => .inStruct packed elements
  | _ => .flat none

/-- The type a sequential index strides over: a vector is stepped by its elements. -/
def strideType : IrType → IrType
  | .vector _ _ element => element
  | type => type

def GepSummary.giveUp (summary : GepSummary) : GepSummary :=
  { summary with
    segments := summary.segments ++ [⟨.unknown, 0, 0⟩]
    constantOffset := false }

/-- `static_cast<unsigned>` of an index. -/
def fieldNumber (value : Int64) : ℕ := value.toUInt64.toNat % 2 ^ 32

section Walk

variable (layout : DataLayout)

/-- The indices of a `gep` one by one, with the summary so far. -/
def summarizeIndices : GepSummary → Cursor → List (Option Int64) → GepSummary
  | summary, _, [] => summary
  | summary, _, none :: _ => summary.giveUp
  | summary, .inStruct packed elements, some value :: indices =>
    match elements[fieldNumber value]? with
    | none => { summary with constantOffset := false }
    | some next =>
      summarizeIndices
        { summary with
          segments := summary.segments ++ [⟨.field, value, value⟩]
          offset := summary.offset +
            Int64.ofNat (layout.elementOffset packed elements (fieldNumber value)) }
        (.ofField next) indices
  | summary, .flat type, some value :: indices =>
    let stepped : GepSummary :=
      { summary with segments := summary.segments ++ [⟨.arrayIndex, value, value⟩] }
    match type with
    | none => summarizeIndices { stepped with constantOffset := false } (.ofStep none) indices
    | some type =>
      summarizeIndices
        { stepped with
          offset := summary.offset + value * Int64.ofNat (layout.allocSize (strideType type)) }
        (.ofStep (some type)) indices

structure Gep where
  sourceElementType : IrType
  indices : List (Option Int64)

def summarizeGep (gep : Gep) : GepSummary :=
  summarizeIndices layout {} (.flat (some gep.sourceElementType)) gep.indices

/-- The summaries of a chain added up, base to pointer. -/
def summarizeChain : GepSummary → List Gep → GepSummary
  | total, [] => total
  | total, gep :: geps =>
    let summary := summarizeGep layout gep
    summarizeChain
      { segments := total.segments ++ summary.segments
        constantOffset := total.constantOffset && summary.constantOffset
        offset := if summary.constantOffset then total.offset + summary.offset else total.offset }
      geps

end Walk

/-- The `gep`s of a pointer, outermost first, and the value under them and under the casts. -/
def gepChain : Value → List Gep × Value
  | .gep _ sourceElementType indices pointer =>
    (⟨sourceElementType, indices⟩ :: (gepChain pointer).1, (gepChain pointer).2)
  | .bitCast _ operand => gepChain operand
  | .addrSpaceCast _ operand => gepChain operand
  | value => ([], value)

def kindForBase : Value → AbstractObjectKind
  | .globalVariable .. => .global
  | .alloca .. => .stack
  | .argument _ => .argument
  | .function _ => .function
  | _ => .unknown

def allocationType : Value → Option IrType
  | .alloca _ allocatedType => some allocatedType
  | .globalVariable _ valueType => some valueType
  | _ => none

/-- The value of the only store to a slot whose other users are loads from it. -/
def singleStore (module : IrModule) (slot : ℕ) : List User → Option Value → Option Value
  | [], stored => stored
  | .load pointer :: users, stored =>
    if (module.stripPointerCasts pointer).number = slot then singleStore module slot users stored
    else none
  | .store pointer value :: users, stored =>
    if (module.stripPointerCasts pointer).number = slot ∧ stored.isNone then
      singleStore module slot users (some value)
    else none
  | .other :: _, _ => none

def recoverSingleStoreSlotValue (module : IrModule) (value : Value) : Value :=
  match value with
  | .load _ pointer =>
    match module.stripPointerCasts pointer with
    | .alloca slot _ => (singleStore module slot (module.users slot) none).getD value
    | _ => value
  | _ => value

def AbstractObjectKind.semanticAnchor : AbstractObjectKind → String
  | .global => "global"
  | .stack => "stack"
  | .heap => "heap"
  | .argument => "argument"
  | .function => "function"
  | .external => "external"
  | .unknown => "unknown"
  | .legacyOpaque => "legacy-opaque"

def appendUInt (value : ℕ) : String := value.repr ++ String.singleton ';'

def appendInt (value : ℤ) : String := value.repr ++ String.singleton ';'

def ownerVariantText (module : IrModule) (base : Value) : String :=
  match module.ownerFunctionOf base with
  | none => ""
  | some owner => owner.symbolId.getD owner.name

/-- The owner as a typed id, when its text is one of a function variant. -/
def ownerFunctionId (module : IrModule) (base : Value) : Option StableId :=
  match module.ownerFunctionOf base with
  | none => none
  | some owner =>
    match parseStableId (owner.symbolId.getD owner.name) with
    | .ok parsed => if parsed.kind = .functionVariant then some parsed else none
    | .error _ => none

def objectBytes (module : IrModule) (base : Value) (baseId : StableId) : String :=
  "O" ++ field (ownerVariantText module base) ++ appendInt (kindForBase base).ctorIdx ++
    field baseId.toString ++
    match allocationType base with
    | some type => "S" ++ appendUInt (module.layout.allocSize type)
    | none => "N"

def segmentBytes (segment : AccessPathSegment) : String :=
  appendInt segment.kind.ctorIdx ++ (appendInt segment.first.toInt ++ appendInt segment.last.toInt)

/-- The identity covers the object and the access path only. -/
def locationBytes (objectId : StableId) (accessPath : List AccessPathSegment) : String :=
  String.singleton 'M' ++ (field objectId.toString ++ (appendUInt accessPath.length ++
    concat segmentBytes accessPath))

def unsupportedLocation : Status :=
  .failedPrecondition "unsupported scalable or unsized memory location"

def locationFor (sha256 : String → String) (module : IrModule) (pointer : Value)
    (accessSize : Option UInt64) : StatusOr MemoryLocation := do
  let geps := (gepChain pointer).1
  let base := recoverSingleStoreSlotValue module (gepChain pointer).2
  if geps.any fun gep => !gep.sourceElementType.isFixed then throw unsupportedLocation
  if (allocationType base).any fun type => !type.isFixed then throw unsupportedLocation
  let baseId ← module.idFor base
  let object : AbstractObject :=
    { id := makeStableId sha256 .abstractObject (objectBytes module base baseId)
      kind := kindForBase base
      ownerFunction := ownerFunctionId module base
      semanticAnchor := (kindForBase base).semanticAnchor
      diagnosticName := module.nameOf base }
  let summary := summarizeChain module.layout {} geps.reverse
  return {
    id := makeStableId sha256 .memoryRef (locationBytes object.id summary.segments)
    object := object
    accessPath := summary.segments
    byteRange := match accessSize with
      | some size => if summary.constantOffset then .known summary.offset size else .unknown
      | none => .unknown }

end Veritas.Analysis

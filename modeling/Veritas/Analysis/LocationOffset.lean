import Veritas.Analysis.AbstractMemoryBuilder

/-! What the identity of a memory location says about its byte offset. -/
namespace Veritas.Analysis

open Function FieldCode StatusOr List

section Identity

theorem appendInt_prefixFree : PrefixFree appendInt :=
  terminated_prefixFree intRepr_injective (notMem_intRepr (by decide) (by decide))

theorem appendUInt_prefixFree : PrefixFree appendUInt :=
  terminated_prefixFree repr_injective (notMem_repr (by decide))

theorem SegmentKind.ctorIdx_injective : Injective SegmentKind.ctorIdx := by
  intro a b h
  cases a <;> cases b <;> first | rfl | cases h

theorem segmentBytes_prefixFree : PrefixFree segmentBytes := by
  rintro ⟨kind, first, last⟩ ⟨kind', first', last'⟩ r r' h
  simp only [segmentBytes, String.append_assoc] at h
  obtain ⟨hkind, h⟩ := appendInt_prefixFree _ _ _ _ h
  obtain ⟨hfirst, h⟩ := appendInt_prefixFree _ _ _ _ h
  obtain ⟨hlast, hr⟩ := appendInt_prefixFree _ _ _ _ h
  have hkind : kind.ctorIdx = kind'.ctorIdx := by exact_mod_cast hkind
  rw [SegmentKind.ctorIdx_injective hkind, Int64.toInt_inj.mp hfirst, Int64.toInt_inj.mp hlast]
  exact ⟨rfl, hr⟩

/-- The bytes of a location name its access path. -/
theorem accessPath_of_locationBytes {objectId objectId' : StableId}
    {path path' : List AccessPathSegment}
    (h : locationBytes objectId path = locationBytes objectId' path') : path = path' := by
  obtain ⟨-, h⟩ := singleton_prefixFree _ _ _ _ h
  obtain ⟨-, h⟩ := field_prefixFree _ _ _ _ h
  obtain ⟨hlen, h⟩ := appendUInt_prefixFree _ _ _ _ h
  have hpath : concat segmentBytes path ++ "" = concat segmentBytes path' ++ "" := by rw [h]
  exact (concat_append_inj segmentBytes_prefixFree hlen hpath).1

end Identity

section Displacement

/-- The bytes one segment moves: a field by its offset, an index by that many strides. -/
def weight (segment : AccessPathSegment) (stride : Int64) : Int64 :=
  if segment.kind = .field then stride else segment.first * stride

def displacement (path : List AccessPathSegment) (strides : List Int64) : Int64 :=
  (List.zipWith weight path strides).foldr (· + ·) 0

variable {path path' : List AccessPathSegment} {strides strides' : List Int64}

@[simp] theorem displacement_nil : displacement [] strides = 0 := by
  simp [displacement]

@[simp] theorem displacement_cons {segment : AccessPathSegment} {stride : Int64} :
    displacement (segment :: path) (stride :: strides) =
      weight segment stride + displacement path strides := by
  simp [displacement]

theorem displacement_append (hlen : path.length = strides.length) :
    displacement (path ++ path') (strides ++ strides') =
      displacement path strides + displacement path' strides' := by
  induction path generalizing strides with
  | nil =>
    cases strides with
    | nil => simp
    | cons stride strides => cases hlen
  | cons segment path ih =>
    cases strides with
    | nil => cases hlen
    | cons stride strides =>
      rw [cons_append, cons_append, displacement_cons, displacement_cons,
        ih (Nat.succ.inj hlen), Int64.add_assoc]

/-- A segment's weight is linear in its stride. -/
theorem weight_sub (segment : AccessPathSegment) (s t : Int64) :
    weight segment (s - t) = weight segment s - weight segment t := by
  unfold weight
  split
  · rfl
  · grind

theorem displacement_sub (hlen : path.length = strides.length)
    (hlen' : path.length = strides'.length) :
    displacement path (List.zipWith (· - ·) strides strides') =
      displacement path strides - displacement path strides' := by
  induction path generalizing strides strides' with
  | nil => simp
  | cons segment path ih =>
    cases strides with
    | nil => cases hlen
    | cons s strides =>
      cases strides' with
      | nil => cases hlen'
      | cons t strides' =>
        rw [zipWith_cons_cons, displacement_cons, displacement_cons, displacement_cons,
          ih (Nat.succ.inj hlen) (Nat.succ.inj hlen'), weight_sub]
        grind

end Displacement

section Strides

variable (layout : DataLayout)

/-- The stride or field offset that the types give to each index of a `gep`. -/
def gepStrides : Cursor → List (Option Int64) → List Int64
  | _, [] => []
  | _, none :: _ => []
  | .inStruct packed elements, some value :: indices =>
    match elements[fieldNumber value]? with
    | none => []
    | some next =>
      Int64.ofNat (layout.elementOffset packed elements (fieldNumber value)) ::
        gepStrides (.ofField next) indices
  | .flat none, some _ :: indices => 0 :: gepStrides (.ofStep none) indices
  | .flat (some type), some _ :: indices =>
    Int64.ofNat (layout.allocSize (strideType type)) :: gepStrides (.ofStep (some type)) indices

/-- The strides of a whole chain, base to pointer. -/
def chainStrides (geps : List Gep) : List Int64 :=
  geps.flatMap fun gep => gepStrides layout (.flat (some gep.sourceElementType)) gep.indices

variable {layout}

theorem chainStrides_cons (gep : Gep) (geps : List Gep) : chainStrides layout (gep :: geps) =
    gepStrides layout (.flat (some gep.sourceElementType)) gep.indices ++ chainStrides layout geps :=
  rfl

/-- A walk over constant indices adds one segment and one weight for each. -/
theorem summarizeIndices_spec {summary : GepSummary} {cursor : Cursor}
    {indices : List (Option Int64)}
    (h : (summarizeIndices layout summary cursor indices).constantOffset = true) :
    summary.constantOffset = true ∧
    ∃ segments, segments.length = (gepStrides layout cursor indices).length ∧
      (summarizeIndices layout summary cursor indices).segments = summary.segments ++ segments ∧
      (summarizeIndices layout summary cursor indices).offset =
        summary.offset + displacement segments (gepStrides layout cursor indices) := by
  induction indices generalizing summary cursor with
  | nil =>
    rw [summarizeIndices] at h ⊢
    exact ⟨h, [], by simp [gepStrides]⟩
  | cons index indices ih =>
    cases index with
    | none =>
      cases h
    | some value =>
      cases cursor with
      | inStruct packed elements =>
        rw [summarizeIndices] at h ⊢
        rw [gepStrides]
        cases hnext : elements[fieldNumber value]? with
        | none =>
          rw [hnext] at h
          cases h
        | some next =>
          simp only [hnext] at h ⊢
          obtain ⟨hconstant, segments, hlen, hsegments, hoffset⟩ := ih h
          refine ⟨hconstant, ⟨.field, value, value⟩ :: segments, ?_, ?_, ?_⟩
          · rw [length_cons, length_cons, hlen]
          · rw [hsegments, append_assoc, singleton_append]
          · rw [hoffset, displacement_cons, ← Int64.add_assoc]
            rfl
      | flat type =>
        cases type with
        | none =>
          rw [summarizeIndices] at h
          obtain ⟨hconstant, -⟩ := ih h
          cases hconstant
        | some type =>
          rw [summarizeIndices] at h ⊢
          rw [gepStrides]
          obtain ⟨hconstant, segments, hlen, hsegments, hoffset⟩ := ih h
          refine ⟨hconstant, ⟨.arrayIndex, value, value⟩ :: segments, ?_, ?_, ?_⟩
          · rw [length_cons, length_cons, hlen]
          · rw [hsegments, append_assoc, singleton_append]
          · rw [hoffset, displacement_cons, ← Int64.add_assoc]
            rfl

theorem summarizeChain_spec {total : GepSummary} {geps : List Gep}
    (h : (summarizeChain layout total geps).constantOffset = true) :
    total.constantOffset = true ∧
    ∃ segments, segments.length = (chainStrides layout geps).length ∧
      (summarizeChain layout total geps).segments = total.segments ++ segments ∧
      (summarizeChain layout total geps).offset =
        total.offset + displacement segments (chainStrides layout geps) := by
  induction geps generalizing total with
  | nil => exact ⟨h, [], by simp [chainStrides, summarizeChain]⟩
  | cons gep geps ih =>
    rw [summarizeChain] at h ⊢
    obtain ⟨hboth, segments, hlen, hsegments, hoffset⟩ := ih h
    obtain ⟨htotal, hgep⟩ := Bool.and_eq_true_iff.mp hboth
    obtain ⟨-, first, hfirst, hgepSegments, hgepOffset⟩ := summarizeIndices_spec hgep
    refine ⟨htotal, first ++ segments, ?_, ?_, ?_⟩
    · rw [chainStrides_cons, length_append, length_append, hfirst, hlen]
    · rw [hsegments, summarizeGep, hgepSegments, nil_append, append_assoc]
    · rw [hoffset, if_pos hgep, summarizeGep, hgepOffset, chainStrides_cons,
        displacement_append hfirst, Int64.zero_add, ← Int64.add_assoc]

/-- The access path of a pointer, and the strides its types give to that path. -/
def accessPathOf (layout : DataLayout) (pointer : Value) : List AccessPathSegment :=
  (summarizeChain layout {} (gepChain pointer).1.reverse).segments

def stridesOf (layout : DataLayout) (pointer : Value) : List Int64 :=
  chainStrides layout (gepChain pointer).1.reverse

end Strides

section Locations

variable {sha256 : String → String} {module : IrModule} {pointer p q : Value}
  {size : Option UInt64} {location lp lq : MemoryLocation}

/-- A known offset is the one the walk over the chain ends with. -/
theorem locationFor_known (h : locationFor sha256 module pointer size = .ok location)
    {offset : Int64} {bytes : UInt64} (hknown : location.byteRange = .known offset bytes) :
    (summarizeChain module.layout {} (gepChain pointer).1.reverse).constantOffset = true ∧
      offset = (summarizeChain module.layout {} (gepChain pointer).1.reverse).offset := by
  simp only [locationFor] at h
  rw [guard_eq_ok, guard_eq_ok, bind_eq_ok] at h
  obtain ⟨-, -, baseId, -, h⟩ := h
  rw [← pure_eq_ok.mp h] at hknown
  cases size with
  | none => cases hknown
  | some size =>
    by_cases hconstant :
        (summarizeChain module.layout {} (gepChain pointer).1.reverse).constantOffset = true
    · simp only [hconstant, if_true] at hknown
      exact ⟨hconstant, (ByteRange.known.inj hknown).1.symm⟩
    · simp only [hconstant] at hknown
      cases hknown

theorem locationFor_ok (h : locationFor sha256 module pointer size = .ok location) :
    (∃ objectId, location.id = makeStableId sha256 .memoryRef
      (locationBytes objectId (accessPathOf module.layout pointer))) ∧
    ∀ offset bytes, location.byteRange = .known offset bytes →
      (accessPathOf module.layout pointer).length = (stridesOf module.layout pointer).length ∧
      offset = displacement (accessPathOf module.layout pointer)
        (stridesOf module.layout pointer) := by
  refine ⟨?_, fun offset bytes hrange => ?_⟩
  · simp only [locationFor] at h
    rw [guard_eq_ok, guard_eq_ok, bind_eq_ok] at h
    obtain ⟨-, -, baseId, -, h⟩ := h
    exact ⟨_, by rw [← pure_eq_ok.mp h]; rfl⟩
  · obtain ⟨hconstant, rfl⟩ := locationFor_known h hrange
    obtain ⟨-, segments, hlen, hsegments, hoffset⟩ := summarizeChain_spec hconstant
    rw [accessPathOf, stridesOf, hsegments, nil_append, hoffset, Int64.zero_add]
    exact ⟨hlen, rfl⟩

/-- The shared indices, weighted by the difference of the strides that the types of the two pointers
give them, add up to nothing. -/
def StridesAgree (layout : DataLayout) (p q : Value) : Prop :=
  displacement (accessPathOf layout p)
    (List.zipWith (· - ·) (stridesOf layout p) (stridesOf layout q)) = 0

/-- Sizes in whole bytes, without padding. -/
def packedSize : IrType → ℕ
  | .integer bits => bits / 8
  | .floating _ => 4
  | .array count element => count * packedSize element
  | .vector _ count element => count * packedSize element
  | _ => 8

/-- A module with one global, whose values are numbered. -/
def globalModule : IrModule where
  layout := ⟨packedSize, fun _ _ field => 8 * field⟩
  users _ := []
  stripPointerCasts := id
  idFor value := pure ⟨.valueRef, value.number.repr⟩
  ownerFunctionOf _ := none
  nameOf _ := ""

def intoGlobal (number : ℕ) (type : IrType) (index : Int64) : Value :=
  .gep number type [some index] (.globalVariable 0 (.array 32 (.integer 8)))

end Locations

end Veritas.Analysis

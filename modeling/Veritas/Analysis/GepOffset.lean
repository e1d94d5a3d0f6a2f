import Mathlib
import Veritas.Analysis.LocationOffset

/-! When a known byte offset is the displacement that the `gep`s mean. -/
namespace Veritas.Analysis

open List

/-- What one index moves: so many times a size. The walk counts a size of its own. -/
structure GepStep where
  factor : ℤ
  size : ℕ
  walked : ℕ

def GepStep.bytes (step : GepStep) : ℤ := step.factor * step.size

def GepStep.counted (step : GepStep) : ℤ := step.factor * step.walked

/-- What the walk leaves out: it takes a stride over a vector for one over its element. -/
def GepStep.excess (step : GepStep) : ℤ := step.factor * (step.size - step.walked)

/-- The indices into an object: a field by its offset, an array by its elements, and at last a vector
by its elements. -/
inductive StepsInto (layout : DataLayout) : IrType → List (Option Int64) → List GepStep → Prop
  | done {type : IrType} : StepsInto layout type [] []
  | field {packed : Bool} {elements : List IrType} {value : Int64} {next : IrType}
      {indices : List (Option Int64)} {steps : List GepStep}
      (hnext : elements[fieldNumber value]? = some next) (h : StepsInto layout next indices steps) :
      StepsInto layout (.struct packed elements) (some value :: indices)
        (⟨1, layout.elementOffset packed elements (fieldNumber value),
          layout.elementOffset packed elements (fieldNumber value)⟩ :: steps)
  | element {count : ℕ} {type : IrType} {value : Int64} {indices : List (Option Int64)}
      {steps : List GepStep} (h : StepsInto layout type indices steps) :
      StepsInto layout (.array count type) (some value :: indices)
        (⟨value.toInt, layout.allocSize type, layout.allocSize (strideType type)⟩ :: steps)
  | lane {scalable : Bool} {count : ℕ} {type : IrType} {value : Int64} :
      StepsInto layout (.vector scalable count type) [some value]
        [⟨value.toInt, layout.allocSize type, layout.allocSize type⟩]

/-- The first index strides over the source element type as if over an array of it. -/
def ChainSteps (layout : DataLayout) (geps : List Gep) (chain : List (List GepStep)) : Prop :=
  List.Forall₂ (fun gep => StepsInto layout (.array 0 gep.sourceElementType) gep.indices) geps chain

def chainSum (value : GepStep → ℤ) (chain : List (List GepStep)) : ℤ := (chain.flatten.map value).sum

abbrev FitsInt64 (n : ℤ) : Prop := -2 ^ 63 ≤ n ∧ n < 2 ^ 63

/-- The sizes, the products, the sums within each `gep` and those along the chain fit. -/
def NoOverflow (chain : List (List GepStep)) : Prop :=
  (∀ step ∈ chain.flatten, FitsInt64 step.walked ∧ FitsInt64 step.counted) ∧
    (∀ steps ∈ chain, ∀ n ≤ steps.length, FitsInt64 (chainSum GepStep.counted [steps.take n])) ∧
    ∀ n ≤ chain.length, FitsInt64 (chainSum GepStep.counted (chain.take n))

theorem chainSum_bytes (chain : List (List GepStep)) : chainSum GepStep.bytes chain =
      chainSum GepStep.counted chain + chainSum GepStep.excess chain := by
  have hstep : GepStep.bytes = fun step => step.counted + step.excess := by
    funext step
    rw [GepStep.bytes, GepStep.counted, GepStep.excess, Int.mul_sub]
    omega
  rw [chainSum, hstep, sum_map_add]
  rfl

variable {layout : DataLayout} {chain : List (List GepStep)}

/-- The walk counts the steps into an object, up to wrapping. -/
theorem summarizeIndices_steps {type : IrType} {indices : List (Option Int64)}
    {steps : List GepStep} (h : StepsInto layout type indices steps) {summary : GepSummary}
    {cursor : Cursor} (hcursor : cursor = .ofField type ∨ cursor = .ofStep (some type)) :
    (summarizeIndices layout summary cursor indices).constantOffset = summary.constantOffset ∧
      (summarizeIndices layout summary cursor indices).offset =
        summary.offset + Int64.ofInt (steps.map GepStep.counted).sum := by
  induction h generalizing summary cursor with
  | done => simp [summarizeIndices]
  | @field packed elements value next indices steps hnext _ ih =>
    obtain rfl : cursor = .inStruct packed elements := by rcases hcursor with rfl | rfl <;> rfl
    simp only [summarizeIndices, hnext]
    obtain ⟨hconstant, hoffset⟩ := ih (.inl rfl)
    refine ⟨hconstant, ?_⟩
    rw [hoffset, map_cons, sum_cons, Int64.ofInt_add, ← Int64.add_assoc]
    simp [GepStep.counted, Int64.ofInt_eq_ofNat]
  | @element count type value indices steps _ ih =>
    obtain rfl : cursor = .flat (some type) := by rcases hcursor with rfl | rfl <;> rfl
    rw [summarizeIndices]
    obtain ⟨hconstant, hoffset⟩ := ih (.inr rfl)
    refine ⟨hconstant, ?_⟩
    rw [hoffset, map_cons, sum_cons, Int64.ofInt_add, ← Int64.add_assoc, GepStep.counted,
      Int64.ofInt_mul, Int64.ofInt_toInt, Int64.ofInt_eq_ofNat]
  | @lane scalable count type value =>
    obtain rfl : cursor = .flat (some (.vector scalable count type)) := by
      rcases hcursor with rfl | rfl <;> rfl
    refine ⟨rfl, ?_⟩
    rw [map_singleton, sum_singleton, GepStep.counted, Int64.ofInt_mul, Int64.ofInt_toInt,
      Int64.ofInt_eq_ofNat]
    rfl

theorem summarizeChain_steps {total : GepSummary} {geps : List Gep}
    (h : ChainSteps layout geps chain) : (summarizeChain layout total geps).offset =
      total.offset + Int64.ofInt (chainSum GepStep.counted chain) := by
  induction h generalizing total with
  | nil => simp [summarizeChain, chainSum]
  | @cons gep steps geps chain hsteps _ ih =>
    obtain ⟨hconstant, hoffset⟩ := @summarizeIndices_steps _ _ _ _ hsteps {} _ (.inl rfl)
    have hgep : (summarizeGep layout gep).constantOffset = true := hconstant
    have hbytes : (summarizeGep layout gep).offset =
        Int64.ofInt (steps.map GepStep.counted).sum := hoffset.trans (Int64.zero_add _)
    rw [summarizeChain, ih]
    simp only [hgep, if_true, hbytes, chainSum, flatten_cons, map_append, sum_append,
      Int64.ofInt_add, Int64.add_assoc]

/-- For valid constant indices the known offset is the displacement, and no arithmetic overflows,
exactly when the strides over whole vectors leave nothing out and no arithmetic overflows. -/
theorem known_offset_exact_iff {sha256 : String → String} {module : IrModule} {pointer : Value}
    {size : Option UInt64} {location : MemoryLocation} {offset : Int64} {bytes : UInt64}
    (h : locationFor sha256 module pointer size = .ok location)
    (hknown : location.byteRange = .known offset bytes)
    (hvalid : ChainSteps module.layout (gepChain pointer).1.reverse chain) :
    (offset.toInt = chainSum GepStep.bytes chain ∧ NoOverflow chain) ↔
      chainSum GepStep.excess chain = 0 ∧ NoOverflow chain := by
  obtain ⟨-, rfl⟩ := locationFor_known h hknown
  refine and_congr_left fun hfits => ?_
  obtain ⟨hlower, hupper⟩ := take_length ▸ hfits.2.2 chain.length le_rfl
  rw [summarizeChain_steps hvalid, Int64.zero_add, Int64.toInt_ofInt_of_le hlower hupper,
    chainSum_bytes]
  omega

/-- The third word of the second array of eight. -/
def intoArray : Value :=
  .gep 1 (.array 8 (.integer 32)) [some 1, some 2] (.globalVariable 0 (.array 64 (.integer 8)))

theorem intoArray_offset :
    (∃ location, locationFor id globalModule intoArray (some 4) = .ok location ∧
      location.byteRange = .known 40 4) ∧
    ChainSteps globalModule.layout (gepChain intoArray).1.reverse [[⟨1, 32, 32⟩, ⟨2, 4, 4⟩]] ∧
    (40 : Int64).toInt = chainSum GepStep.bytes [[⟨1, 32, 32⟩, ⟨2, 4, 4⟩]] := by
  obtain ⟨location, h, hknown⟩ : ∃ location, locationFor id globalModule intoArray (some 4) =
    .ok location ∧ location.byteRange = .known 40 4 := ⟨_, rfl, rfl⟩
  have hvalid : ChainSteps globalModule.layout (gepChain intoArray).1.reverse
    [[⟨1, 32, 32⟩, ⟨2, 4, 4⟩]] := .cons (.element (.element .done)) .nil
  refine ⟨⟨location, h, hknown⟩, hvalid, ?_⟩
  exact ((known_offset_exact_iff h hknown hvalid).mpr
    ⟨by decide, by decide, by decide, by decide⟩).1

/-- The second of two vectors of four words starts 16 bytes further on, not four. -/
theorem vector_stride_short :
    (∃ location, locationFor id globalModule (intoGlobal 1 (.vector false 4 (.integer 32)) 1)
      (some 4) = .ok location ∧ location.byteRange = .known 4 4) ∧
    ChainSteps globalModule.layout
      (gepChain (intoGlobal 1 (.vector false 4 (.integer 32)) 1)).1.reverse [[⟨1, 16, 4⟩]] ∧
    (4 : Int64).toInt ≠ chainSum GepStep.bytes [[⟨1, 16, 4⟩]] :=
  ⟨⟨_, rfl, rfl⟩, .cons (.element .done) .nil, by decide⟩

end Veritas.Analysis

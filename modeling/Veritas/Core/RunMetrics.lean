import Mathlib.Data.List.Infix

/-! The memory series of a run, thinned to half its resolution each time it overflows. -/
namespace Veritas

open List

structure MemorySample where
  t : Int64
  rssBytes : UInt64
  footprintBytes : UInt64
  deriving DecidableEq

structure SeriesBuffer where
  capacity : Nat
  decimation : UInt64 := 1
  samples : List MemorySample := []

/-- The loop over the even indices. -/
def everyOther {α : Type*} : List α → List α
  | [] => []
  | [a] => [a]
  | a :: _ :: l => a :: everyOther l

/-- The factor after one more overflow: doubled, saturating instead of wrapping. -/
def nextDecimation (decimation : UInt64) : UInt64 :=
  if decimation > 0xffffffffffffffff / 2 then 0xffffffffffffffff else decimation * 2

def SeriesBuffer.append (b : SeriesBuffer) (sample : MemorySample) : SeriesBuffer :=
  let samples := b.samples ++ [sample]
  if samples.length ≤ b.capacity then { b with samples }
  else
    let kept := everyOther samples
    { b with
      -- the newest sample replaces the last kept one if the stride stepped over it
      samples := if (samples.length - 1) % 2 ≠ 0 then kept.dropLast ++ [sample] else kept
      decimation := nextDecimation b.decimation }

def SeriesBuffer.appendAll (capacity : Nat) (l : List MemorySample) : SeriesBuffer :=
  l.foldl append { capacity }

theorem nextDecimation_ge {d : UInt64} (h : d ≠ 0) :
    d ≤ nextDecimation d ∧ nextDecimation d ≠ 0 := by
  have hpos : d.toNat ≠ 0 := fun h0 => h (UInt64.toNat_inj.mp h0)
  have hlt := d.toNat_lt
  have hhalf : (0xffffffffffffffff / 2 : UInt64).toNat = 0x7fffffffffffffff := rfl
  simp only [nextDecimation, gt_iff_lt, UInt64.le_iff_toNat_le, UInt64.lt_iff_toNat_lt,
    ne_eq, ← UInt64.toNat_inj]
  split <;> simp <;> omega

section Thinning

variable {α : Type*}

theorem everyOther_sublist (l : List α) : everyOther l <+ l := by
  fun_induction everyOther l with
  | case1 => exact .slnil
  | case2 a => exact .refl _
  | case3 a b l ih => exact (ih.cons b).cons_cons a

theorem head?_everyOther (l : List α) : (everyOther l).head? = l.head? := by
  fun_cases everyOther l <;> rfl

theorem length_everyOther (l : List α) : (everyOther l).length = (l.length + 1) / 2 := by
  fun_induction everyOther l with
  | case1 => simp
  | case2 a => simp
  | case3 a b l ih => simp only [length_cons, ih]; omega

theorem everyOther_concat (l : List α) (a : α) :
    everyOther (l ++ [a]) = everyOther l ++ if l.length % 2 = 0 then [a] else [] := by
  fun_induction everyOther l with
  | case1 => rfl
  | case2 b => rfl
  | case3 b c l ih => simp [everyOther, ih, Nat.add_assoc]

end Thinning

namespace SeriesBuffer

/-- What the buffer holds of the samples appended so far. -/
structure Covers (b : SeriesBuffer) (l : List MemorySample) : Prop where
  bounded : b.samples.length ≤ b.capacity
  inOrder : b.samples <+ l
  first : b.samples.head? = l.head?
  last : b.samples.getLast? = l.getLast?
  factor : b.decimation ≠ 0

variable {b : SeriesBuffer} {l : List MemorySample} {s : MemorySample} {capacity : Nat}

theorem append_capacity : (b.append s).capacity = b.capacity := by
  simp only [append]
  split <;> rfl

theorem append_decimation (h : b.decimation ≠ 0) :
    b.decimation ≤ (b.append s).decimation ∧ (b.append s).decimation ≠ 0 := by
  simp only [append]
  split
  · exact ⟨UInt64.le_refl _, h⟩
  · exact nextDecimation_ge h

/-- An overflow keeps some of the older samples, the first of them included, and the new one. -/
theorem append_samples (h : 2 ≤ b.capacity) (hb : b.samples.length ≤ b.capacity) :
    ∃ k, (b.append s).samples = k ++ [s] ∧ k.length < b.capacity ∧ k <+ b.samples ∧
      k.head? = b.samples.head? := by
  have hlen := length_everyOther b.samples
  simp only [append, length_append, length_singleton, Nat.add_sub_cancel]
  split
  · exact ⟨_, rfl, by omega, .refl _, rfl⟩
  · by_cases hpar : b.samples.length % 2 = 0
    · refine ⟨everyOther b.samples, ?_, by omega, everyOther_sublist _, head?_everyOther _⟩
      simp [hpar, everyOther_concat]
    · refine ⟨(everyOther b.samples).dropLast, by simp [hpar, everyOther_concat], ?_, ?_, ?_⟩
      · rw [length_dropLast]
        omega
      · exact (dropLast_sublist _).trans (everyOther_sublist _)
      · rw [head?_dropLast, if_pos (by omega), head?_everyOther]

theorem Covers.append (hb : Covers b l) (h : 2 ≤ b.capacity) :
    Covers (b.append s) (l ++ [s]) := by
  obtain ⟨k, hs, hlen, hsub, hfirst⟩ := append_samples (s := s) h hb.bounded
  refine ⟨?_, ?_, ?_, ?_, (append_decimation hb.factor).2⟩
  · rw [hs, append_capacity, length_append]
    exact hlen
  · rw [hs]
    exact (hsub.trans hb.inOrder).append (.refl _)
  · rw [hs, head?_append, head?_append, hfirst, hb.first]
  · rw [hs, getLast?_concat, getLast?_concat]

theorem appendAll_concat : appendAll capacity (l ++ [s]) = (appendAll capacity l).append s := by
  simp [appendAll]

theorem appendAll_capacity : (appendAll capacity l).capacity = capacity := by
  induction l using List.reverseRecOn with
  | nil => rfl
  | append_singleton l s ih => rw [appendAll_concat, append_capacity, ih]

theorem appendAll_covers (h : 2 ≤ capacity) (l : List MemorySample) :
    Covers (appendAll capacity l) l := by
  induction l using List.reverseRecOn with
  | nil => exact ⟨Nat.zero_le _, .slnil, rfl, rfl, (by decide : (1 : UInt64) ≠ 0)⟩
  | append_singleton l s ih =>
    rw [appendAll_concat]
    exact ih.append (appendAll_capacity.symm ▸ h)

theorem appendAll_decimation (h : 2 ≤ capacity) (m : List MemorySample) :
    (appendAll capacity l).decimation ≤ (appendAll capacity (l ++ m)).decimation := by
  induction m using List.reverseRecOn with
  | nil => simp
  | append_singleton m s ih =>
    rw [← append_assoc, appendAll_concat]
    exact UInt64.le_trans ih (append_decimation (appendAll_covers h _).factor).1

/-- Thinning keeps both ends of the series, its order and its bound, and the factor never falls. -/
theorem series_keeps_ends (h : 2 ≤ capacity) (l : List MemorySample) :
    (appendAll capacity l).samples.length ≤ capacity ∧ (appendAll capacity l).samples <+ l ∧
      (appendAll capacity l).samples.head? = l.head? ∧
      (appendAll capacity l).samples.getLast? = l.getLast? ∧
      (appendAll capacity l).decimation ≠ 0 ∧
      ∀ p, p <+: l → (appendAll capacity p).decimation ≤ (appendAll capacity l).decimation := by
  have hcov := appendAll_covers h l
  have hbound := hcov.bounded
  rw [appendAll_capacity] at hbound
  refine ⟨hbound, hcov.inOrder, hcov.first, hcov.last, hcov.factor, ?_⟩
  rintro p ⟨m, rfl⟩
  exact appendAll_decimation h m

theorem series_keeps_ends_five :
    let l := [1, 2, 3, 4, 5].map fun t => (⟨t, 0, 0⟩ : MemorySample)
    (appendAll 2 l).samples = [⟨1, 0, 0⟩, ⟨5, 0, 0⟩] ∧ (appendAll 2 l).samples <+ l :=
  ⟨by decide +kernel, (series_keeps_ends (by decide) _).2.1⟩

end SeriesBuffer

end Veritas

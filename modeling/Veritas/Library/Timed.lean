import Mathlib.Data.Nat.Basic
import Mathlib.Order.Basic

/-! Computations that take time and look at a world that changes meanwhile. -/

/-- Started at an instant, it fails or finishes with a value at that instant or later. -/
def Timed (ε α : Type) := (t : ℕ) → Except ε (α × {t' : ℕ // t ≤ t'})

namespace Timed

variable {ε α β : Type} {t t' : ℕ}

instance : Monad (Timed ε) where
  pure a := fun t => .ok (a, ⟨t, le_rfl⟩)
  bind x f := fun t =>
    match x t with
    | .error e => .error e
    | .ok (a, mid) =>
      match f a mid with
      | .error e => .error e
      | .ok (b, last) => .ok (b, ⟨last, mid.2.trans last.2⟩)

def throw (e : ε) : Timed ε α := fun _ => .error e

/-- A result that takes no time. -/
def lift : Except ε α → Timed ε α
  | .error e => throw e
  | .ok a => pure a

def require (p : Prop) [Decidable p] (e : ε) : Timed ε Unit := if p then pure () else throw e

def mapError (g : ε → ε) (x : Timed ε α) : Timed ε α := fun t =>
  match x t with
  | .error e => .error (g e)
  | .ok r => .ok r

/-- The computation started at `t` finishes at `t'` with the value. -/
def Runs (x : Timed ε α) (t : ℕ) (a : α) (t' : ℕ) : Prop := ∃ h, x t = .ok (a, ⟨t', h⟩)

variable {a : α} {x : Timed ε α} {e : ε} {b : β} {p : Prop}

theorem Runs.le (h : Runs x t a t') : t ≤ t' := h.1

@[simp] theorem runs_pure {b : α} : Runs (pure a : Timed ε α) t b t' ↔ a = b ∧ t = t' := by
  simp only [Runs, pure, Except.ok.injEq, Prod.mk.injEq, Subtype.mk.injEq]
  exact ⟨fun ⟨_, h⟩ => h, fun h => ⟨h.2.le, h⟩⟩

@[simp] theorem not_runs_throw : ¬ Runs (throw e) t a t' := nofun

theorem runs_bind {f : α → Timed ε β} :
    Runs (x >>= f) t b t' ↔ ∃ a mid, Runs x t a mid ∧ Runs (f a) mid b t' := by
  constructor
  · rintro ⟨hle, h⟩
    simp only [bind] at h
    split at h
    · exact absurd h nofun
    · rename_i a mid hx
      split at h
      · exact absurd h nofun
      · rename_i b' last hf
        obtain ⟨rfl, hlast⟩ := Prod.mk.inj (Except.ok.inj h)
        obtain rfl : last.1 = t' := Subtype.mk.inj hlast
        exact ⟨a, mid, ⟨mid.2, hx⟩, last.2, hf⟩
  · rintro ⟨a, mid, ⟨hmid, hx⟩, hlast, hf⟩
    refine ⟨hmid.trans hlast, ?_⟩
    simp only [bind, hx]
    rw [hf]

@[simp] theorem runs_lift {x : Except ε α} : Runs (lift x) t a t' ↔ x = .ok a ∧ t = t' := by
  cases x with
  | error e => simp [lift]
  | ok b => simp [lift]

@[simp] theorem runs_require [Decidable p] : Runs (require p e) t () t' ↔ p ∧ t = t' := by
  by_cases h : p <;> simp [require, h]

theorem runs_require_bind [Decidable p] {f : Unit → Timed ε β} :
    Runs (require p e >>= f) t b t' ↔ p ∧ Runs (f ()) t b t' := by
  rw [runs_bind]
  constructor
  · rintro ⟨_, mid, hrequire, h⟩
    obtain ⟨hp, rfl⟩ := runs_require.mp hrequire
    exact ⟨hp, h⟩
  · rintro ⟨hp, h⟩
    exact ⟨(), t, runs_require.mpr ⟨hp, rfl⟩, h⟩

@[simp] theorem runs_mapError {g : ε → ε} : Runs (mapError g x) t a t' ↔ Runs x t a t' := by
  refine exists_congr fun _ => ?_
  simp only [mapError]
  split <;> simp_all

/-- What a loop over a list keeps, when each round keeps it within the loop's time. -/
theorem Runs.foldlM {f : β → α → Timed ε β} {l : List α} {b' : β} (h : Runs (l.foldlM f b) t b' t')
    (P : List α → β → Prop) (hb : P [] b)
    (hstep : ∀ seen a b b' u u', P seen b → a ∈ l → t ≤ u → u' ≤ t' → Runs (f b a) u b' u' →
      P (seen ++ [a]) b') : P l b' := by
  suffices ∀ (seen rest : List α) (b : β) (u : ℕ), seen ++ rest = l → t ≤ u → P seen b →
      Runs (rest.foldlM f b) u b' t' → P l b' from this [] l b t rfl le_rfl hb h
  intro seen rest
  induction rest generalizing seen with
  | nil =>
    intro b u hl _ hP hrun
    obtain ⟨rfl, -⟩ := runs_pure.mp hrun
    rwa [← hl, List.append_nil]
  | cons a rest ih =>
    intro b u hl hu hP hrun
    obtain ⟨mid, v, hstart, hrest⟩ := runs_bind.mp hrun
    refine ih (seen ++ [a]) mid v (by simp [← hl]) (hu.trans hstart.le) ?_ hrest
    exact hstep seen a b mid u v hP (by simp [← hl]) hu hrest.le hstart

end Timed

/-- A world at each instant, and how long the observer takes after each look. -/
structure Timeline (W : Type) where
  world : ℕ → W
  delay : ℕ → ℕ

namespace Timeline

variable {W α ε : Type}

/-- One look at the world, in no time; the next step comes later. -/
def look (T : Timeline W) (f : W → α) : Timed ε α := fun t =>
  .ok (f (T.world t), ⟨t + 1 + T.delay t, Nat.le_add_right_of_le (Nat.le_succ t)⟩)

theorem runs_look {T : Timeline W} {f : W → α} {a : α} {t t' : ℕ}
    (h : Timed.Runs (T.look f : Timed ε α) t a t') : a = f (T.world t) ∧ t ≤ t' := by
  obtain ⟨hle, h⟩ := h
  exact ⟨(Prod.mk.inj (Except.ok.inj h)).1.symm, hle⟩

/-- A feature that is the same at two instants of the period was the same between them. -/
def NotRestored (T : Timeline W) (f : W → α) (first last : ℕ) : Prop :=
  ∀ u v w, first ≤ u → u ≤ v → v ≤ w → w ≤ last → f (T.world u) = f (T.world w) →
    f (T.world v) = f (T.world u)

end Timeline

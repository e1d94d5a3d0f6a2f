import Mathlib.Data.List.Infix
import Mathlib.Data.Set.Subsingleton

/-! The map between functions and their stable identity, over every sequence of its calls. -/
namespace Veritas.Analysis

open Function Set

/-- The entries that `GetSymbolId`, `GetFunction` and `GetSymbolIdByLlvmName` return, and the names
that are left unresolved. -/
structure OriginMap (F : Type) where
  funcToSymbol : F → Option String := fun _ => none
  symbolToFunc : String → Option F := fun _ => none
  nameToSymbol : String → Option String := fun _ => none
  ambiguousNames : String → Bool := fun _ => false

namespace OriginMap

/-- The entry of a name and whether it is ambiguous, once a function is recorded under it. -/
def recordName (symbolId : String) : Option String → Bool → Option String × Bool
  | entry, true => (entry, true)
  | none, false => (some symbolId, false)
  | some known, false => if known = symbolId then (some known, false) else (none, true)

variable {F : Type} [DecidableEq F] (name : F → String)

def recordOrigin (m : OriginMap F) (func : F) (symbolId : String) : OriginMap F :=
  let llvmName := name func
  let held := recordName symbolId (m.nameToSymbol llvmName) (m.ambiguousNames llvmName)
  { funcToSymbol := update m.funcToSymbol func (some symbolId)
    symbolToFunc := update m.symbolToFunc symbolId (some func)
    nameToSymbol := update m.nameToSymbol llvmName held.1
    ambiguousNames := update m.ambiguousNames llvmName held.2 }

def removeFunction (m : OriginMap F) (func : F) : OriginMap F :=
  match m.funcToSymbol func with
  | none => m
  | some symbolId => { m with
    nameToSymbol := update m.nameToSymbol (name func)
      ((m.nameToSymbol (name func)).filter (· ≠ symbolId))
    symbolToFunc := update m.symbolToFunc symbolId none
    funcToSymbol := update m.funcToSymbol func none }

inductive Call (F : Type)
  | recordOrigin (func : F) (symbolId : String)
  | removeFunction (func : F)
  | clear

def call (m : OriginMap F) : Call F → OriginMap F
  | .recordOrigin func symbolId => m.recordOrigin name func symbolId
  | .removeFunction func => m.removeFunction name func
  | .clear => {}

def run (calls : List (Call F)) : OriginMap F := calls.foldl (call name) {}

/-- The symbol ids of the functions recorded under a name. -/
def symbols (recorded : F → Option String) (n : String) : Set String :=
  {s | ∃ f, name f = n ∧ recorded f = some s}

/-- The symbol ids of the other functions of its name. -/
def others (recorded : F → Option String) (f : F) : Set String :=
  {s | ∃ g ≠ f, name g = name f ∧ recorded g = some s}

structure Consistent (m : OriginMap F) : Prop where
  inverse : ∀ s f, m.symbolToFunc s = some f → m.funcToSymbol f = some s
  names : ∀ n s, m.nameToSymbol n = some s ↔ symbols name m.funcToSymbol n = {s}

/-- A function changes its symbol id only while its name stays ambiguous and the old id leads to
another function, and it is removed only when no single id is left under its name. -/
def Keeps (m : OriginMap F) : Call F → Prop
  | .recordOrigin f s => ∀ t, m.funcToSymbol f = some t → t ≠ s →
      m.symbolToFunc t ≠ some f ∧ ¬ others name m.funcToSymbol f ⊆ {s}
  | .removeFunction f => (m.funcToSymbol f).isSome → ∀ t, others name m.funcToSymbol f ≠ {t}
  | .clear => True

/-- What is held of a name whose functions have these symbol ids. -/
inductive Held (S : Set String) : Option String → Bool → Prop
  | empty : S = ∅ → Held S none false
  | one {s : String} : S = {s} → Held S (some s) false
  | many : S.Nontrivial → Held S none true

structure Tracked (m : OriginMap F) : Prop where
  inverse : ∀ s f, m.symbolToFunc s = some f → m.funcToSymbol f = some s
  held : ∀ n, Held (symbols name m.funcToSymbol n) (m.nameToSymbol n) (m.ambiguousNames n)

section Held

variable {S O : Set String} {e : Option String} {a : Bool} {s t : String}

theorem Held.entry (h : Held S e a) : e = some s ↔ S = {s} := by
  cases h with
  | empty h => simp [h, (singleton_ne_empty s).symm]
  | one h => simp [h]
  | many h => simp [h.ne_singleton]

theorem Held.record (h : Held S e a) (hO : O ⊆ S) (hS : O ⊆ {s} → S ⊆ {s}) :
    Held (O ∪ {s}) (recordName s e a).1 (recordName s e a).2 := by
  have hmany : ¬ O ⊆ {s} → (O ∪ {s}).Nontrivial := fun h => by
    rwa [← not_subsingleton_iff, subsingleton_iff_singleton (.inr rfl), union_eq_right]
  cases h with
  | empty h => exact .one (union_eq_right.mpr (hO.trans (h ▸ empty_subset _)))
  | @one known h =>
    by_cases hk : known = s
    · subst hk
      simp only [recordName, if_true]
      exact .one (union_eq_right.mpr (h ▸ hO))
    · simp only [recordName, if_neg hk]
      exact .many (hmany fun hsub => hk (hS hsub (h ▸ rfl)))
  | many h => exact .many (hmany fun hsub => h.not_subset_singleton (hS hsub))

/-- A name that has another symbol id is not resolved to a new one. -/
theorem Held.record_none (h : Held S e a) (ht : t ∈ S) (hts : t ≠ s) :
    (recordName s e a).1 = none := by
  cases h with
  | empty h => exact absurd (h ▸ ht) (notMem_empty t)
  | one h =>
    obtain rfl : t = _ := h ▸ ht
    simp [recordName, hts]
  | many h => rfl

theorem Held.remove_none (h : Held S e a) (hs : s ∈ S) : e.filter (· ≠ s) = none := by
  cases h with
  | empty h => rfl
  | one h =>
    obtain rfl : s = _ := h ▸ hs
    simp
  | many h => rfl

theorem Held.remove (h : Held (O ∪ {s}) e a) (hO : ∀ t, O ≠ {t}) : Held O none a := by
  have hempty : O.Subsingleton → O = ∅ := fun hsub =>
    hsub.eq_empty_or_singleton.resolve_right fun ⟨t, ht⟩ => hO t ht
  cases h with
  | empty h => exact .empty (union_empty_iff.mp h).1
  | one h => exact .empty (hempty ((h ▸ subsingleton_singleton).anti subset_union_left))
  | many h =>
    refine .many (not_subsingleton_iff.mp fun hsub => ?_)
    rw [hempty hsub, empty_union] at h
    exact h.ne_singleton rfl

end Held

variable {name} {m : OriginMap F} {f : F} {s t n : String} {recorded : F → Option String}
  {x : Option String}

theorem symbols_update_of_ne (h : n ≠ name f) :
    symbols name (update recorded f x) n = symbols name recorded n := by
  ext u
  refine exists_congr fun g => and_congr_right fun hg => ?_
  rw [update_of_ne]
  rintro rfl
  exact h hg.symm

theorem symbols_update_self : symbols name (update recorded f x) (name f) =
    others name recorded f ∪ {s | x = some s} := by
  ext u
  constructor
  · rintro ⟨g, hg, hu⟩
    by_cases hgf : g = f
    · exact .inr (by simpa [hgf] using hu)
    · exact .inl ⟨g, hgf, hg, by simpa [hgf] using hu⟩
  · rintro (⟨g, hgf, hg, hu⟩ | hu)
    · exact ⟨g, hg, by simpa [hgf] using hu⟩
    · exact ⟨f, rfl, by simpa using hu⟩

theorem some_eq : {t | some s = some t} = {s} := by
  ext t
  simp [eq_comm]

theorem symbols_self : symbols name recorded (name f) =
    others name recorded f ∪ {s | recorded f = some s} := by
  rw [← symbols_update_self, update_eq_self]

theorem Tracked.recordOrigin (h : Tracked name m) (hk : Keeps name m (.recordOrigin f s)) :
    Tracked name (m.recordOrigin name f s) where
  inverse t g hg := by
    simp only [OriginMap.recordOrigin, update_apply] at hg ⊢
    split at hg
    · next hts => rw [if_pos (Option.some.inj hg).symm, hts]
    · next hts =>
      have hgt := h.inverse t g hg
      rwa [if_neg]
      rintro rfl
      exact (hk t hgt hts).1 hg
  held n := by
    by_cases hn : n = name f
    · subst hn
      simp only [OriginMap.recordOrigin, update_self, symbols_update_self, some_eq]
      have hheld := h.held (name f)
      rw [symbols_self] at hheld
      refine hheld.record subset_union_left fun hsub => union_subset hsub fun t ht => ?_
      by_contra hts
      exact (hk t ht hts).2 hsub
    · simp only [OriginMap.recordOrigin, update_of_ne hn, symbols_update_of_ne hn]
      exact h.held n

theorem Tracked.removeFunction (h : Tracked name m) (hk : Keeps name m (.removeFunction f)) :
    Tracked name (m.removeFunction name f) := by
  cases hf : m.funcToSymbol f with
  | none => simpa [OriginMap.removeFunction, hf] using h
  | some s =>
    simp only [OriginMap.removeFunction, hf]
    refine ⟨fun t g hg => ?_, fun n => ?_⟩
    · have hts : t ≠ s := by
        rintro rfl
        simp at hg
      have hgt := h.inverse t g (by simpa [hts] using hg)
      refine (update_of_ne ?_ _ _).trans hgt
      rintro rfl
      exact hts (Option.some.inj (hgt.symm.trans hf))
    · by_cases hn : n = name f
      · subst hn
        have hheld := h.held (name f)
        rw [symbols_self, hf, some_eq] at hheld
        simp only [symbols_update_self, reduceCtorEq, ofPred_false, union_empty, update_self]
        rw [hheld.remove_none (.inr rfl)]
        exact hheld.remove (hk (by simp [hf]))
      · simp only [update_of_ne hn, symbols_update_of_ne hn]
        exact h.held n

theorem keeps_of_consistent {c : Call F} (h : Tracked name m)
    (hc : Consistent name (m.call name c)) : Keeps name m c := by
  cases c with
  | recordOrigin f s =>
    intro t ht hts
    refine ⟨fun hback => ?_, fun hsub => ?_⟩
    · have hinv := hc.inverse t f (by simp [call, recordOrigin, hts, hback])
      simp [call, recordOrigin] at hinv
      exact hts hinv.symm
    · have hentry := (hc.names (name f) s).mpr (by
        simp only [call, recordOrigin, symbols_update_self, some_eq, union_eq_right.mpr hsub])
      simp only [call, recordOrigin, update_self] at hentry
      rw [(h.held _).record_none ⟨f, rfl, ht⟩ hts] at hentry
      cases hentry
  | removeFunction f =>
    intro hsome t ht
    obtain ⟨s, hf⟩ := Option.isSome_iff_exists.mp hsome
    have hentry := (hc.names (name f) t).mpr (by
      simp only [call, removeFunction, hf, symbols_update_self, ht, reduceCtorEq, ofPred_false,
        union_empty])
    simp only [call, removeFunction, hf, update_self] at hentry
    rw [(h.held _).remove_none ⟨f, rfl, hf⟩] at hentry
    cases hentry
  | clear => trivial

omit [DecidableEq F] in
theorem tracked_empty : Tracked name ({} : OriginMap F) where
  inverse _ _ h := by simp at h
  held n := .empty (by simp [symbols])

theorem Tracked.call {c : Call F} (h : Tracked name m) (hk : Keeps name m c) :
    Tracked name (m.call name c) := by
  cases c with
  | recordOrigin f s => exact h.recordOrigin hk
  | removeFunction f => exact h.removeFunction hk
  | clear => exact tracked_empty

theorem tracked_run {calls p : List (Call F)} (hp : p <+: calls)
    (hk : ∀ p c, p ++ [c] <+: calls → Tracked name (run name p) → Keeps name (run name p) c) :
    Tracked name (run name p) := by
  induction p using List.reverseRecOn with
  | nil => exact tracked_empty
  | append_singleton p c ih =>
    have h := ih ((List.prefix_append ..).trans hp)
    rw [run, List.foldl_concat]
    exact h.call (hk p c hp h)

/-- The map is consistent throughout a run exactly when every call respects its condition. -/
theorem consistent_runs_iff {calls : List (Call F)} :
    (∀ p, p <+: calls → Consistent name (run name p)) ↔
      ∀ p c, p ++ [c] <+: calls → Keeps name (run name p) c := by
  constructor
  · intro hcons p c hp
    have hkeeps : ∀ p c, p ++ [c] <+: calls → Tracked name (run name p) →
        Keeps name (run name p) c := by
      intro p c hp h
      refine keeps_of_consistent h ?_
      have hstep := hcons _ hp
      rwa [run, List.foldl_concat] at hstep
    exact hkeeps p c hp (tracked_run ((List.prefix_append ..).trans hp) hkeeps)
  · intro hkeeps p hp
    have h := tracked_run hp fun p c hp _ => hkeeps p c hp
    exact ⟨h.inverse, fun n _ => (h.held n).entry⟩

/-- A function recorded anew is still found under its old symbol id, and removing one of two
functions with one name and symbol id leaves the name of the other unresolved. -/
theorem stale_after_record_and_remove :
    let again := run (fun _ : Bool => "f") [.recordOrigin true "a", .recordOrigin true "b"]
    let removed := run (fun _ : Bool => "f") [.recordOrigin true "a", .recordOrigin false "a",
      .removeFunction true]
    again.symbolToFunc "a" = some true ∧ again.funcToSymbol true = some "b" ∧
      removed.funcToSymbol false = some "a" ∧ removed.nameToSymbol "f" = none := by
  decide

end OriginMap

end Veritas.Analysis

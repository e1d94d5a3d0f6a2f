import Mathlib.Logic.Relation
import Veritas.Analysis.LocationOffset

/-! What a load reads from a slot with one store, over every execution of its function. -/
namespace Veritas.Analysis

open Function Relation
open scoped Classical

/-- An argument, a global and a function keep their value throughout an activation. -/
def Value.isInstruction : Value → Bool
  | .globalVariable .. | .argument _ | .function _ => false
  | _ => true

/-- How values are typed, and how a word stored at one type reads at another. -/
structure WordTypes (Word : Type) where
  typeOf : Value → IrType
  reread : (stored loaded : IrType) → Word → Word
  reread_self (type : IrType) (word : Word) : reread type type word = word

/-- The latest result of each value, what a slot holds, and the results as they were when the slot
was last written. -/
structure Activation (Word : Type) where
  result : Value → Word
  slot : Option (IrType × Word)
  atStore : Value → Word

section Executions

variable {Word : Type} (module : IrModule) (types : WordTypes Word) (slot : ℕ)

/-- What a load reads once the slot has been written. -/
def Activation.loaded (s : Activation Word) (load : Value) : Option Word :=
  s.slot.map fun (type, word) => types.reread type (types.typeOf load) word

/-- The next instruction, wherever control goes. Where loads and stores are all that name a slot,
its own stores are all that write it. -/
inductive SlotStep (s : Activation Word) : Activation Word → Prop
  | execute (value : Value) (word : Word) (hinstruction : value.isInstruction = true)
      (hload : ∀ number pointer, value = .load number pointer →
        (module.stripPointerCasts pointer).number = slot → ∀ w ∈ s.loaded types value, word = w) :
      SlotStep s { s with result := update s.result value word }
  | allocate (type : IrType) (address : Word) :
      SlotStep s { s with result := update s.result (.alloca slot type) address, slot := none }
  | store (pointer value : Value) (hstore : .store pointer value ∈ module.users slot) :
      SlotStep s ⟨s.result, some (types.typeOf value, s.result value), s.result⟩

variable {module types slot} {value : Value}

theorem singleStore_stores {users : List User} {stored : Option Value}
    (h : singleStore module slot users stored = some value) : (∀ first ∈ stored, first = value) ∧
      ∀ pointer other, .store pointer other ∈ users → other = value := by
  induction users generalizing stored with
  | nil =>
    rw [singleStore] at h
    simp [h]
  | cons user users ih =>
    cases user with
    | other => cases h
    | load pointer =>
      rw [singleStore] at h
      split_ifs at h
      simpa using ih h
    | store pointer other =>
      rw [singleStore] at h
      split_ifs at h with hfirst
      obtain ⟨hvalue, hrest⟩ := ih h
      obtain rfl := hvalue other rfl
      obtain rfl := Option.isNone_iff_eq_none.mp hfirst.2
      refine ⟨by simp, fun pointer' other' hmem => ?_⟩
      rcases List.mem_cons.mp hmem with heq | hmem
      · cases heq
        rfl
      · exact hrest pointer' other' hmem

variable {s : Activation Word} {results : Value → Word}
  (hrun : ReflTransGen (SlotStep module types slot) ⟨results, none, results⟩ s)

include hrun

/-- The slot holds what the value was at the last store, and what it is if it never changes. -/
theorem slot_content
    (hstores : ∀ pointer other, .store pointer other ∈ module.users slot → other = value) :
    ∀ type word, s.slot = some (type, word) → type = types.typeOf value ∧ word = s.atStore value ∧
      (value.isInstruction = false → word = s.result value) := by
  induction hrun with
  | refl => simp
  | tail _ hstep ih =>
    intro type word hslot
    cases hstep with
    | execute other result hinstruction _ =>
      obtain ⟨htype, hword, hfixed⟩ := ih type word hslot
      refine ⟨htype, hword, fun hvalue => ?_⟩
      have hne : value ≠ other := by
        rintro rfl
        simp [hvalue] at hinstruction
      exact (hfixed hvalue).trans (update_of_ne hne _ _).symm
    | allocate => cases hslot
    | store pointer other hstore =>
      obtain rfl := hstores pointer other hstore
      obtain ⟨rfl, rfl⟩ := Prod.mk.inj (Option.some.inj hslot)
      exact ⟨rfl, rfl, fun _ => rfl⟩

end Executions

/-- A slot with a load and a store of the given value. -/
def slotModule (stored : Value) : IrModule :=
  { globalModule with
    users := fun _ => [.load (.alloca 0 (.pointer 0)), .store (.alloca 0 (.pointer 0)) stored] }

def slotLoad : Value := .load 1 (.alloca 0 (.pointer 0))

def pointerWords : WordTypes ℕ := ⟨fun _ => .pointer 0, fun _ _ word => word, fun _ _ => rfl⟩

theorem slotModule_store (value : Value) : ReflTransGen (SlotStep (slotModule value) pointerWords 0)
    ⟨fun _ => 7, none, fun _ => 7⟩ ⟨fun _ => 7, some (.pointer 0, 7), fun _ => 7⟩ :=
  .single (.store (.alloca 0 (.pointer 0)) value (by simp [slotModule]))

end Veritas.Analysis

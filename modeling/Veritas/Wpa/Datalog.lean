import Veritas.Wpa.RowShape

/-! The rules.v2 Datalog bundles, read as least models over dense execution rows. -/
namespace Veritas.Datalog

/-- The `EpistemicRank` facts, over state ordinals; MUST_NOT is absent. -/
def epistemicRankFacts : List (ℕ × ℕ) := [(0, 0), (1, 1), (3, 2), (4, 3), (5, 4)]

def EpistemicRank (state : EpistemicState) (rank : ℕ) : Prop :=
  (state.ordinal, rank) ∈ epistemicRankFacts

inductive WeakenEpistemic : EpistemicState → EpistemicState → EpistemicState → Prop
  | left {l r : EpistemicState} {lr rr : ℕ} : EpistemicRank l lr → EpistemicRank r rr → lr ≥ rr →
      WeakenEpistemic l r l
  | right {l r : EpistemicState} {lr rr : ℕ} : EpistemicRank l lr → EpistemicRank r rr → rr > lr →
      WeakenEpistemic l r r

theorem epistemicRank_iff {state : EpistemicState} {rank : ℕ} :
    EpistemicRank state rank ↔ weaknessRank state = some rank := by
  cases state <;>
    simp [EpistemicRank, epistemicRankFacts, EpistemicState.ordinal, EpistemicState.ctorIdx,
      weaknessRank, eq_comm]

/-- Both engines compose states alike. -/
theorem weakenEpistemic_iff {a b c : EpistemicState} : WeakenEpistemic a b c ↔ Composes a b c := by
  rw [← weaken_eq_some]
  constructor
  · rintro (⟨ha, hb, h⟩ | ⟨ha, hb, h⟩)
    · simp only [weaken, epistemicRank_iff.mp ha, epistemicRank_iff.mp hb, if_pos h]
    · simp only [weaken, epistemicRank_iff.mp ha, epistemicRank_iff.mp hb,
        if_neg (Nat.not_le.mpr h)]
  · intro h
    obtain ⟨l, r, hl, hr, -⟩ := weaken_eq_some.mp h
    simp only [weaken, hl, hr] at h
    split_ifs at h with hle
    · obtain rfl := Option.some.inj h
      exact .left (epistemicRank_iff.mpr hl) (epistemicRank_iff.mpr hr) hle
    · obtain rfl := Option.some.inj h
      exact .right (epistemicRank_iff.mpr hl) (epistemicRank_iff.mpr hr) (Nat.not_le.mp hle)

/-- The three rules every call-mediated relation has, over its own base and support relation. -/
inductive CallRules {α : Type} (call : FunctionId → FunctionId → EpistemicState → Prop)
    (base support : FunctionId → α → EpistemicState → Prop) :
    FunctionId → α → EpistemicState → Prop
  | direct {f : FunctionId} {x : α} {e : EpistemicState} : base f x e →
      CallRules call base support f x e
  | transitive {f g : FunctionId} {x : α} {e₁ e₂ e : EpistemicState} : call f g e₁ →
      CallRules call base support g x e₂ → WeakenEpistemic e₁ e₂ e →
        CallRules call base support f x e
  | support {f g : FunctionId} {x : α} {e₁ e₂ e : EpistemicState} : call f g e₁ →
      support g x e₂ → WeakenEpistemic e₁ e₂ e → CallRules call base support f x e

section Relations

variable (edb : List ExecutionRow)

def DirectCall (f g : FunctionId) (e : EpistemicState) : Prop :=
  ∃ cs d, ⟨.directCall, [.callSiteId cs, .functionId f, .functionId g, .dispatchKind d,
    .epistemic e]⟩ ∈ edb

def SupportReachableCall (f g : FunctionId) (e : EpistemicState) : Prop :=
  ⟨.supportReachableCall, [.functionId f, .functionId g, .epistemic e]⟩ ∈ edb

/-- A base access of either memory relation; the range columns are projected away. -/
def DirectAccess (relation : RelationId) (f : FunctionId) (x : MemoryId) (e : EpistemicState) :
    Prop :=
  ∃ kind offset size, ⟨relation, [.functionId f, .memoryId x, .byteRangeKind kind, .int64 offset,
    .uint64 size, .epistemic e]⟩ ∈ edb

def SupportAccess (relation : RelationId) (f : FunctionId) (x : MemoryId) (e : EpistemicState) :
    Prop :=
  ⟨relation, [.functionId f, .memoryId x, .epistemic e]⟩ ∈ edb

/-- reachability.v2.dl -/
def ReachableCall : FunctionId → FunctionId → EpistemicState → Prop :=
  CallRules (DirectCall edb) (DirectCall edb) (SupportReachableCall edb)

/-- may_write.v2.dl -/
def MayWrite : FunctionId → MemoryId → EpistemicState → Prop :=
  CallRules (DirectCall edb) (DirectAccess edb .directWrite) (SupportAccess edb .supportMayWrite)

/-- may_read.v2.dl -/
def MayRead : FunctionId → MemoryId → EpistemicState → Prop :=
  CallRules (DirectCall edb) (DirectAccess edb .directRead) (SupportAccess edb .supportMayRead)

def SupportGlobalFlow (s d : ValueId) (e : EpistemicState) : Prop :=
  ⟨.supportGlobalFlow, [.valueId s, .valueId d, .epistemic e]⟩ ∈ edb

/-- global_flow.v2.dl -/
inductive GlobalFlow : ValueId → ValueId → EpistemicState → Prop
  | localFlow {f : FunctionId} {s d : ValueId} {kind : String} {e : EpistemicState} :
      ⟨.localFlow, [.functionId f, .valueId s, .valueId d, .string kind, .epistemic e]⟩ ∈ edb →
        GlobalFlow s d e
  | parameterFlow {cs : CallSiteId} {a f : ValueId} {e : EpistemicState} :
      ⟨.parameterFlow, [.callSiteId cs, .valueId a, .valueId f, .epistemic e]⟩ ∈ edb →
        GlobalFlow a f e
  | returnFlow {cs : CallSiteId} {r c : ValueId} {e : EpistemicState} :
      ⟨.returnFlow, [.callSiteId cs, .valueId r, .valueId c, .epistemic e]⟩ ∈ edb → GlobalFlow r c e
  | transitive {s m d : ValueId} {e₁ e₂ e : EpistemicState} : GlobalFlow s m e₁ →
      GlobalFlow m d e₂ → WeakenEpistemic e₁ e₂ e → GlobalFlow s d e
  | support {s m d : ValueId} {e₁ e₂ e : EpistemicState} : GlobalFlow s m e₁ →
      SupportGlobalFlow edb m d e₂ → WeakenEpistemic e₁ e₂ e → GlobalFlow s d e

def FunctionMap (f : FunctionId) (text : String) : Prop :=
  ⟨.functionMap, [.functionId f, .string text]⟩ ∈ edb

def CallSiteMap (cs : CallSiteId) (text : String) : Prop :=
  ⟨.callSiteMap, [.callSiteId cs, .string text]⟩ ∈ edb

/-- The unknown-effect rules that join no derived tuple. -/
inductive UnknownSeed : FunctionId → String × String → EpistemicState → Prop
  | call {cs : CallSiteId} {f : FunctionId} {reason text : String} {e : EpistemicState} :
      ⟨.unknownCall, [.callSiteId cs, .functionId f, .string reason, .epistemic e]⟩ ∈ edb →
        CallSiteMap edb cs text → UnknownSeed f (text, reason) e
  | external {f g : FunctionId} {text : String} {e : EpistemicState} : DirectCall edb f g e →
      ⟨.unmodeledExternal, [.functionId g]⟩ ∈ edb → FunctionMap edb g text →
        UnknownSeed f (text, "unmodeled_external") .may
  | feature {f : FunctionId} {node kind policy : String} :
      ⟨.unsupportedFeature, [.string node, .string kind, .string policy]⟩ ∈ edb →
        FunctionMap edb f node → UnknownSeed f (kind, "unsupported_feature") .unknown

def SupportUnknownEffect (f : FunctionId) (x : String × String) (e : EpistemicState) : Prop :=
  ⟨.supportUnknownEffect, [.functionId f, .string x.1, .string x.2, .epistemic e]⟩ ∈ edb

/-- effects.v2.dl; the pair is subject and reason. -/
def UnknownEffect : FunctionId → String × String → EpistemicState → Prop :=
  CallRules (DirectCall edb) (UnknownSeed edb) (SupportUnknownEffect edb)

def SoundnessCoverage (scope : String) : Prop :=
  ∃ f x e, UnknownEffect edb f x e ∧ FunctionMap edb f scope

end Relations

/-- The output tuples of a component's bundle. -/
inductive Output (edb : List ExecutionRow) : WpaComponentKind → ExecutionRow → Prop
  | reachableCall {f g : FunctionId} {e : EpistemicState} : ReachableCall edb f g e →
      Output edb .reachability ⟨.reachableCall, [.functionId f, .functionId g, .epistemic e]⟩
  | mayWrite {f : FunctionId} {x : MemoryId} {e : EpistemicState} : MayWrite edb f x e →
      Output edb .memoryEffects ⟨.mayWrite, [.functionId f, .memoryId x, .epistemic e]⟩
  | mayRead {f : FunctionId} {x : MemoryId} {e : EpistemicState} : MayRead edb f x e →
      Output edb .memoryEffects ⟨.mayRead, [.functionId f, .memoryId x, .epistemic e]⟩
  | globalFlow {s d : ValueId} {e : EpistemicState} : GlobalFlow edb s d e →
      Output edb .flow ⟨.globalFlow, [.valueId s, .valueId d, .epistemic e]⟩
  | unknownEffect {f : FunctionId} {x : String × String} {e : EpistemicState} :
      UnknownEffect edb f x e →
        Output edb .effects ⟨.unknownEffect, [.functionId f, .string x.1, .string x.2,
          .epistemic e]⟩
  | soundnessCoverage {scope : String} : SoundnessCoverage edb scope →
      Output edb .effects ⟨.soundnessCoverage, [.string scope,
        .string "dominating_check_absence", .uint64 0, .epistemic .must]⟩

/-- The bundle's result rows, mapped back to stable ids. -/
def results (input : WpaLogicalComponentInput) : Set SemanticRow :=
  {row | ∃ tuple, Output input.edb input.component tuple ∧
    decodeRow input.mappings tuple = .ok row}

end Veritas.Datalog

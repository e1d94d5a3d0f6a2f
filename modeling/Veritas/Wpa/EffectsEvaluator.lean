import Veritas.Wpa.FlowEvaluator

/-! The UnknownEffect closure with its coverage certificates, and the evaluator's entry point. -/
namespace Veritas

open Saturation Ordered

structure UnknownTuple where
  function : StableId
  subject : String
  reason : String
  epistemic : EpistemicState

def UnknownTuple.sortKey (t : UnknownTuple) : StableId ×ₗ String ×ₗ String ×ₗ ℕ :=
  toLex (t.function, toLex (t.subject, toLex (t.reason, t.epistemic.ordinal)))

theorem UnknownTuple.sortKey_injective : Function.Injective UnknownTuple.sortKey := by
  rintro ⟨f, s, r, e⟩ ⟨f', s', r', e'⟩ h
  simp only [sortKey, EmbeddingLike.apply_eq_iff_eq, Prod.mk.injEq] at h
  obtain ⟨rfl, rfl, rfl, he⟩ := h
  rw [EpistemicState.ordinal_injective he]

instance : LinearOrder UnknownTuple :=
  LinearOrder.lift' UnknownTuple.sortKey UnknownTuple.sortKey_injective

abbrev UnknownFiring := Firing UnknownTuple (List WitnessEdge)

/-- What the effects component keeps of one input row. -/
inductive EffectRow
  | call (edge : CallEdgeTuple)
  | unknownCall (tuple : UnknownTuple) (row : SemanticRow)
  | support (tuple : UnknownTuple) (row : SemanticRow)
  | functionMap (function : StableId) (stable : String)
  | unmodeledExternal (function : StableId)
  | unsupportedFeature (node : String) (row : SemanticRow)

def malformed {α : Type} (message : String) : StatusOr α := .error (.invalidArgument message)

def readUnknownCall (mappings : StableIdMappings) (row : ExecutionRow) : StatusOr EffectRow := do
  let resolved ← resolveRow mappings row
  match resolved.endpointIds, resolved.epistemics with
  | caller :: _, epistemic :: _ =>
    match resolved.semantic.cells[0]?.bind (·.stableId?),
        resolved.semantic.cells[2]?.bind (·.string?) with
    | some site, some reason =>
      return .unknownCall ⟨caller, site.toString, reason, epistemic⟩ resolved.semantic
    | _, _ => malformed "malformed UnknownCall row"
  | _, _ => malformed "UnknownCall row is missing its caller"

def readSupport (mappings : StableIdMappings) (row : ExecutionRow) : StatusOr EffectRow := do
  let resolved ← resolveRow mappings row
  match resolved.endpointIds, resolved.epistemics with
  | function :: _, epistemic :: _ =>
    match resolved.semantic.cells[1]?.bind (·.string?),
        resolved.semantic.cells[2]?.bind (·.string?) with
    | some subject, some reason =>
      return .support ⟨function, subject, reason, epistemic⟩ resolved.semantic
    | _, _ => malformed "malformed SupportUnknownEffect row"
  | _, _ => malformed "SupportUnknownEffect row is missing its function"

def readFunctionMap (mappings : StableIdMappings) (row : ExecutionRow) : StatusOr EffectRow :=
  match row.cells[0]?.bind (·.functionId?), row.cells[1]?.bind (·.string?) with
  | some f, some stable => do
    let id ← mappings.functions.toStable f
    return .functionMap id stable
  | _, _ => malformed "malformed FunctionMap row"

def readUnmodeledExternal (mappings : StableIdMappings) (row : ExecutionRow) : StatusOr EffectRow :=
  match row.cells[0]?.bind (·.functionId?) with
  | some f => do
    let id ← mappings.functions.toStable f
    return .unmodeledExternal id
  | none => malformed "malformed UnmodeledExternal row"

def readUnsupportedFeature (row : ExecutionRow) : StatusOr EffectRow :=
  match row.cells[0]?.bind (·.string?), row.cells[1]?.bind (·.string?),
      row.cells[2]?.bind (·.string?) with
  | some node, some kind, some policy =>
    return .unsupportedFeature node ⟨row.relation, [.string node, .string kind, .string policy]⟩
  | _, _, _ => malformed "malformed UnsupportedFeature row"

/-- One row of the input; relations the component does not read are skipped. -/
def readEffectRow (mappings : StableIdMappings) (row : ExecutionRow) :
    StatusOr (Option EffectRow) :=
  match row.relation with
  | .directCall => return some (.call (← callEdge mappings row))
  | .unknownCall => return some (← readUnknownCall mappings row)
  | .supportUnknownEffect => return some (← readSupport mappings row)
  | .functionMap => return some (← readFunctionMap mappings row)
  | .unmodeledExternal => return some (← readUnmodeledExternal mappings row)
  | .unsupportedFeature => return some (← readUnsupportedFeature row)
  | _ => return none

structure EffectsInput where
  calls : List CallEdgeTuple
  base : List (UnknownTuple × SemanticRow)
  support : List (UnknownTuple × SemanticRow)
  functionMap : List (StableId × String)
  externals : List StableId
  features : List (String × SemanticRow)

def EffectsInput.ofRows (rows : List EffectRow) : EffectsInput where
  calls := rows.filterMap fun | .call e => some e | _ => none
  base := rows.filterMap fun | .unknownCall t r => some (t, r) | _ => none
  support := rows.filterMap fun | .support t r => some (t, r) | _ => none
  functionMap := rows.filterMap fun | .functionMap f s => some (f, s) | _ => none
  externals := rows.filterMap fun | .unmodeledExternal f => some f | _ => none
  features := rows.filterMap fun | .unsupportedFeature n r => some (n, r) | _ => none

def effectsInput (input : WpaLogicalComponentInput) : StatusOr EffectsInput := do
  let rows ← input.edb.mapM (readEffectRow input.mappings)
  return .ofRows (rows.filterMap id)

namespace EffectsInput

/-- A later assignment to the same key replaces an earlier one. -/
def functionStable (d : EffectsInput) (function : StableId) : Option String :=
  (d.functionMap.reverse.find? (·.1 = function)).map (·.2)

def stableToFunction (d : EffectsInput) (stable : String) : Option StableId :=
  (d.functionMap.reverse.find? (·.2 = stable)).map (·.1)

def unknownResultRow (t : UnknownTuple) : SemanticRow :=
  ⟨.unknownEffect, [.stableId t.function, .string t.subject, .string t.reason,
    .epistemic t.epistemic]⟩

def coverageResultRow (scope : String) (complete : UInt64) : SemanticRow :=
  ⟨.soundnessCoverage, [.string scope, .string "dominating_check_absence", .uint64 complete,
    .epistemic .must]⟩

def seedFiring (t : UnknownTuple) (ruleId : String) (row : SemanticRow) : UnknownFiring :=
  ⟨t, [], directEdges (unknownResultRow t) ruleId row⟩

def callSeed (base : UnknownTuple × SemanticRow) : Option UnknownFiring :=
  if (weaknessRank base.1.epistemic).isSome then
    some (seedFiring base.1 "wpa.effect.unknown.call.v2" base.2)
  else none

/-- A call to an external function that no model describes. -/
def externalSeed (d : EffectsInput) (call : CallEdgeTuple) : Option UnknownFiring :=
  if call.callee ∈ d.externals then
    (d.functionStable call.callee).map fun stable =>
      seedFiring ⟨call.caller, stable, "unmodeled_external", .may⟩
        "wpa.effect.unknown.external.v2" call.row
  else none

/-- An unsupported feature whose node is a mapped function. -/
def featureSeed (d : EffectsInput) (feature : String × SemanticRow) : Option UnknownFiring :=
  match d.stableToFunction feature.1, feature.2.cells[1]?.bind (·.string?) with
  | some function, some kind =>
    some (seedFiring ⟨function, kind, "unsupported_feature", .unknown⟩
      "wpa.effect.unknown.feature.v2" feature.2)
  | _, _ => none

def seeds (d : EffectsInput) : List UnknownFiring :=
  d.base.filterMap callSeed ++ d.calls.filterMap d.externalSeed ++
    d.features.filterMap d.featureSeed

def unknownTransitive (call : CallEdgeTuple) (t : UnknownTuple) : Option UnknownFiring :=
  if t.function ≠ call.callee then none
  else (weaken call.epistemic t.epistemic).map fun combined =>
    let next : UnknownTuple := ⟨call.caller, t.subject, t.reason, combined⟩
    ⟨next, [t], joinEdges (unknownResultRow next) "wpa.effect.unknown.transitive.v2" call.row
      (unknownResultRow t)⟩

def unknownSupport (call : CallEdgeTuple) (support : UnknownTuple × SemanticRow) :
    Option UnknownFiring :=
  if support.1.function ≠ call.callee then none
  else (weaken call.epistemic support.1.epistemic).map fun combined =>
    let next : UnknownTuple := ⟨call.caller, support.1.subject, support.1.reason, combined⟩
    ⟨next, [], joinEdges (unknownResultRow next) "wpa.effect.unknown.support.v2" call.row support.2⟩

def fire (d : EffectsInput) (snapshot : Finset UnknownTuple) : List UnknownFiring :=
  (d.calls.flatMap fun call => (ascending snapshot).filterMap (unknownTransitive call)) ++
    d.calls.flatMap fun call => d.support.filterMap (unknownSupport call)

variable {call : CallEdgeTuple} {f : UnknownFiring} {t : UnknownTuple} {d : EffectsInput}

theorem unknownTransitive_eq_some :
    unknownTransitive call t = some f ↔
      t.function = call.callee ∧ ∃ e, weaken call.epistemic t.epistemic = some e ∧
        f = ⟨⟨call.caller, t.subject, t.reason, e⟩, [t],
          joinEdges (unknownResultRow ⟨call.caller, t.subject, t.reason, e⟩)
            "wpa.effect.unknown.transitive.v2" call.row (unknownResultRow t)⟩ := by
  exact joined_eq_some

theorem unknownSupport_eq_some {support : UnknownTuple × SemanticRow} :
    unknownSupport call support = some f ↔
      support.1.function = call.callee ∧
        ∃ e, weaken call.epistemic support.1.epistemic = some e ∧
          f = ⟨⟨call.caller, support.1.subject, support.1.reason, e⟩, [],
            joinEdges (unknownResultRow ⟨call.caller, support.1.subject, support.1.reason, e⟩)
              "wpa.effect.unknown.support.v2" call.row support.2⟩ := by
  exact joined_eq_some

theorem mem_fire {s : Finset UnknownTuple} :
    f ∈ d.fire s ↔
      (∃ call ∈ d.calls, ∃ t ∈ s, unknownTransitive call t = some f) ∨
        ∃ call ∈ d.calls, ∃ p ∈ d.support, unknownSupport call p = some f := by
  simp [fire]

/-- Every unknown effect over the functions, subjects and reasons in sight. -/
def carrier (d : EffectsInput) : Finset UnknownTuple :=
  ((d.seeds.map (·.conclusion.function) ++ d.calls.map (·.caller)).toFinset ×ˢ
    (d.seeds.map (·.conclusion.subject) ++ d.support.map (·.1.subject)).toFinset ×ˢ
    (d.seeds.map (·.conclusion.reason) ++ d.support.map (·.1.reason)).toFinset ×ˢ
    Finset.univ).map
    ⟨fun p => ⟨p.1, p.2.1, p.2.2.1, p.2.2.2⟩, fun p q h => by
      simp only [UnknownTuple.mk.injEq] at h
      exact Prod.ext h.1 (Prod.ext h.2.1 (Prod.ext h.2.2.1 h.2.2.2))⟩

theorem mem_carrier :
    t ∈ d.carrier ↔
      ((∃ f ∈ d.seeds, f.conclusion.function = t.function) ∨
          ∃ call ∈ d.calls, call.caller = t.function) ∧
        ((∃ f ∈ d.seeds, f.conclusion.subject = t.subject) ∨
          ∃ p ∈ d.support, p.1.subject = t.subject) ∧
        ((∃ f ∈ d.seeds, f.conclusion.reason = t.reason) ∨
          ∃ p ∈ d.support, p.1.reason = t.reason) := by
  obtain ⟨f, s, r, e⟩ := t
  simp only [carrier, Finset.mem_map, Finset.mem_product, Finset.mem_univ, and_true,
    List.mem_toFinset, List.mem_append, List.mem_map]
  constructor
  · rintro ⟨p, hp, heq⟩
    obtain ⟨rfl, rfl, rfl, -⟩ := UnknownTuple.mk.inj heq
    exact hp
  · intro h
    exact ⟨(f, s, r, e), h, rfl⟩

def system (d : EffectsInput) : System UnknownTuple (List WitnessEdge) where
  carrier := d.carrier
  fire := d.fire
  fire_mem := by
    intro s hs f hf
    rcases mem_fire.mp hf with ⟨call, hcall, t, ht, hf⟩ | ⟨call, hcall, p, hp, hf⟩
    · obtain ⟨-, e, -, rfl⟩ := unknownTransitive_eq_some.mp hf
      exact mem_carrier.mpr ⟨.inr ⟨call, hcall, rfl⟩, (mem_carrier.mp (hs ht)).2⟩
    · obtain ⟨-, e, -, rfl⟩ := unknownSupport_eq_some.mp hf
      exact mem_carrier.mpr ⟨.inr ⟨call, hcall, rfl⟩, .inr ⟨p, hp, rfl⟩, .inr ⟨p, hp, rfl⟩⟩

theorem seeds_carrier (d : EffectsInput) : ∀ f ∈ d.seeds, f.conclusion ∈ d.system.carrier := by
  intro f hf
  exact mem_carrier.mpr ⟨.inl ⟨f, hf, rfl⟩, .inl ⟨f, hf, rfl⟩, .inl ⟨f, hf, rfl⟩⟩

def close (d : EffectsInput) : Progress UnknownTuple (List WitnessEdge) :=
  d.system.saturate .every d.seeds d.seeds_carrier

/-- The mapped functions that carry an unknown effect, each with the effect in question. -/
def gaps (d : EffectsInput) : List (String × UnknownTuple) :=
  (ascending d.close.derived).filterMap fun t => (d.functionStable t.function).map (·, t)

def coverageEdges (gap : String × UnknownTuple) : List WitnessEdge :=
  directEdges (coverageResultRow gap.1 0) "wpa.coverage.incomplete.v2" (unknownResultRow gap.2)

/-- Each unknown effect witnesses the gap, but the fact is emitted once for a scope. -/
def collect (d : EffectsInput) : RawWpaEvaluation where
  results := (ascending d.close.derived).map unknownResultRow ++
    (d.gaps.map (·.1)).eraseDups.map (coverageResultRow · 0)
  witnesses := sortUnique (d.close.log.flatMap (·.evidence) ++ d.gaps.flatMap coverageEdges)
  diagnostics := []

end EffectsInput

def evaluateEffects (input : WpaLogicalComponentInput) : StatusOr RawWpaEvaluation := do
  return (← effectsInput input).collect

/-- `CppRuleEvaluator::Evaluate`. -/
def evaluate (input : WpaLogicalComponentInput) : StatusOr RawWpaEvaluation :=
  if input.component = .flow then evaluateFlow input
  else if input.component = .effects then evaluateEffects input
  else evaluateCalls input

end Veritas

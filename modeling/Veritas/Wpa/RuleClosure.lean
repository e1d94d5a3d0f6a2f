import Veritas.Wpa.EffectsEvaluator

/-! What the component rules say about an input: the sets of result rows they are closed on. -/
namespace Veritas

open Saturation

/-- The weaker of two positive states; a negative one composes with nothing. -/
def Composes (left right combined : EpistemicState) : Prop :=
  ∃ l r, weaknessRank left = some l ∧ weaknessRank right = some r ∧
    weaknessRank combined = some (max l r)

theorem weaknessRank_injOn {a b : EpistemicState} {n : ℕ} (ha : weaknessRank a = some n)
    (hb : weaknessRank b = some n) : a = b := by
  cases a <;> cases b <;> simp_all [weaknessRank] <;> omega

theorem weaknessRank_isSome {e : EpistemicState} : (weaknessRank e).isSome ↔ e ≠ .mustNot := by
  cases e <;> decide

theorem weaken_eq_some {a b c : EpistemicState} : weaken a b = some c ↔ Composes a b c := by
  unfold weaken Composes
  cases ha : weaknessRank a with
  | none => simp
  | some l =>
    cases hb : weaknessRank b with
    | none => simp
    | some r =>
      simp only [Option.some.injEq, exists_and_left, exists_eq_left']
      rcases le_total r l with h | h
      · rw [if_pos h, max_eq_left h]
        exact ⟨by rintro rfl; exact ha, weaknessRank_injOn ha⟩
      · rw [max_eq_right h]
        split_ifs with hle
        · obtain rfl := le_antisymm h hle
          exact ⟨by rintro rfl; exact ha, weaknessRank_injOn ha⟩
        · exact ⟨by rintro rfl; exact hb, weaknessRank_injOn hb⟩

/-- Some row of a relation resolves to this tuple and this semantic row. -/
def Stated (input : WpaLogicalComponentInput) (ids : ResolvedRow → List StableId)
    (relation : RelationId) (t : DerivedTuple) (semantic : SemanticRow) : Prop :=
  ∃ row ∈ input.edb, row.relation = relation ∧ ∃ resolved,
    resolveRow input.mappings row = .ok resolved ∧ resolved.tuple (ids resolved) = some t ∧
      resolved.semantic = semantic

/-- A row of a relation over functions and memory states this tuple. -/
def States (input : WpaLogicalComponentInput) (relation : RelationId) (t : DerivedTuple) : Prop :=
  ∃ semantic, Stated input (·.endpointIds) relation t semantic

/-- A row of a relation over values states this tuple. -/
def StatesFlow (input : WpaLogicalComponentInput) (relation : RelationId) (t : DerivedTuple) :
    Prop :=
  ∃ semantic, Stated input (·.valueIds) relation t semantic

/-- Closed under one call-mediated domain's direct, transitive and support rules. -/
structure CallClosed (input : WpaLogicalComponentInput) (domain : Domain)
    (facts : Set SemanticRow) : Prop where
  direct : ∀ t, States input domain.baseRelation t → t.epistemic ≠ .mustNot →
    resultRow domain.derivedRelation t ∈ facts
  transitive : ∀ caller callee object e e' c, States input .directCall ⟨caller, callee, e⟩ →
    resultRow domain.derivedRelation ⟨callee, object, e'⟩ ∈ facts → Composes e e' c →
      resultRow domain.derivedRelation ⟨caller, object, c⟩ ∈ facts
  support : ∀ caller callee object e e' c, States input .directCall ⟨caller, callee, e⟩ →
    States input domain.supportRelation ⟨callee, object, e'⟩ → Composes e e' c →
      resultRow domain.derivedRelation ⟨caller, object, c⟩ ∈ facts

/-- Closed under the flow rules: derived flows join each other, then support rows. -/
structure FlowClosed (input : WpaLogicalComponentInput) (facts : Set SemanticRow) : Prop where
  base : ∀ relation t, isBaseFlow relation → StatesFlow input relation t →
    t.epistemic ≠ .mustNot → resultRow .globalFlow t ∈ facts
  transitive : ∀ source middle sink e e' c, resultRow .globalFlow ⟨source, middle, e⟩ ∈ facts →
    resultRow .globalFlow ⟨middle, sink, e'⟩ ∈ facts → Composes e e' c →
      resultRow .globalFlow ⟨source, sink, c⟩ ∈ facts
  support : ∀ source middle sink e e' c, resultRow .globalFlow ⟨source, middle, e⟩ ∈ facts →
    StatesFlow input .supportGlobalFlow ⟨middle, sink, e'⟩ → Composes e e' c →
      resultRow .globalFlow ⟨source, sink, c⟩ ∈ facts

/-- Some row of the input reads as this effect row. -/
def ReadsEffect (input : WpaLogicalComponentInput) (effect : EffectRow) : Prop :=
  ∃ row ∈ input.edb, readEffectRow input.mappings row = .ok (some effect)

def functionMapPair (mappings : StableIdMappings) (row : ExecutionRow) :
    Option (StableId × String) :=
  match readEffectRow mappings row with
  | .ok (some (.functionMap function stable)) => some (function, stable)
  | _ => none

/-- The text of a function's last FunctionMap row. -/
def mappedText (input : WpaLogicalComponentInput) (function : StableId) : Option String :=
  ((input.edb.filterMap (functionMapPair input.mappings)).reverse.find? (·.1 = function)).map (·.2)

/-- The function of the last FunctionMap row with this text. -/
def mappedFunction (input : WpaLogicalComponentInput) (stable : String) : Option StableId :=
  ((input.edb.filterMap (functionMapPair input.mappings)).reverse.find? (·.2 = stable)).map (·.1)

open EffectsInput in
/-- Closed under the unknown-effect rules and the coverage rule. -/
structure EffectsClosed (input : WpaLogicalComponentInput) (facts : Set SemanticRow) : Prop where
  unknownCall : ∀ t row, ReadsEffect input (.unknownCall t row) → t.epistemic ≠ .mustNot →
    unknownResultRow t ∈ facts
  external : ∀ call stable, ReadsEffect input (.call call) →
    ReadsEffect input (.unmodeledExternal call.callee) →
      mappedText input call.callee = some stable →
        unknownResultRow ⟨call.caller, stable, "unmodeled_external", .may⟩ ∈ facts
  feature : ∀ node row function kind, ReadsEffect input (.unsupportedFeature node row) →
    mappedFunction input node = some function → row.cells[1]? = some (.string kind) →
      unknownResultRow ⟨function, kind, "unsupported_feature", .unknown⟩ ∈ facts
  transitive : ∀ call subject reason e c, ReadsEffect input (.call call) →
    unknownResultRow ⟨call.callee, subject, reason, e⟩ ∈ facts → Composes call.epistemic e c →
      unknownResultRow ⟨call.caller, subject, reason, c⟩ ∈ facts
  support : ∀ call subject reason e c row, ReadsEffect input (.call call) →
    ReadsEffect input (.support ⟨call.callee, subject, reason, e⟩ row) →
      Composes call.epistemic e c → unknownResultRow ⟨call.caller, subject, reason, c⟩ ∈ facts
  coverage : ∀ t scope, unknownResultRow t ∈ facts → mappedText input t.function = some scope →
    coverageResultRow scope 0 ∈ facts

/-- Closed under all rules of the input's component. -/
def RuleClosed (input : WpaLogicalComponentInput) (facts : Set SemanticRow) : Prop :=
  match input.component with
  | .flow => FlowClosed input facts
  | .effects => EffectsClosed input facts
  | component => ∀ domain ∈ domainsFor component, CallClosed input domain facts

/-- Every row the component reads resolves through the mappings and has its endpoints. -/
def Resolves (input : WpaLogicalComponentInput) : Prop :=
  match input.component with
  | .flow => ∀ row ∈ input.edb, isBaseFlow row.relation ∨ row.relation = .supportGlobalFlow →
      ∃ resolved, resolveRow input.mappings row = .ok resolved ∧ 2 ≤ resolved.valueIds.length
  | .effects => ∀ row ∈ input.edb, ∃ effect, readEffectRow input.mappings row = .ok effect
  | component => ∀ row ∈ input.edb,
      row.relation = .directCall ∨ (∃ domain ∈ domainsFor component,
        row.relation = domain.baseRelation ∨ row.relation = domain.supportRelation) →
      ∃ resolved, resolveRow input.mappings row = .ok resolved ∧ 2 ≤ resolved.endpointIds.length

end Veritas

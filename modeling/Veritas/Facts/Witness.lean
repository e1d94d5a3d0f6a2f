import Veritas.Facts.SemanticKey

/-! The rules.v2 registry and the witness vocabulary shared by both engines. -/
namespace Veritas

structure RuleSpec where
  id : String
  /-- Lower sorts first when two proofs cost the same. -/
  priority : ℕ
  result : RelationId
  /-- The number of inputs the rule joins. -/
  arity : ℕ
  deriving DecidableEq

/-- The table is the authority for the rules.v2 bundle. -/
def rulesV2 : List RuleSpec :=
  [⟨"wpa.reachability.direct.v2", 10, .reachableCall, 1⟩,
    ⟨"wpa.reachability.support.v2", 20, .reachableCall, 2⟩,
    ⟨"wpa.reachability.transitive.v2", 30, .reachableCall, 2⟩,
    ⟨"wpa.memory.may_write.direct.v2", 10, .mayWrite, 1⟩,
    ⟨"wpa.memory.may_write.support.v2", 20, .mayWrite, 2⟩,
    ⟨"wpa.memory.may_write.transitive.v2", 30, .mayWrite, 2⟩,
    ⟨"wpa.memory.may_read.direct.v2", 10, .mayRead, 1⟩,
    ⟨"wpa.memory.may_read.support.v2", 20, .mayRead, 2⟩,
    ⟨"wpa.memory.may_read.transitive.v2", 30, .mayRead, 2⟩,
    ⟨"wpa.flow.global.local.v2", 10, .globalFlow, 1⟩,
    ⟨"wpa.flow.global.parameter.v2", 10, .globalFlow, 1⟩,
    ⟨"wpa.flow.global.return.v2", 10, .globalFlow, 1⟩,
    ⟨"wpa.flow.global.support.v2", 20, .globalFlow, 2⟩,
    ⟨"wpa.flow.global.transitive.v2", 30, .globalFlow, 2⟩,
    ⟨"wpa.effect.unknown.call.v2", 10, .unknownEffect, 1⟩,
    ⟨"wpa.effect.unknown.support.v2", 20, .unknownEffect, 2⟩,
    ⟨"wpa.effect.unknown.transitive.v2", 30, .unknownEffect, 2⟩,
    ⟨"wpa.effect.unknown.external.v2", 10, .unknownEffect, 1⟩,
    ⟨"wpa.effect.unknown.feature.v2", 10, .unknownEffect, 1⟩,
    ⟨"wpa.coverage.incomplete.v2", 10, .soundnessCoverage, 1⟩]

def findRule (ruleId : String) : Option RuleSpec := rulesV2.find? fun rule => rule.id = ruleId

variable {rule : RuleSpec} {ruleId : String}

theorem findRule_id (h : findRule ruleId = some rule) : rule.id = ruleId := by
  simpa using List.find?_some h

/-- A rule joins one or two inputs, never none. -/
theorem findRule_arity_pos (h : findRule ruleId = some rule) : 0 < rule.arity := by
  have hall : ∀ rule ∈ rulesV2, 0 < rule.arity := by decide
  exact hall rule (List.mem_of_find?_eq_some h)

/-- One immediate derivation step; a key struct around a row is the row itself here. -/
structure WitnessEdge where
  result : SemanticRow
  ruleId : String
  /-- Names the single firing; all edges of one firing share it. -/
  derivationKey : String
  input : SemanticRow
  inputOrdinal : ℕ

def WitnessEdge.sortKey (edge : WitnessEdge) :
    SemanticRow ×ₗ String ×ₗ String ×ₗ SemanticRow ×ₗ ℕ :=
  toLex (edge.result, toLex (edge.ruleId, toLex (edge.derivationKey,
    toLex (edge.input, edge.inputOrdinal))))

theorem WitnessEdge.sortKey_injective : Function.Injective WitnessEdge.sortKey := by
  rintro ⟨r, u, d, i, o⟩ ⟨r', u', d', i', o'⟩ h
  simpa [WitnessEdge.sortKey] using h

instance : LinearOrder WitnessEdge :=
  LinearOrder.lift' WitnessEdge.sortKey WitnessEdge.sortKey_injective

/-- An input fact and where it came from. -/
structure RootedInputFact where
  fact : AnalysisFact
  provenanceRef : String
  producerId : String
  sourceAnchorId : String
  summaryId : String
  description : String

/-- What an engine returns before validation. -/
structure RawWpaEvaluation where
  results : List SemanticRow
  witnesses : List WitnessEdge
  diagnostics : List String
  deriving DecidableEq

end Veritas

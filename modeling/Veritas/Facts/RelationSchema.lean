import Mathlib.Data.Fintype.Basic
import Veritas.Core.Ids

/-! The relations.v2 registry: column domains and admitted epistemic states of every relation. -/
namespace Veritas

open Function

inductive EpistemicState
  | must | may | mustNot | inferred | assumed | unknown
  deriving DecidableEq

instance : Fintype EpistemicState where
  elems := {.must, .may, .mustNot, .inferred, .assumed, .unknown}
  complete := by intro e; cases e <;> decide

inductive AliasKind
  | mustAlias | mayAlias | noAlias | unknownAlias
  deriving DecidableEq

inductive DispatchKind
  | direct | indirect | virtual | callback | external | unknown
  deriving DecidableEq

inductive ByteRangeKind
  | known | unknown
  deriving DecidableEq

/-- The ordinals that cross into keys and into the Datalog columns. -/
def EpistemicState.ordinal (e : EpistemicState) : ℕ := e.ctorIdx

def AliasKind.ordinal (a : AliasKind) : ℕ := a.ctorIdx

def DispatchKind.ordinal (d : DispatchKind) : ℕ := d.ctorIdx

def ByteRangeKind.ordinal (r : ByteRangeKind) : ℕ := r.ctorIdx

theorem EpistemicState.ordinal_injective : Injective EpistemicState.ordinal :=
  LeftInverse.injective (g := EpistemicState.ofNat) EpistemicState.ofNat_ctorIdx

theorem AliasKind.ordinal_injective : Injective AliasKind.ordinal :=
  LeftInverse.injective (g := AliasKind.ofNat) AliasKind.ofNat_ctorIdx

theorem DispatchKind.ordinal_injective : Injective DispatchKind.ordinal :=
  LeftInverse.injective (g := DispatchKind.ofNat) DispatchKind.ofNat_ctorIdx

theorem ByteRangeKind.ordinal_injective : Injective ByteRangeKind.ordinal :=
  LeftInverse.injective (g := ByteRangeKind.ofNat) ByteRangeKind.ofNat_ctorIdx

inductive RelationId
  | functionMap | valueMap | memoryMap | callSiteMap | factMap
  | directCall | unknownCall | directRead | directWrite | alias
  | localFlow | parameterFlow | returnFlow | modeledEffect | unsupportedFeature
  | reachableCall | mayWrite | supportReachableCall | supportMayWrite
  | mayRead | supportMayRead | globalFlow | supportGlobalFlow
  | unknownEffect | supportUnknownEffect | soundnessCoverage | unmodeledExternal
  | queryCompletion
  deriving DecidableEq

def RelationId.ordinal (relation : RelationId) : ℕ := relation.ctorIdx

inductive ColumnDomain
  | functionId | valueId | memoryId | callSiteId | factId | modelId
  | int64 | uint64 | string | dispatchKind | aliasKind | byteRangeKind | epistemic
  deriving DecidableEq

inductive RelationOwnership
  | edb | idb

structure ColumnSpec where
  name : String
  domain : ColumnDomain

structure RelationSchema where
  name : String
  ownership : RelationOwnership
  columns : List ColumnSpec
  allowedEpistemic : List EpistemicState

def noEpistemic : List EpistemicState := []

def anyState : List EpistemicState := [.must, .may, .mustNot, .inferred, .assumed, .unknown]

def withoutMustNot : List EpistemicState := [.must, .may, .inferred, .assumed, .unknown]

def unresolvedCallStates : List EpistemicState := [.may, .unknown]

def modelStatedStates : List EpistemicState := [.must, .assumed]

def coverageStates : List EpistemicState := [.must, .unknown]

/-- The registry table, one entry for each relation id. -/
def relationsV2 : RelationId → RelationSchema
  | .functionMap => ⟨"FunctionMap", .edb,
      [⟨"function_id", .functionId⟩, ⟨"function_stable_id", .string⟩], noEpistemic⟩
  | .valueMap => ⟨"ValueMap", .edb,
      [⟨"value_id", .valueId⟩, ⟨"value_stable_id", .string⟩], noEpistemic⟩
  | .memoryMap => ⟨"MemoryMap", .edb,
      [⟨"memory_id", .memoryId⟩, ⟨"memory_stable_id", .string⟩], noEpistemic⟩
  | .callSiteMap => ⟨"CallSiteMap", .edb,
      [⟨"call_site_id", .callSiteId⟩, ⟨"call_site_stable_id", .string⟩], noEpistemic⟩
  | .factMap => ⟨"FactMap", .edb,
      [⟨"fact_id", .factId⟩, ⟨"fact_stable_id", .string⟩], noEpistemic⟩
  | .directCall => ⟨"DirectCall", .edb,
      [⟨"call_site_id", .callSiteId⟩, ⟨"caller_id", .functionId⟩, ⟨"callee_id", .functionId⟩,
        ⟨"dispatch", .dispatchKind⟩, ⟨"epistemic", .epistemic⟩], anyState⟩
  | .unknownCall => ⟨"UnknownCall", .edb,
      [⟨"call_site_id", .callSiteId⟩, ⟨"caller_id", .functionId⟩, ⟨"reason", .string⟩,
        ⟨"epistemic", .epistemic⟩], unresolvedCallStates⟩
  | .directRead => ⟨"DirectRead", .edb,
      [⟨"function_id", .functionId⟩, ⟨"memory_id", .memoryId⟩, ⟨"range_kind", .byteRangeKind⟩,
        ⟨"offset", .int64⟩, ⟨"size", .uint64⟩, ⟨"epistemic", .epistemic⟩], anyState⟩
  | .directWrite => ⟨"DirectWrite", .edb,
      [⟨"function_id", .functionId⟩, ⟨"memory_id", .memoryId⟩, ⟨"range_kind", .byteRangeKind⟩,
        ⟨"offset", .int64⟩, ⟨"size", .uint64⟩, ⟨"epistemic", .epistemic⟩], anyState⟩
  | .alias => ⟨"Alias", .edb,
      [⟨"left_memory_id", .memoryId⟩, ⟨"right_memory_id", .memoryId⟩,
        ⟨"alias_kind", .aliasKind⟩, ⟨"epistemic", .epistemic⟩], anyState⟩
  | .localFlow => ⟨"LocalFlow", .edb,
      [⟨"function_id", .functionId⟩, ⟨"source_id", .valueId⟩, ⟨"destination_id", .valueId⟩,
        ⟨"flow_kind", .string⟩, ⟨"epistemic", .epistemic⟩], withoutMustNot⟩
  | .parameterFlow => ⟨"ParameterFlow", .edb,
      [⟨"call_site_id", .callSiteId⟩, ⟨"actual_id", .valueId⟩, ⟨"formal_id", .valueId⟩,
        ⟨"epistemic", .epistemic⟩], withoutMustNot⟩
  | .returnFlow => ⟨"ReturnFlow", .edb,
      [⟨"call_site_id", .callSiteId⟩, ⟨"return_id", .valueId⟩, ⟨"result_id", .valueId⟩,
        ⟨"epistemic", .epistemic⟩], withoutMustNot⟩
  | .modeledEffect => ⟨"ModeledEffect", .edb,
      [⟨"model_id", .modelId⟩, ⟨"function_id", .functionId⟩, ⟨"effect_kind", .string⟩,
        ⟨"subject_id", .string⟩, ⟨"epistemic", .epistemic⟩], modelStatedStates⟩
  | .unsupportedFeature => ⟨"UnsupportedFeature", .edb,
      [⟨"node_id", .string⟩, ⟨"feature_kind", .string⟩, ⟨"soundness_policy", .string⟩],
      noEpistemic⟩
  | .reachableCall => ⟨"ReachableCall", .idb,
      [⟨"source_id", .functionId⟩, ⟨"target_id", .functionId⟩, ⟨"epistemic", .epistemic⟩],
      withoutMustNot⟩
  | .mayWrite => ⟨"MayWrite", .idb,
      [⟨"function_id", .functionId⟩, ⟨"memory_id", .memoryId⟩, ⟨"epistemic", .epistemic⟩],
      withoutMustNot⟩
  | .supportReachableCall => ⟨"SupportReachableCall", .edb,
      [⟨"source_id", .functionId⟩, ⟨"target_id", .functionId⟩, ⟨"epistemic", .epistemic⟩],
      withoutMustNot⟩
  | .supportMayWrite => ⟨"SupportMayWrite", .edb,
      [⟨"function_id", .functionId⟩, ⟨"memory_id", .memoryId⟩, ⟨"epistemic", .epistemic⟩],
      withoutMustNot⟩
  | .mayRead => ⟨"MayRead", .idb,
      [⟨"function_id", .functionId⟩, ⟨"memory_id", .memoryId⟩, ⟨"epistemic", .epistemic⟩],
      withoutMustNot⟩
  | .supportMayRead => ⟨"SupportMayRead", .edb,
      [⟨"function_id", .functionId⟩, ⟨"memory_id", .memoryId⟩, ⟨"epistemic", .epistemic⟩],
      withoutMustNot⟩
  | .globalFlow => ⟨"GlobalFlow", .idb,
      [⟨"source_id", .valueId⟩, ⟨"sink_id", .valueId⟩, ⟨"epistemic", .epistemic⟩],
      withoutMustNot⟩
  | .supportGlobalFlow => ⟨"SupportGlobalFlow", .edb,
      [⟨"source_id", .valueId⟩, ⟨"sink_id", .valueId⟩, ⟨"epistemic", .epistemic⟩],
      withoutMustNot⟩
  | .unknownEffect => ⟨"UnknownEffect", .idb,
      [⟨"function_id", .functionId⟩, ⟨"subject", .string⟩, ⟨"reason", .string⟩,
        ⟨"epistemic", .epistemic⟩], unresolvedCallStates⟩
  | .supportUnknownEffect => ⟨"SupportUnknownEffect", .edb,
      [⟨"function_id", .functionId⟩, ⟨"subject", .string⟩, ⟨"reason", .string⟩,
        ⟨"epistemic", .epistemic⟩], unresolvedCallStates⟩
  | .soundnessCoverage => ⟨"SoundnessCoverage", .idb,
      [⟨"scope_id", .string⟩, ⟨"coverage_kind", .string⟩, ⟨"complete", .uint64⟩,
        ⟨"epistemic", .epistemic⟩], coverageStates⟩
  | .unmodeledExternal => ⟨"UnmodeledExternal", .edb, [⟨"function_id", .functionId⟩], noEpistemic⟩
  | .queryCompletion => ⟨"evidence.query_completion.v1", .edb,
      [⟨"query_kind", .string⟩, ⟨"ordered_scope_refs", .string⟩, ⟨"budget", .string⟩,
        ⟨"query_implementation_version", .string⟩, ⟨"input_snapshot_fingerprint", .string⟩,
        ⟨"completeness", .string⟩, ⟨"ordered_truncation_reasons", .string⟩,
        ⟨"examined_items", .uint64⟩, ⟨"returned_member_digest", .string⟩], noEpistemic⟩

theorem RelationId.ordinal_injective : Injective RelationId.ordinal :=
  LeftInverse.injective (g := RelationId.ofNat) RelationId.ofNat_ctorIdx

/-- The relation ids in table order. -/
def relationIds : List RelationId := (List.range 28).map RelationId.ofNat

def findByName (name : String) : Option RelationId :=
  relationIds.find? fun relation => (relationsV2 relation).name = name

theorem findByName_name (relation : RelationId) :
    findByName (relationsV2 relation).name = some relation := by
  cases relation <;> decide

/-- Relation names are the durable identity, so no two relations share one. -/
theorem relationsV2_name_injective : Injective fun r => (relationsV2 r).name := by
  intro a b h
  have hfind := congrArg findByName h
  simpa [findByName_name] using hfind

end Veritas

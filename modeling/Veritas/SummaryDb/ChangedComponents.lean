import Veritas.SummaryDb.SummaryDelta

/-! Which changes of a summary its component digests show. -/
namespace Veritas.SummaryDb

open Summary List ComponentDelta SummaryDelta

def ComponentDelta.changed (component : ComponentDelta) : Bool :=
  component.semanticChanged || component.evidenceChanged

/-- A delta with more components compared. -/
def SummaryDelta.extend (delta : SummaryDelta) (compared : List ComponentDelta) : SummaryDelta :=
  { delta with
    changedComponents := delta.changedComponents ++ compared.filter ComponentDelta.changed
    semanticChanged := delta.semanticChanged || compared.any ComponentDelta.semanticChanged
    evidenceChanged := delta.evidenceChanged || compared.any ComponentDelta.evidenceChanged }

theorem SummaryDelta.extend_extend (delta : SummaryDelta) (first second : List ComponentDelta) :
    (delta.extend first).extend second = delta.extend (first ++ second) := by
  simp [extend, Bool.or_assoc]

section Loop

variable {sha256 : String → String} {old new : V1.FunctionSummary}

theorem compareComponent_eq (delta : SummaryDelta) (kind : ComponentKind) :
    compareComponent sha256 old new delta kind =
      delta.extend [componentDelta sha256 old new kind] := by
  unfold compareComponent SummaryDelta.extend
  generalize componentDelta sha256 old new kind = component
  cases hsemantic : component.semanticChanged <;> cases hevidence : component.evidenceChanged <;>
    simp [ComponentDelta.changed, hsemantic, hevidence]

theorem foldl_compareComponent (delta : SummaryDelta) (kinds : List ComponentKind) :
    kinds.foldl (compareComponent sha256 old new) delta =
      delta.extend (kinds.map (componentDelta sha256 old new)) := by
  induction kinds generalizing delta with
  | nil => simp [extend]
  | cons kind kinds ih =>
    rw [foldl_cons, ih, compareComponent_eq, extend_extend]
    rfl

end Loop

/-- The bytes of the components of the two summaries hash to equal digests only when equal. -/
def CollisionFree (sha256 : String → String) (old new : V1.FunctionSummary) : Prop :=
  ∀ kind ∈ componentKinds, (sha256 ((V1.component kind).serializeSemantic old) =
        sha256 ((V1.component kind).serializeSemantic new) →
      (V1.component kind).serializeSemantic old = (V1.component kind).serializeSemantic new) ∧
    (sha256 ((V1.component kind).serializeEvidence old) =
        sha256 ((V1.component kind).serializeEvidence new) →
      (V1.component kind).serializeEvidence old = (V1.component kind).serializeEvidence new)

section Diff

variable {codec : SummaryCodec} {old new : V1.FunctionSummary} {delta : SummaryDelta}
  {kind : ComponentKind}

theorem exists_diffSummaries (hold : (codec.serializeV1 old).isSome)
    (hnew : (codec.serializeV1 new).isSome) : ∃ delta, diffSummaries codec old new = .ok delta := by
  obtain ⟨oldBytes, hold⟩ := Option.isSome_iff_exists.mp hold
  obtain ⟨newBytes, hnew⟩ := Option.isSome_iff_exists.mp hnew
  simp only [diffSummaries, SummaryCodec.computeFunctionSummaryId, SummaryCodec.serialize, hold,
    hnew]
  exact ⟨_, rfl⟩

section

variable (h : diffSummaries codec old new = .ok delta)
include h

theorem extend_of_diffSummaries : ∃ oldId newId, delta = extend ⟨oldId, newId, [], false, false⟩
      (componentKinds.map (componentDelta codec.sha256 old new)) := by
  unfold diffSummaries at h
  cases hold : codec.computeFunctionSummaryId (.v1 old) with
  | error status =>
    rw [hold] at h
    cases h
  | ok oldId =>
    cases hnew : codec.computeFunctionSummaryId (.v1 new) with
    | error status =>
      rw [hold, hnew] at h
      cases h
    | ok newId =>
      rw [hold, hnew] at h
      exact ⟨oldId, newId, (Except.ok.inj h).symm.trans (foldl_compareComponent _ _)⟩

/-- A listed component of a kind is the one the loop compared. -/
theorem exists_listed_iff (hkind : kind ∈ componentKinds) {flag : ComponentDelta → Bool}
    (hflag : ∀ component, flag component = true → component.changed = true) :
    (∃ component ∈ delta.changedComponents,
        component.componentKind = kind ∧ flag component = true) ↔
      flag (componentDelta codec.sha256 old new kind) = true := by
  obtain ⟨oldId, newId, rfl⟩ := extend_of_diffSummaries h
  simp only [extend, nil_append, mem_filter, mem_map]
  constructor
  · rintro ⟨_, ⟨⟨listed, -, rfl⟩, -⟩, rfl, htrue⟩
    exact htrue
  · intro htrue
    exact ⟨_, ⟨⟨kind, hkind, rfl⟩, hflag _ htrue⟩, rfl, htrue⟩

theorem reports_iff (hkind : kind ∈ componentKinds) :
    (delta.ReportsSemantic kind ↔
      (componentDelta codec.sha256 old new kind).semanticChanged = true) ∧
    (delta.ReportsEvidence kind ↔
      (componentDelta codec.sha256 old new kind).evidenceChanged = true) := by
  rw [SummaryDelta.ReportsSemantic, SummaryDelta.ReportsEvidence,
    exists_listed_iff h hkind (by simp +contextual [changed]),
    exists_listed_iff h hkind (by simp +contextual [changed]),
    and_iff_right_iff_imp, and_iff_right_iff_imp]
  obtain ⟨oldId, newId, rfl⟩ := extend_of_diffSummaries h
  simp only [extend, Bool.false_or, any_map, any_eq_true]
  exact ⟨fun hchanged => ⟨kind, hkind, hchanged⟩, fun hchanged => ⟨kind, hkind, hchanged⟩⟩

/-- A diff shows the changes of a kind exactly when its bytes never miss one. -/
theorem reports_iff_neverMisses
    (hcollision : CollisionFree codec.sha256 old new) (hkind : kind ∈ componentKinds) :
    ((¬ (V1.component kind).SameFacts old new → delta.ReportsSemantic kind) ∧
      (¬ (V1.component kind).SameEvidence old new → delta.ReportsEvidence kind)) ↔
      (V1.component kind).NeverMisses old new := by
  obtain ⟨hsemantic, hevidence⟩ := hcollision kind hkind
  have hsemantic : (componentDelta codec.sha256 old new kind).semanticChanged = true ↔
      (V1.component kind).serializeSemantic old ≠ (V1.component kind).serializeSemantic new := by
    rw [ComponentDelta.semanticChanged, decide_eq_true_iff]
    exact not_congr ⟨hsemantic, congrArg codec.sha256⟩
  have hevidence : (componentDelta codec.sha256 old new kind).evidenceChanged = true ↔
      (V1.component kind).serializeEvidence old ≠ (V1.component kind).serializeEvidence new := by
    rw [ComponentDelta.evidenceChanged, decide_eq_true_iff]
    exact not_congr ⟨hevidence, congrArg codec.sha256⟩
  rw [(reports_iff h hkind).1, (reports_iff h hkind).2, hsemantic, hevidence]
  exact and_congr not_imp_not not_imp_not

end

end Diff

/-- Over texts without a NUL, the bytes of a component miss no change exactly when its fields and
references fall into lists and texts in one way, and then a diff shows every change. -/
theorem digests_never_miss_iff_framed (codec : SummaryCodec) :
    (∀ (kind : ComponentKind) (s t : V2.FunctionSummary),
      (V2.component kind).NulFree s → (V2.component kind).NulFree t →
        ((V2.component kind).NeverMisses s t ↔ (V2.component kind).Framed s t)) ∧
    (∀ (kind : ComponentKind) (s t : V1.FunctionSummary),
      (V1.component kind).NulFree s → (V1.component kind).NulFree t →
        ((V1.component kind).NeverMisses s t ↔ (V1.component kind).Framed s t)) ∧
    ∀ old new : V1.FunctionSummary,
      (codec.serializeV1 old).isSome → (codec.serializeV1 new).isSome →
      CollisionFree codec.sha256 old new →
      ∃ delta, diffSummaries codec old new = .ok delta ∧ ∀ kind ∈ componentKinds,
        (V1.component kind).NulFree old → (V1.component kind).NulFree new →
        (((¬ (V1.component kind).SameFacts old new → delta.ReportsSemantic kind) ∧
          (¬ (V1.component kind).SameEvidence old new → delta.ReportsEvidence kind)) ↔
          (V1.component kind).Framed old new) := by
  refine ⟨fun kind s t hs ht => Component.neverMisses_iff_framed hs ht,
    fun kind s t hs ht => Component.neverMisses_iff_framed hs ht, ?_⟩
  intro old new hold hnew hcollision
  obtain ⟨delta, h⟩ := exists_diffSummaries hold hnew
  refine ⟨delta, h, fun kind hkind hfreeOld hfreeNew => ?_⟩
  rw [reports_iff_neverMisses h hcollision hkind]
  exact Component.neverMisses_iff_framed hfreeOld hfreeNew

/-- A hash without collisions. -/
def plainCodec : SummaryCodec where
  sha256 := id
  serializeV1 summary := some summary.identity.functionVariantId
  serializeV2 summary := some summary.identity.functionVariantId
  parseV1 _ := none
  parseV2 _ := none

def assumingSummary (refs : List String) : V1.FunctionSummary where
  header := ⟨"summary.v1", 0⟩
  identity := ⟨"", "r", "debug", "f", ""⟩
  assumptions := refs.map fun ref => ⟨"no overflow", "n < 8", ref⟩

def flowSummary (parameterFlows : List V2.ParameterFlow) (returnFlows : List V2.ReturnFlow) :
    V2.FunctionSummary where
  header := ⟨"summary.v2", 0⟩
  identity := ⟨"", "r", "debug", "f", ""⟩
  parameterFlows := parameterFlows
  returnFlows := returnFlows

def blockSummary (predecessors successors : List String) : V1.FunctionSummary where
  header := ⟨"summary.v1", 0⟩
  identity := ⟨"", "r", "debug", "f", ""⟩
  controlFlow := [⟨⟨"b", "f", ["a"], predecessors, successors⟩, []⟩]

/-- The reference of an assumption changes, and the diff lists the assumptions. -/
theorem digests_never_miss_iff_framed_sample :
    (V2.component 3).NeverMisses (flowSummary [⟨"c", "x", "y", 1, "p"⟩] [])
      (flowSummary [⟨"c", "x", "z", 1, "p"⟩] []) ∧
    ∃ delta, diffSummaries plainCodec (assumingSummary ["p1"]) (assumingSummary ["p2"]) =
      .ok delta ∧ delta.ReportsEvidence 12 := by
  obtain ⟨hv2, -, hdiff⟩ := digests_never_miss_iff_framed plainCodec
  constructor
  · refine (hv2 3 _ _ ?_ ?_).mpr fun h => absurd h (by decide +kernel)
    · exact ⟨by decide +kernel, by decide +kernel⟩
    · exact ⟨by decide +kernel, by decide +kernel⟩
  · obtain ⟨delta, h, hreports⟩ := hdiff (assumingSummary ["p1"]) (assumingSummary ["p2"]) rfl rfl
      fun _ _ => ⟨id, id⟩
    refine ⟨delta, h, ((hreports 12 (by decide) ?_ ?_).mpr ?_).2 ?_⟩
    · exact ⟨by decide +kernel, by decide +kernel⟩
    · exact ⟨by decide +kernel, by decide +kernel⟩
    · exact fun _ => ⟨rfl, fun _ => rfl⟩
    · intro hsame
      exact absurd (show (assumingSummary ["p1"]).assumptions = _ from hsame) (by decide +kernel)

/-- An argument flow and a result flow of the same texts have the same bytes, and so have
predecessors and successors of a block, and references cut at different places. The diff of the
last two pairs is empty. -/
theorem changes_without_digest :
    ((V2.component 3).serializeSemantic (flowSummary [⟨"c", "x", "y", 1, "p"⟩] []) =
        (V2.component 3).serializeSemantic (flowSummary [] [⟨"c", "x", "y", 1, "p"⟩]) ∧
      ¬ (V2.component 3).SameFacts (flowSummary [⟨"c", "x", "y", 1, "p"⟩] [])
        (flowSummary [] [⟨"c", "x", "y", 1, "p"⟩])) ∧
    (((diffSummaries plainCodec (blockSummary ["s"] []) (blockSummary [] ["s"])).toOption.map
        changedComponents = some []) ∧
      ¬ (V1.component 4).SameFacts (blockSummary ["s"] []) (blockSummary [] ["s"])) ∧
    ((diffSummaries plainCodec (assumingSummary ["p", "12"])
        (assumingSummary ["p1", "2"])).toOption.map changedComponents = some []) ∧
      (assumingSummary ["p", "12"]).assumptions ≠ (assumingSummary ["p1", "2"]).assumptions := by
  refine ⟨⟨by decide +kernel, fun h => ?_⟩, ⟨by decide +kernel, fun h => ?_⟩, by decide +kernel,
    by decide +kernel⟩
  · exact absurd (show (flowSummary [⟨"c", "x", "y", 1, "p"⟩] []).flows.map V2.Flow.erased = _
      from h) (by decide +kernel)
  · exact absurd (show (blockSummary ["s"] []).controlFlow.map ControlFlowSummary.erased = _ from h)
      (by decide +kernel)

end Veritas.SummaryDb

import Veritas.Wpa.FlowFixpoint

/-! The effects closure, and the evaluator as a whole: least rows closed under the rules. -/
namespace Veritas

open Saturation Ordered StatusOr EffectsInput List

variable {t : UnknownTuple} {f : UnknownFiring} {d : EffectsInput}

namespace EffectsInput

def rules (d : EffectsInput) : Set UnknownFiring :=
  {f | (∃ call ∈ d.calls, ∃ t, unknownTransitive call t = some f) ∨
    ∃ call ∈ d.calls, ∃ p ∈ d.support, unknownSupport call p = some f}

theorem generates (d : EffectsInput) : d.system.Generates d.rules := by
  intro s f
  refine mem_fire.trans ⟨?_, ?_⟩
  · rintro (⟨call, hcall, t, ht, hf⟩ | hf)
    · refine ⟨.inl ⟨call, hcall, t, hf⟩, ?_⟩
      obtain ⟨-, e, -, rfl⟩ := unknownTransitive_eq_some.mp hf
      simpa using ht
    · refine ⟨.inr hf, ?_⟩
      obtain ⟨call, -, p, -, hf⟩ := hf
      obtain ⟨-, e, -, rfl⟩ := unknownSupport_eq_some.mp hf
      simp
  · rintro ⟨⟨call, hcall, t, hf⟩ | hf, hprem⟩
    · obtain ⟨-, e, -, rfl⟩ := unknownTransitive_eq_some.mp hf
      exact .inl ⟨call, hcall, t, by simpa using hprem, hf⟩
    · exact .inr hf

theorem callSeed_eq_some {base : UnknownTuple × SemanticRow} :
    callSeed base = some f ↔
      base.1.epistemic ≠ .mustNot ∧
        f = seedFiring base.1 "wpa.effect.unknown.call.v2" base.2 := by
  unfold callSeed
  split_ifs with h
  · simp only [weaknessRank_isSome.mp h, ne_eq, not_false_eq_true, true_and, Option.some.injEq,
      eq_comm]
  · simp [not_not.mp (mt weaknessRank_isSome.mpr h)]

theorem externalSeed_eq_some {call : CallEdgeTuple} :
    d.externalSeed call = some f ↔
      call.callee ∈ d.externals ∧ ∃ stable, d.functionStable call.callee = some stable ∧
        f = seedFiring ⟨call.caller, stable, "unmodeled_external", .may⟩
          "wpa.effect.unknown.external.v2" call.row := by
  unfold externalSeed
  split_ifs with h
  · simp only [h, true_and, Option.map_eq_some_iff]
    exact exists_congr fun stable => and_congr_right fun _ => eq_comm
  · simp [h]

theorem featureSeed_eq_some {feature : String × SemanticRow} :
    d.featureSeed feature = some f ↔
      ∃ function kind, d.stableToFunction feature.1 = some function ∧
        feature.2.cells[1]? = some (.string kind) ∧
          f = seedFiring ⟨function, kind, "unsupported_feature", .unknown⟩
            "wpa.effect.unknown.feature.v2" feature.2 := by
  have hkind : ∀ kind, feature.2.cells[1]?.bind (·.string?) = some kind ↔
      feature.2.cells[1]? = some (.string kind) := by
    intro kind
    cases feature.2.cells[1]? with
    | none => simp
    | some cell => cases cell <;> simp [SemanticCellValue.string?]
  unfold featureSeed
  simp only [← hkind]
  cases d.stableToFunction feature.1 with
  | none => simp
  | some function =>
    cases feature.2.cells[1]?.bind (·.string?) with
    | none => simp
    | some kind => simp [eq_comm]

/-- The three kinds of seeds. -/
theorem mem_seeds :
    f ∈ d.seeds ↔
      (∃ p ∈ d.base, callSeed p = some f) ∨ (∃ call ∈ d.calls, d.externalSeed call = some f) ∨
        ∃ p ∈ d.features, d.featureSeed p = some f := by
  simp [seeds]

theorem seeds_premises (d : EffectsInput) : ∀ f ∈ d.seeds, f.premises = [] := by
  intro f hf
  rcases mem_seeds.mp hf with ⟨p, -, hf⟩ | ⟨call, -, hf⟩ | ⟨p, -, hf⟩
  · obtain ⟨-, rfl⟩ := callSeed_eq_some.mp hf
    rfl
  · obtain ⟨-, stable, -, rfl⟩ := externalSeed_eq_some.mp hf
    rfl
  · obtain ⟨function, kind, -, -, rfl⟩ := featureSeed_eq_some.mp hf
    rfl

theorem mem_close :
    t ∈ d.close.derived ↔ Derivable (allRules d.seeds d.rules) t :=
  mem_saturate_derived d.generates d.seeds_premises d.seeds_carrier

end EffectsInput

section Effects

variable {input : WpaLogicalComponentInput} {d : EffectsInput}

/-- The effects input holds exactly what the input's rows read as. -/
structure EffectsInput.Reads (d : EffectsInput) (input : WpaLogicalComponentInput) : Prop where
  calls : ∀ call, call ∈ d.calls ↔ ReadsEffect input (.call call)
  base : ∀ t row, (t, row) ∈ d.base ↔ ReadsEffect input (.unknownCall t row)
  support : ∀ t row, (t, row) ∈ d.support ↔ ReadsEffect input (.support t row)
  externals : ∀ f, f ∈ d.externals ↔ ReadsEffect input (.unmodeledExternal f)
  features : ∀ node row, (node, row) ∈ d.features ↔
    ReadsEffect input (.unsupportedFeature node row)
  functionMap : d.functionMap = input.edb.filterMap (functionMapPair input.mappings)

theorem effectsInput_reads (h : effectsInput input = .ok d) : d.Reads input := by
  obtain ⟨rows, hrows, hd⟩ := bind_eq_ok.mp h
  obtain rfl := pure_eq_ok.mp hd
  have hmem : ∀ effect, effect ∈ rows.filterMap id ↔ ReadsEffect input effect := by
    intro effect
    simp only [mem_filterMap, id_eq, exists_eq_right, ReadsEffect]
    exact mem_of_mapM hrows
  constructor
  case functionMap =>
    rw [ofRows]
    clear h hd hmem
    rw [mapM_eq_ok] at hrows
    generalize input.edb = edb at hrows ⊢
    induction hrows with
    | nil => rfl
    | @cons row effect _ _ hread _ ih =>
      cases effect with
      | none => simpa [functionMapPair, hread] using ih
      | some effect => cases effect <;> simpa [functionMapPair, hread] using ih
  all_goals
    intros
    rw [← hmem, ofRows, mem_filterMap]
    exact ⟨fun ⟨e, he, heq⟩ => by cases e <;> simp_all, fun he => ⟨_, he, rfl⟩⟩

theorem EffectsInput.Reads.functionStable_eq (h : d.Reads input) (f : StableId) :
    d.functionStable f = mappedText input f := by
  rw [functionStable, mappedText, h.functionMap]

theorem EffectsInput.Reads.stableToFunction_eq (h : d.Reads input) (node : String) :
    d.stableToFunction node = mappedFunction input node := by
  rw [stableToFunction, mappedFunction, h.functionMap]

theorem unknownResultRow_inj {t' : UnknownTuple} :
    unknownResultRow t = unknownResultRow t' ↔ t = t' := by
  cases t
  cases t'
  simp [unknownResultRow]

theorem EffectsInput.mem_gaps {scope : String} :
    (scope, t) ∈ d.gaps ↔ t ∈ d.close.derived ∧ d.functionStable t.function = some scope := by
  simp [gaps]

theorem EffectsInput.mem_results {r : SemanticRow} :
    r ∈ d.collect.results ↔
      (∃ t ∈ d.close.derived, r = unknownResultRow t) ∨
        ∃ t ∈ d.close.derived, ∃ scope, d.functionStable t.function = some scope ∧
          r = coverageResultRow scope 0 := by
  simp only [collect, mem_append, mem_map, mem_ascending, mem_eraseDups, Prod.exists,
    exists_and_right, exists_eq_right, mem_gaps, eq_comm (a := r)]
  refine or_congr_right ⟨?_, ?_⟩
  · rintro ⟨scope, ⟨t, ht, hs⟩, hr⟩
    exact ⟨t, ht, scope, hs, hr⟩
  · rintro ⟨t, ht, scope, hs, hr⟩
    exact ⟨scope, ⟨t, ht, hs⟩, hr⟩

theorem EffectsInput.unknown_mem_results :
    unknownResultRow t ∈ d.collect.results ↔ t ∈ d.close.derived := by
  rw [mem_results]
  constructor
  · rintro (⟨t', ht', heq⟩ | ⟨t', -, scope, -, heq⟩)
    · rwa [unknownResultRow_inj.mp heq]
    · exact absurd (congrArg SemanticRow.relation heq) (by simp [unknownResultRow, coverageResultRow])
  · exact fun ht => .inl ⟨t, ht, rfl⟩

theorem EffectsInput.collect_closed (h : d.Reads input) :
    EffectsClosed input {r | r ∈ d.collect.results} := by
  have hrules : ∀ f : UnknownFiring, f ∈ d.rules → (∀ p ∈ f.premises, p ∈ d.close.derived) →
      unknownResultRow f.conclusion ∈ d.collect.results := by
    intro f hf hp
    refine unknown_mem_results.mpr (mem_close.mpr (.rule hf ?_))
    exact fun p hpf => mem_close.mp (hp p hpf)
  have hseeds : ∀ f ∈ d.seeds, unknownResultRow f.conclusion ∈ d.collect.results := by
    intro f hf
    refine unknown_mem_results.mpr (mem_close.mpr (.seed hf ?_))
    exact d.seeds_premises f hf
  refine ⟨?_, ?_, ?_, ?_, ?_, ?_⟩
  · intro t row hread hpos
    exact hseeds _ (mem_seeds.mpr (.inl ⟨_, (h.base t row).mpr hread,
      callSeed_eq_some.mpr ⟨hpos, rfl⟩⟩))
  · intro call stable hcall hext hmap
    exact hseeds _ (mem_seeds.mpr (.inr (.inl ⟨call, (h.calls call).mpr hcall,
      externalSeed_eq_some.mpr ⟨(h.externals _).mpr hext, stable,
        (h.functionStable_eq _).trans hmap, rfl⟩⟩)))
  · intro node row function kind hread hmap hkind
    exact hseeds _ (mem_seeds.mpr (.inr (.inr ⟨(node, row), (h.features node row).mpr hread,
      featureSeed_eq_some.mpr ⟨function, kind, (h.stableToFunction_eq _).trans hmap, hkind,
        rfl⟩⟩)))
  · intro call subject reason e c hcall hfact hc
    have ht := unknown_mem_results.mp hfact
    have hf : unknownTransitive call ⟨call.callee, subject, reason, e⟩ = some _ :=
      unknownTransitive_eq_some.mpr ⟨rfl, c, weaken_eq_some.mpr hc, rfl⟩
    exact hrules _ (.inl ⟨call, (h.calls call).mpr hcall, _, hf⟩) (by simpa using ht)
  · intro call subject reason e c row hcall hsup hc
    have hf : unknownSupport call (⟨call.callee, subject, reason, e⟩, row) = some _ :=
      unknownSupport_eq_some.mpr ⟨rfl, c, weaken_eq_some.mpr hc, rfl⟩
    exact hrules _ (.inr ⟨call, (h.calls call).mpr hcall, _, (h.support _ _).mpr hsup, hf⟩)
      (by simp)
  · intro t scope hfact hmap
    exact mem_results.mpr (.inr ⟨t, unknown_mem_results.mp hfact, scope,
      (h.functionStable_eq _).trans hmap, rfl⟩)

theorem EffectsInput.collect_least (h : d.Reads input) {facts : Set SemanticRow}
    (hfacts : EffectsClosed input facts) : ∀ r ∈ d.collect.results, r ∈ facts := by
  have hunknown : ∀ t ∈ d.close.derived, unknownResultRow t ∈ facts := by
    intro t ht
    rw [mem_close] at ht
    induction ht with
    | @fire f hf _ ih =>
      rcases hf with hf | ⟨call, hcall, t, hf⟩ | ⟨call, hcall, p, hp, hf⟩
      · rcases mem_seeds.mp hf with ⟨⟨t, row⟩, hb, hf⟩ | ⟨call, hcall, hf⟩ | ⟨⟨n, row⟩, hn, hf⟩
        · obtain ⟨hpos, rfl⟩ := callSeed_eq_some.mp hf
          exact hfacts.unknownCall t row ((h.base t row).mp hb) hpos
        · obtain ⟨hext, stable, hmap, rfl⟩ := externalSeed_eq_some.mp hf
          exact hfacts.external call stable ((h.calls call).mp hcall) ((h.externals _).mp hext)
            ((h.functionStable_eq _).symm.trans hmap)
        · obtain ⟨function, kind, hmap, hkind, rfl⟩ := featureSeed_eq_some.mp hf
          exact hfacts.feature n row function kind ((h.features n row).mp hn)
            ((h.stableToFunction_eq _).symm.trans hmap) hkind
      · obtain ⟨hfun, e, he, rfl⟩ := unknownTransitive_eq_some.mp hf
        obtain ⟨function, subject, reason, e'⟩ := t
        obtain rfl : function = call.callee := hfun
        exact hfacts.transitive call _ _ _ _ ((h.calls call).mp hcall)
          (ih _ mem_cons_self) (weaken_eq_some.mp he)
      · obtain ⟨hfun, e, he, rfl⟩ := unknownSupport_eq_some.mp hf
        obtain ⟨⟨function, subject, reason, e'⟩, row⟩ := p
        obtain rfl : function = call.callee := hfun
        exact hfacts.support call _ _ _ _ row ((h.calls call).mp hcall)
          ((h.support _ _).mp hp) (weaken_eq_some.mp he)
  intro r hr
  rcases mem_results.mp hr with ⟨t, ht, rfl⟩ | ⟨t, ht, scope, hmap, rfl⟩
  · exact hunknown t ht
  · exact hfacts.coverage t scope (hunknown t ht) ((h.functionStable_eq _).symm.trans hmap)

end Effects

variable {input : WpaLogicalComponentInput}

theorem evaluate_flow {d : FlowInput}
    (hc : input.component = .flow) (hd : flowInput input = .ok d) :
    evaluate input = .ok d.collect := by
  rw [evaluate, if_pos hc]
  exact bind_eq_ok.mpr ⟨d, hd, rfl⟩

theorem evaluate_effects
    (hc : input.component = .effects) (hd : effectsInput input = .ok d) :
    evaluate input = .ok d.collect := by
  rw [evaluate, if_neg (by simp [hc]), if_pos hc]
  exact bind_eq_ok.mpr ⟨d, hd, rfl⟩

theorem evaluate_calls {ds : List DomainInput}
    (hflow : input.component ≠ .flow) (heffects : input.component ≠ .effects)
    (hd : callInputs input = .ok ds) : evaluate input = .ok (collect ds) := by
  rw [evaluate, if_neg hflow, if_neg heffects]
  exact bind_eq_ok.mpr ⟨ds, hd, rfl⟩

theorem two_le_of_readTuple {ids : ResolvedRow → List StableId} {mappings : StableIdMappings}
    {missing : String} {row : ExecutionRow} {read : DerivedTuple × SemanticRow}
    (h : readTuple ids mappings missing row = .ok read) :
    ∃ resolved, resolveRow mappings row = .ok resolved ∧ 2 ≤ (ids resolved).length := by
  obtain ⟨resolved, hres, ht, -⟩ := readTuple_eq_ok.mp h
  refine ⟨resolved, hres, ?_⟩
  unfold ResolvedRow.tuple at ht
  split at ht
  · rename_i hids _
    simp [hids]
  · simp at ht

/-- `Evaluate` succeeds only on rows that resolve. -/
theorem resolves_of_evaluate {raw : RawWpaEvaluation}
    (h : evaluate input = .ok raw) : Resolves input := by
  have hcalls : ∀ ds, callInputs input = .ok ds → ∀ row ∈ input.edb,
      row.relation = .directCall ∨ (∃ domain ∈ domainsFor input.component,
        row.relation = domain.baseRelation ∨ row.relation = domain.supportRelation) →
      ∃ resolved, resolveRow input.mappings row = .ok resolved ∧
        2 ≤ resolved.endpointIds.length := by
    intro ds hds row hrow hrel
    obtain ⟨calls, hcalls, hds⟩ := bind_eq_ok.mp hds
    rcases hrel with hrel | ⟨domain, hdomain, hrel⟩
    · obtain ⟨call, -, hcall⟩ := forall_of_mapM hcalls row (by simp [hrow, hrel])
      obtain ⟨read, hread, -⟩ := bind_eq_ok.mp hcall
      exact two_le_of_readTuple hread
    · obtain ⟨d, -, hd⟩ := forall_of_mapM hds domain hdomain
      obtain ⟨rows, hrows, -⟩ := bind_eq_ok.mp hd
      obtain ⟨p, -, hp⟩ := forall_of_mapM hrows row (by simp [hrow, hrel])
      obtain ⟨read, hread, -⟩ := bind_eq_ok.mp hp
      exact two_le_of_readTuple hread
  unfold Resolves
  unfold evaluate at h
  cases hc : input.component with
  | flow =>
    rw [if_pos hc] at h
    obtain ⟨d, hd, -⟩ := bind_eq_ok.mp h
    obtain ⟨rows, hrows, -⟩ := bind_eq_ok.mp hd
    intro row hrow hrel
    obtain ⟨p, -, hp⟩ := forall_of_mapM hrows row (by simpa [hrow] using hrel)
    obtain ⟨read, hread, -⟩ := bind_eq_ok.mp hp
    exact two_le_of_readTuple hread
  | effects =>
    rw [if_neg (by simp [hc]), if_pos hc] at h
    obtain ⟨d, hd, -⟩ := bind_eq_ok.mp h
    obtain ⟨rows, hrows, -⟩ := bind_eq_ok.mp hd
    intro row hrow
    obtain ⟨effect, -, heffect⟩ := forall_of_mapM hrows row hrow
    exact ⟨effect, heffect⟩
  | reachability =>
    rw [if_neg (by simp [hc]), if_neg (by simp [hc])] at h
    obtain ⟨ds, hds, -⟩ := bind_eq_ok.mp h
    rw [hc] at hcalls
    exact hcalls ds hds
  | memoryEffects =>
    rw [if_neg (by simp [hc]), if_neg (by simp [hc])] at h
    obtain ⟨ds, hds, -⟩ := bind_eq_ok.mp h
    rw [hc] at hcalls
    exact hcalls ds hds

section Least

variable {input : WpaLogicalComponentInput} (h : Resolves input)

include h

theorem evaluate_flow_least (hc : input.component = .flow) :
    ∃ raw, evaluate input = .ok raw ∧
      IsLeast {facts | FlowClosed input facts} {r | r ∈ raw.results} := by
  rw [Resolves, hc] at h
  obtain ⟨d, hd⟩ := flowInput_isOk h
  exact ⟨_, evaluate_flow hc hd, flow_isLeast hd⟩

theorem evaluate_effects_least (hc : input.component = .effects) :
    ∃ raw, evaluate input = .ok raw ∧
      IsLeast {facts | EffectsClosed input facts} {r | r ∈ raw.results} := by
  rw [Resolves, hc] at h
  obtain ⟨rows, hrows⟩ := mapM_isOk _ _ h
  have hd : effectsInput input = .ok _ := bind_eq_ok.mpr ⟨rows, hrows, rfl⟩
  have hreads := effectsInput_reads hd
  exact ⟨_, evaluate_effects hc hd, collect_closed hreads,
    fun facts hfacts r hr => collect_least hreads hfacts r hr⟩

theorem evaluate_calls_least {component : WpaComponentKind} (hc : input.component = component)
    (hcalls : component = .reachability ∨ component = .memoryEffects) :
    ∃ raw, evaluate input = .ok raw ∧
      IsLeast {facts | ∀ domain ∈ domainsFor component, CallClosed input domain facts}
        {r | r ∈ raw.results} := by
  rcases hcalls with rfl | rfl
  all_goals
    rw [Resolves, hc] at h
    obtain ⟨ds, hds⟩ := callInputs_isOk hc h
    exact ⟨_, evaluate_calls (by simp [hc]) (by simp [hc]) hds, collect_isLeast hc hds⟩

end Least

/-- Three functions that call each other in a ring, one of the calls being only assumed. -/
def ringInput : WpaLogicalComponentInput where
  sccId := ⟨.scc, "ring"⟩
  component := .reachability
  mappings :=
    { functions := ⟨[⟨.functionVariant, "f"⟩, ⟨.functionVariant, "g"⟩, ⟨.functionVariant, "h"⟩],
        List.Pairwise.sortedLT (by decide), by decide, by decide⟩
      values := .empty
      memories := .empty
      callSites := ⟨[⟨.callSite, "1"⟩, ⟨.callSite, "2"⟩, ⟨.callSite, "3"⟩],
        List.Pairwise.sortedLT (by decide), by decide, by decide⟩
      facts := .empty }
  edb :=
    [⟨.directCall, [.callSiteId ⟨0⟩, .functionId ⟨0⟩, .functionId ⟨1⟩, .dispatchKind .direct,
        .epistemic .must]⟩,
      ⟨.directCall, [.callSiteId ⟨1⟩, .functionId ⟨1⟩, .functionId ⟨2⟩, .dispatchKind .direct,
        .epistemic .assumed]⟩,
      ⟨.directCall, [.callSiteId ⟨2⟩, .functionId ⟨2⟩, .functionId ⟨0⟩, .dispatchKind .virtual,
        .epistemic .may]⟩]
  localRoots := []
  successorRoots := []
  logicalInputHash := ""

theorem ringInput_resolves : Resolves ringInput := by
  intro row hrow _
  simp only [ringInput, mem_cons, not_mem_nil, or_false] at hrow
  rcases hrow with rfl | rfl | rfl
  · exact ⟨_, rfl, by decide⟩
  · exact ⟨_, rfl, by decide⟩
  · exact ⟨_, rfl, by decide⟩

end Veritas

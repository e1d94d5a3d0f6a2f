import Veritas.Wpa.DatalogRows

/-! The effects bundle over dense rows, and the rows it publishes. -/
namespace Veritas

open Saturation Ordered StatusOr EffectsInput DenseIdMap List ExecutionCellValue

/-- What the effects component reads off each valid row, cell by cell. -/
inductive EffectOf (m : StableIdMappings) : ExecutionRow → EffectRow → Prop
  | call {cs : CallSiteId} {f g : FunctionId} {d : DispatchKind} {e : EpistemicState}
      {c s o : StableId} : m.callSites.toStable cs = .ok c → m.functions.toStable f = .ok s →
      m.functions.toStable g = .ok o →
      EffectOf m ⟨.directCall, [.callSiteId cs, .functionId f, .functionId g, .dispatchKind d,
        .epistemic e]⟩ (.call ⟨s, o, e, ⟨.directCall, [.stableId c, .stableId s, .stableId o,
          .dispatchKind d, .epistemic e]⟩⟩)
  | unknownCall {cs : CallSiteId} {f : FunctionId} {reason : String} {e : EpistemicState}
      {c s : StableId} : m.callSites.toStable cs = .ok c → m.functions.toStable f = .ok s →
      EffectOf m ⟨.unknownCall, [.callSiteId cs, .functionId f, .string reason, .epistemic e]⟩
        (.unknownCall ⟨s, c.toString, reason, e⟩ ⟨.unknownCall, [.stableId c, .stableId s,
          .string reason, .epistemic e]⟩)
  | support {f : FunctionId} {subject reason : String} {e : EpistemicState} {s : StableId} :
      m.functions.toStable f = .ok s →
      EffectOf m ⟨.supportUnknownEffect, [.functionId f, .string subject, .string reason,
        .epistemic e]⟩ (.support ⟨s, subject, reason, e⟩ ⟨.supportUnknownEffect, [.stableId s,
          .string subject, .string reason, .epistemic e]⟩)
  | functionMap {f : FunctionId} {text : String} {s : StableId} :
      m.functions.toStable f = .ok s →
      EffectOf m ⟨.functionMap, [.functionId f, .string text]⟩ (.functionMap s text)
  | unmodeledExternal {f : FunctionId} {s : StableId} : m.functions.toStable f = .ok s →
      EffectOf m ⟨.unmodeledExternal, [.functionId f]⟩ (.unmodeledExternal s)
  | unsupportedFeature {node kind policy : String} :
      EffectOf m ⟨.unsupportedFeature, [.string node, .string kind, .string policy]⟩
        (.unsupportedFeature node ⟨.unsupportedFeature, [.string node, .string kind,
          .string policy]⟩)

/-- The relations the effects component does not skip. -/
def effectRelations : List RelationId :=
  [.directCall, .unknownCall, .supportUnknownEffect, .functionMap, .unmodeledExternal,
    .unsupportedFeature]

section ReadRow

variable {m : StableIdMappings} {row : ExecutionRow} {effect : EffectRow}

theorem readEffectRow_of_effectOf (h : EffectOf m row effect) :
    readEffectRow m row = .ok (some effect) := by
  cases h with
  | call hc hs ho =>
    simp only [readEffectRow, callEdge, readTuple, resolveRow, foldlM, resolveCell, hc, hs,
      ho, relationsV2]
    rfl
  | unknownCall hc hs =>
    simp only [readEffectRow, readUnknownCall, resolveRow, foldlM, resolveCell, hc, hs,
      relationsV2]
    rfl
  | support hs =>
    simp only [readEffectRow, readSupport, resolveRow, foldlM, resolveCell, hs, relationsV2]
    rfl
  | functionMap hs =>
    simp only [readEffectRow, readFunctionMap, getElem?_cons_zero, getElem?_cons_succ,
      Option.bind_some, functionId?, string?, hs]
    rfl
  | unmodeledExternal hs =>
    simp only [readEffectRow, readUnmodeledExternal, getElem?_cons_zero, Option.bind_some,
      functionId?, hs]
    rfl
  | unsupportedFeature => rfl

/-- A row that resolves decodes in all its cells. -/
theorem cells_of_resolveRow {r : ResolvedRow} (hv : validateExecutionRow row = .ok ())
    (hrel : row.relation ≠ .factMap) (h : resolveRow m row = .ok r) :
    ∃ vs, List.Forall₂ (fun c v => decodeCell m c = .ok v) row.cells vs := by
  obtain ⟨-, sem, hdec, -⟩ := (resolveRow_eq_ok (noFact_of_valid hv hrel)).mp h
  exact ⟨sem.cells, (decodeRow_eq_ok.mp hdec).2⟩

/-- A row of a relation the component reads is read in full. -/
theorem exists_effectOf {o : Option EffectRow} (hv : validateExecutionRow row = .ok ())
    (h : readEffectRow m row = .ok o) :
    (∃ effect, EffectOf m row effect) ∨ o = none ∧ row.relation ∉ effectRelations := by
  obtain ⟨relation, cells⟩ := row
  have hshape := rowShape_of_valid hv
  unfold readEffectRow at h
  split at h
  all_goals try
    rename_i hrel
    obtain rfl : relation = _ := hrel
  · obtain ⟨cs, f, g, d, e, rfl⟩ := hshape
    obtain ⟨call, h, -⟩ := bind_eq_ok.mp h
    obtain ⟨read, h, -⟩ := bind_eq_ok.mp h
    obtain ⟨r, h, -⟩ := bind_eq_ok.mp h
    obtain ⟨vs, hcells⟩ := cells_of_resolveRow hv (by simp) h
    obtain _ | ⟨hc, _ | ⟨hf, _ | ⟨hg, -⟩⟩⟩ := hcells
    obtain ⟨c, hc, -⟩ := decodeCell_callSiteId.mp hc
    obtain ⟨s, hs, -⟩ := decodeCell_functionId.mp hf
    obtain ⟨o, ho, -⟩ := decodeCell_functionId.mp hg
    exact .inl ⟨_, .call hc hs ho⟩
  · obtain ⟨cs, f, reason, e, rfl⟩ := hshape
    obtain ⟨_, h, -⟩ := bind_eq_ok.mp h
    obtain ⟨r, h, -⟩ := bind_eq_ok.mp h
    obtain ⟨vs, hcells⟩ := cells_of_resolveRow hv (by simp) h
    obtain _ | ⟨hc, _ | ⟨hf, -⟩⟩ := hcells
    obtain ⟨c, hc, -⟩ := decodeCell_callSiteId.mp hc
    obtain ⟨s, hs, -⟩ := decodeCell_functionId.mp hf
    exact .inl ⟨_, .unknownCall hc hs⟩
  · obtain ⟨f, subject, reason, e, rfl⟩ := hshape
    obtain ⟨_, h, -⟩ := bind_eq_ok.mp h
    obtain ⟨r, h, -⟩ := bind_eq_ok.mp h
    obtain ⟨vs, hcells⟩ := cells_of_resolveRow hv (by simp) h
    obtain _ | ⟨hf, -⟩ := hcells
    obtain ⟨s, hs, -⟩ := decodeCell_functionId.mp hf
    exact .inl ⟨_, .support hs⟩
  · obtain ⟨f, text, rfl⟩ := hshape
    obtain ⟨_, h, -⟩ := bind_eq_ok.mp h
    obtain ⟨s, hs, -⟩ := bind_eq_ok.mp h
    exact .inl ⟨_, .functionMap hs⟩
  · obtain ⟨f, rfl⟩ := hshape
    obtain ⟨_, h, -⟩ := bind_eq_ok.mp h
    obtain ⟨s, hs, -⟩ := bind_eq_ok.mp h
    exact .inl ⟨_, .unmodeledExternal hs⟩
  · obtain ⟨node, kind, policy, rfl⟩ := hshape
    exact .inl ⟨_, .unsupportedFeature⟩
  · refine .inr ⟨(pure_eq_ok.mp h).symm, ?_⟩
    simp only [effectRelations, mem_cons, not_mem_nil, or_false]
    rintro (hrel | hrel | hrel | hrel | hrel | hrel) <;> contradiction

theorem readEffectRow_iff (hv : validateExecutionRow row = .ok ()) :
    readEffectRow m row = .ok (some effect) ↔ EffectOf m row effect := by
  refine ⟨fun h => ?_, readEffectRow_of_effectOf⟩
  rcases exists_effectOf hv h with ⟨effect', he⟩ | ⟨hnone, -⟩
  · obtain rfl := Option.some.inj (Except.ok.inj (h.symm.trans (readEffectRow_of_effectOf he)))
    exact he
  · simp at hnone

end ReadRow

variable {e : EpistemicState} {s : StableId} {text : String} {x : String × String}

section Reads

variable {input : WpaLogicalComponentInput}
  (hvalid : ∀ row ∈ input.edb, validateExecutionRow row = .ok ())
  (hres : ∀ row ∈ input.edb, ∃ effect, readEffectRow input.mappings row = .ok effect)

include hvalid

theorem readsEffect_iff {effect : EffectRow} :
    ReadsEffect input effect ↔ ∃ row ∈ input.edb, EffectOf input.mappings row effect :=
  exists_congr fun row => and_congr_right fun hrow => readEffectRow_iff (hvalid row hrow)

theorem readsUnknownCall_iff {subject reason : String} :
    (∃ row, ReadsEffect input (.unknownCall ⟨s, subject, reason, e⟩ row)) ↔
      ∃ cs f c, ⟨.unknownCall, [.callSiteId cs, .functionId f, .string reason, .epistemic e]⟩ ∈
        input.edb ∧ input.mappings.callSites.toStable cs = .ok c ∧ subject = c.toString ∧
          input.mappings.functions.toStable f = .ok s := by
  simp only [readsEffect_iff hvalid]
  constructor
  · rintro ⟨_, row, hrow, h⟩
    cases h with
    | unknownCall hc hs => exact ⟨_, _, _, hrow, hc, rfl, hs⟩
  · rintro ⟨cs, f, c, hrow, hc, rfl, hs⟩
    exact ⟨_, _, hrow, .unknownCall hc hs⟩

theorem readsSupport_iff :
    (∃ row, ReadsEffect input (.support ⟨s, x.1, x.2, e⟩ row)) ↔
      ∃ f, Datalog.SupportUnknownEffect input.edb f x e ∧
        input.mappings.functions.toStable f = .ok s := by
  simp only [readsEffect_iff hvalid]
  constructor
  · rintro ⟨_, row, hrow, h⟩
    cases h with
    | support hs => exact ⟨_, hrow, hs⟩
  · rintro ⟨f, hrow, hs⟩
    exact ⟨_, _, hrow, .support hs⟩

theorem readsExternal_iff : ReadsEffect input (.unmodeledExternal s) ↔
    ∃ f, ⟨.unmodeledExternal, [.functionId f]⟩ ∈ input.edb ∧
      input.mappings.functions.toStable f = .ok s := by
  rw [readsEffect_iff hvalid]
  constructor
  · rintro ⟨row, hrow, h⟩
    cases h with
    | unmodeledExternal hs => exact ⟨_, hrow, hs⟩
  · rintro ⟨f, hrow, hs⟩
    exact ⟨_, hrow, .unmodeledExternal hs⟩

theorem readsFeature_iff {node kind : String} :
    (∃ row, ReadsEffect input (.unsupportedFeature node row) ∧
      row.cells[1]? = some (.string kind)) ↔
      ∃ policy, ⟨.unsupportedFeature, [.string node, .string kind, .string policy]⟩ ∈
        input.edb := by
  simp only [readsEffect_iff hvalid]
  constructor
  · rintro ⟨_, ⟨row, hrow, ⟨⟩⟩, hkind⟩
    obtain rfl := SemanticCellValue.string.inj (Option.some.inj hkind)
    exact ⟨_, hrow⟩
  · rintro ⟨policy, hrow⟩
    exact ⟨_, ⟨_, hrow, .unsupportedFeature⟩, rfl⟩

theorem mem_functionMapPairs :
    (s, text) ∈ input.edb.filterMap (functionMapPair input.mappings) ↔
      ∃ f, Datalog.FunctionMap input.edb f text ∧ input.mappings.functions.toStable f = .ok s := by
  have hpair : ∀ row, functionMapPair input.mappings row = some (s, text) ↔
      readEffectRow input.mappings row = .ok (some (.functionMap s text)) := by
    intro row
    unfold functionMapPair
    split
    · rename_i h
      simp [h]
    · rename_i h
      simpa using h s text
  simp only [mem_filterMap, hpair]
  refine (readsEffect_iff hvalid).trans ⟨?_, ?_⟩
  · rintro ⟨row, hrow, h⟩
    cases h with
    | functionMap hs => exact ⟨_, hrow, hs⟩
  · rintro ⟨f, hrow, hs⟩
    exact ⟨_, hrow, .functionMap hs⟩

include hres

theorem effectOf_of_mem {row : ExecutionRow} (hrow : row ∈ input.edb)
    (hrel : row.relation ∈ effectRelations) : ∃ effect, EffectOf input.mappings row effect := by
  obtain ⟨o, ho⟩ := hres row hrow
  rcases exists_effectOf (hvalid row hrow) ho with h | ⟨-, hskip⟩
  · exact h
  · exact absurd hrel hskip

theorem directCall_resolves {f g : FunctionId} (h : Datalog.DirectCall input.edb f g e) :
    ∃ s o, input.mappings.functions.toStable f = .ok s ∧
      input.mappings.functions.toStable g = .ok o := by
  obtain ⟨cs, d, hrow⟩ := h
  obtain ⟨_, h⟩ := effectOf_of_mem hvalid hres hrow (by simp [effectRelations])
  cases h with
  | call _ hs ho => exact ⟨_, _, hs, ho⟩

theorem readsCall_iff {o : StableId} :
    (∃ row, ReadsEffect input (.call ⟨s, o, e, row⟩)) ↔
      ∃ f g, Datalog.DirectCall input.edb f g e ∧ input.mappings.functions.toStable f = .ok s ∧
        input.mappings.functions.toStable g = .ok o := by
  simp only [readsEffect_iff hvalid]
  constructor
  · rintro ⟨_, row, hrow, h⟩
    cases h with
    | call hc hs ho => exact ⟨_, _, ⟨_, _, hrow⟩, hs, ho⟩
  · rintro ⟨f, g, ⟨cs, d, hrow⟩, hs, ho⟩
    obtain ⟨_, h⟩ := effectOf_of_mem hvalid hres hrow (by simp [effectRelations])
    cases h with
    | call hc _ _ => exact ⟨_, _, hrow, .call hc hs ho⟩

end Reads

/-- The id map rows list exactly the ids of the mappings, each with its text. -/
structure MapsFaithful (input : WpaLogicalComponentInput) : Prop where
  functions : ∀ f text, Datalog.FunctionMap input.edb f text ↔
    ∃ s, input.mappings.functions.toStable f = .ok s ∧ text = s.toString
  callSites : ∀ c text, Datalog.CallSiteMap input.edb c text ↔
    ∃ s, input.mappings.callSites.toStable c = .ok s ∧ text = s.toString

section Mapped

variable {input : WpaLogicalComponentInput}
  (hvalid : ∀ row ∈ input.edb, validateExecutionRow row = .ok ()) (hmaps : MapsFaithful input)

include hvalid hmaps

theorem mem_functionMapPairs_iff :
    (s, text) ∈ input.edb.filterMap (functionMapPair input.mappings) ↔
      ∃ f, input.mappings.functions.toStable f = .ok s ∧ text = s.toString := by
  rw [mem_functionMapPairs hvalid]
  constructor
  · rintro ⟨f, hmap, hs⟩
    obtain ⟨s', hs', rfl⟩ := (hmaps.functions f text).mp hmap
    obtain rfl := Except.ok.inj (hs'.symm.trans hs)
    exact ⟨f, hs, rfl⟩
  · rintro ⟨f, hs, rfl⟩
    exact ⟨f, (hmaps.functions f _).mpr ⟨s, hs, rfl⟩, hs⟩

theorem mappedText_iff :
    mappedText input s = some text ↔
      ∃ f, input.mappings.functions.toStable f = .ok s ∧ text = s.toString := by
  rw [mappedText, last_eq_some, ← mem_functionMapPairs_iff hvalid hmaps]
  · simp
  · rintro ⟨s, t⟩ hp ⟨s', t'⟩ hq rfl
    obtain ⟨-, -, rfl⟩ := (mem_functionMapPairs_iff hvalid hmaps).mp hp
    obtain ⟨-, -, rfl⟩ := (mem_functionMapPairs_iff hvalid hmaps).mp hq
    rfl

theorem mappedFunction_iff {node : String} :
    mappedFunction input node = some s ↔
      ∃ f, input.mappings.functions.toStable f = .ok s ∧ node = s.toString := by
  rw [mappedFunction, last_eq_some, ← mem_functionMapPairs_iff hvalid hmaps]
  · simp
  · rintro ⟨s, t⟩ hp ⟨s', t'⟩ hq rfl
    obtain ⟨f, hf, rfl⟩ := (mem_functionMapPairs_iff hvalid hmaps).mp hp
    obtain ⟨g, hg, htext⟩ := (mem_functionMapPairs_iff hvalid hmaps).mp hq
    exact StableId.toString_injective_of_kind
      ((kind_of_toStable hf).trans (kind_of_toStable hg).symm) htext

end Mapped

/-- The rows the effects bundle publishes once its tuples are mapped back. -/
def decodedEffectRows (input : WpaLogicalComponentInput) : Set SemanticRow :=
  {row | (∃ f x e s, Datalog.UnknownEffect input.edb f x e ∧
      input.mappings.functions.toStable f = .ok s ∧
        row = unknownResultRow ⟨s, x.1, x.2, e⟩) ∨
    ∃ scope, Datalog.SoundnessCoverage input.edb scope ∧
      row = coverageResultRow scope 0}

section Closure

variable {input : WpaLogicalComponentInput}
  (hvalid : ∀ row ∈ input.edb, validateExecutionRow row = .ok ())
  (hres : ∀ row ∈ input.edb, ∃ effect, readEffectRow input.mappings row = .ok effect)
  (hmaps : MapsFaithful input)

theorem unknown_mem_decodedEffectRows {t : UnknownTuple} :
    unknownResultRow t ∈ decodedEffectRows input ↔
      ∃ f, Datalog.UnknownEffect input.edb f (t.subject, t.reason) t.epistemic ∧
        input.mappings.functions.toStable f = .ok t.function := by
  constructor
  · rintro (⟨f, x, e, s, h, hs, heq⟩ | ⟨scope, -, heq⟩)
    · obtain rfl := unknownResultRow_inj.mp heq
      exact ⟨f, h, hs⟩
    · exact absurd (congrArg SemanticRow.relation heq) (by
        simp [unknownResultRow, coverageResultRow])
  · rintro ⟨f, h, hs⟩
    exact .inl ⟨f, _, _, _, h, hs, rfl⟩

include hvalid in
/-- An unknown call is never a negative statement. -/
theorem unknownCall_positive {cells : List ExecutionCellValue}
    (hrow : ⟨.unknownCall, cells⟩ ∈ input.edb) (he : .epistemic e ∈ cells) : e ≠ .mustNot := by
  have hadmit : e ∈ (relationsV2 .unknownCall).allowedEpistemic :=
    admitted_of_valid (hvalid _ hrow) he
  rintro rfl
  exact absurd hadmit (by decide)

include hvalid hres hmaps

theorem decodedEffectRows_closed : EffectsClosed input (decodedEffectRows input) := by
  refine ⟨?_, ?_, ?_, ?_, ?_, ?_⟩
  · rintro ⟨s, subject, reason, e⟩ row hread -
    obtain ⟨cs, f, c, hrow, hc, rfl, hs⟩ := (readsUnknownCall_iff hvalid).mp ⟨row, hread⟩
    have hmap := (hmaps.callSites cs _).mpr ⟨c, hc, rfl⟩
    exact unknown_mem_decodedEffectRows.mpr ⟨f, .direct (.call hrow hmap), hs⟩
  · rintro ⟨s, o, e, row⟩ stable hcall hext hmap
    obtain ⟨f, g, hfg, hf, hg⟩ := (readsCall_iff hvalid hres).mp ⟨row, hcall⟩
    obtain ⟨g', hrow, hg'⟩ := (readsExternal_iff hvalid).mp hext
    obtain ⟨-, -, rfl⟩ := (mappedText_iff hvalid hmaps).mp hmap
    obtain rfl := toStable_injective hg hg'
    have htext := (hmaps.functions g _).mpr ⟨o, hg, rfl⟩
    exact unknown_mem_decodedEffectRows.mpr ⟨f, .direct (.external hfg hrow htext), hf⟩
  · intro node row s kind hread hmap hkind
    obtain ⟨policy, hrow⟩ := (readsFeature_iff hvalid).mp ⟨row, hread, hkind⟩
    obtain ⟨f, hf, rfl⟩ := (mappedFunction_iff hvalid hmaps).mp hmap
    have htext := (hmaps.functions f _).mpr ⟨s, hf, rfl⟩
    exact unknown_mem_decodedEffectRows.mpr ⟨f, .direct (.feature hrow htext), hf⟩
  · rintro ⟨s, o, e, row⟩ subject reason e' c hcall hfact hcomp
    obtain ⟨f, g, hfg, hf, hg⟩ := (readsCall_iff hvalid hres).mp ⟨row, hcall⟩
    obtain ⟨g', hunknown, hg'⟩ := unknown_mem_decodedEffectRows.mp hfact
    obtain rfl := toStable_injective hg hg'
    exact unknown_mem_decodedEffectRows.mpr
      ⟨f, .transitive hfg hunknown (Datalog.weakenEpistemic_iff.mpr hcomp), hf⟩
  · rintro ⟨s, o, e, row⟩ subject reason e' c row' hcall hsup hcomp
    obtain ⟨f, g, hfg, hf, hg⟩ := (readsCall_iff hvalid hres).mp ⟨row, hcall⟩
    obtain ⟨g', hsup, hg'⟩ := (readsSupport_iff hvalid (x := (subject, reason))).mp ⟨row', hsup⟩
    obtain rfl := toStable_injective hg hg'
    exact unknown_mem_decodedEffectRows.mpr
      ⟨f, .support hfg hsup (Datalog.weakenEpistemic_iff.mpr hcomp), hf⟩
  · intro t scope hfact hmap
    obtain ⟨f, hunknown, hf⟩ := unknown_mem_decodedEffectRows.mp hfact
    obtain ⟨-, -, rfl⟩ := (mappedText_iff hvalid hmaps).mp hmap
    exact .inr ⟨_, ⟨f, _, _, hunknown, (hmaps.functions f _).mpr ⟨_, hf, rfl⟩⟩, rfl⟩

/-- Any set the C++ rules are closed on holds every decoded unknown effect. -/
theorem unknown_mem_of_closed {facts : Set SemanticRow} (hfacts : EffectsClosed input facts)
    {f : FunctionId} (h : Datalog.UnknownEffect input.edb f x e)
    (hs : input.mappings.functions.toStable f = .ok s) :
    unknownResultRow ⟨s, x.1, x.2, e⟩ ∈ facts := by
  induction h generalizing s with
  | @direct f x e hseed =>
    cases hseed with
    | call hrow hmap =>
      obtain ⟨c, hc, rfl⟩ := (hmaps.callSites _ _).mp hmap
      obtain ⟨row, hread⟩ := (readsUnknownCall_iff hvalid).mpr ⟨_, f, c, hrow, hc, rfl, hs⟩
      exact hfacts.unknownCall _ row hread (unknownCall_positive hvalid hrow (by simp))
    | @external f g text e hfg hrow hmap =>
      obtain ⟨o, ho, rfl⟩ := (hmaps.functions _ _).mp hmap
      obtain ⟨row, hread⟩ := (readsCall_iff hvalid hres).mpr ⟨f, g, hfg, hs, ho⟩
      exact hfacts.external _ _ hread ((readsExternal_iff hvalid).mpr ⟨g, hrow, ho⟩)
        ((mappedText_iff hvalid hmaps).mpr ⟨g, ho, rfl⟩)
    | @feature f node kind policy hrow hmap =>
      obtain ⟨s', hs', rfl⟩ := (hmaps.functions _ _).mp hmap
      obtain rfl := Except.ok.inj (hs'.symm.trans hs)
      obtain ⟨row, hread, hkind⟩ := (readsFeature_iff hvalid).mpr ⟨policy, hrow⟩
      exact hfacts.feature _ row _ kind hread ((mappedFunction_iff hvalid hmaps).mpr ⟨f, hs, rfl⟩)
        hkind
  | @transitive f g x e₁ e₂ e hfg _ hw ih =>
    obtain ⟨s', o, hs', ho⟩ := directCall_resolves hvalid hres hfg
    obtain rfl := Except.ok.inj (hs'.symm.trans hs)
    obtain ⟨row, hread⟩ := (readsCall_iff hvalid hres).mpr ⟨f, g, hfg, hs, ho⟩
    exact hfacts.transitive _ _ _ _ _ hread (ih ho) (Datalog.weakenEpistemic_iff.mp hw)
  | @support f g x e₁ e₂ e hfg hsup hw =>
    obtain ⟨s', o, hs', ho⟩ := directCall_resolves hvalid hres hfg
    obtain rfl := Except.ok.inj (hs'.symm.trans hs)
    obtain ⟨row, hread⟩ := (readsCall_iff hvalid hres).mpr ⟨f, g, hfg, hs, ho⟩
    obtain ⟨row', hread'⟩ := (readsSupport_iff hvalid).mpr ⟨g, hsup, ho⟩
    exact hfacts.support _ _ _ _ _ row' hread hread' (Datalog.weakenEpistemic_iff.mp hw)

theorem decodedEffectRows_isLeast :
    IsLeast {facts | EffectsClosed input facts} (decodedEffectRows input) := by
  refine ⟨decodedEffectRows_closed hvalid hres hmaps, ?_⟩
  rintro facts hfacts _ (⟨f, x, e, s, h, hs, rfl⟩ | ⟨scope, ⟨f, x, e, h, hmap⟩, rfl⟩)
  · exact unknown_mem_of_closed hvalid hres hmaps hfacts h hs
  · obtain ⟨s, hs, rfl⟩ := (hmaps.functions f scope).mp hmap
    have hunknown := unknown_mem_of_closed hvalid hres hmaps hfacts h hs
    exact hfacts.coverage _ _ hunknown ((mappedText_iff hvalid hmaps).mpr ⟨f, hs, rfl⟩)

end Closure

end Veritas

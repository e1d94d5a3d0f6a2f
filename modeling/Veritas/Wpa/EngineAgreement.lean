import Veritas.Wpa.DatalogEffects

/-! When the Datalog bundles and the C++ evaluator derive the same result rows. -/
namespace Veritas

open Saturation Ordered Datalog

/-- `Evaluate` returns, and exactly the rows of the Datalog bundle's least model. -/
def EnginesAgree (input : WpaLogicalComponentInput) : Prop :=
  ∃ raw, evaluate input = .ok raw ∧ {r | r ∈ raw.results} = results input

/-- No row the component copies into a result is a negative statement. -/
def NoMustNotBase (input : WpaLogicalComponentInput) : Prop :=
  match input.component with
  | .reachability => ∀ f g, ¬ Datalog.DirectCall input.edb f g .mustNot
  | .memoryEffects => ∀ f x, ¬ Datalog.DirectAccess input.edb .directWrite f x .mustNot ∧
      ¬ Datalog.DirectAccess input.edb .directRead f x .mustNot
  | .flow | .effects => True

section Published

variable {input : WpaLogicalComponentInput}

/-- A tuple of two ids and a state, mapped back. -/
theorem decodeRow_pair {mappings : StableIdMappings} {relation : RelationId}
    {x y : ExecutionCellValue} {e : EpistemicState} {left right : StatusOr StableId} {row : SemanticRow}
    (hleft : ∀ {v}, decodeCell mappings x = .ok v ↔ ∃ s, left = .ok s ∧ .stableId s = v)
    (hright : ∀ {v}, decodeCell mappings y = .ok v ↔ ∃ o, right = .ok o ∧ .stableId o = v) :
    decodeRow mappings ⟨relation, [x, y, .epistemic e]⟩ = .ok row ↔
      ∃ s o, left = .ok s ∧ right = .ok o ∧ row = resultRow relation ⟨s, o, e⟩ := by
  cases row
  rw [decodeRow_eq_ok]
  constructor
  · rintro ⟨rfl, hcells⟩
    obtain _ | ⟨hx, _ | ⟨hy, _ | ⟨⟨⟩, _ | _⟩⟩⟩ := hcells
    obtain ⟨s, hs, rfl⟩ := hleft.mp hx
    obtain ⟨o, ho, rfl⟩ := hright.mp hy
    exact ⟨s, o, hs, ho, rfl⟩
  · rintro ⟨s, o, hs, ho, heq⟩
    rw [heq]
    exact ⟨rfl, .cons (hleft.mpr ⟨s, hs, rfl⟩) (.cons (hright.mpr ⟨o, ho, rfl⟩) (.cons rfl .nil))⟩

theorem results_reachability (hc : input.component = .reachability) :
    results input = decodedCallRows input .reachableCall
      input.mappings.functions.toStable (Datalog.ReachableCall input.edb) := by
  ext row
  rw [results, hc]
  constructor
  · rintro ⟨_, ⟨h⟩, hdec⟩
    obtain ⟨s, o, hrow⟩ := (decodeRow_pair decodeCell_functionId decodeCell_functionId).mp hdec
    exact ⟨_, _, _, s, o, h, hrow⟩
  · rintro ⟨f, g, e, s, o, h, hrow⟩
    exact ⟨_, .reachableCall h,
      (decodeRow_pair decodeCell_functionId decodeCell_functionId).mpr ⟨s, o, hrow⟩⟩

theorem results_memoryEffects (hc : input.component = .memoryEffects) : results input =
      decodedCallRows input .mayWrite input.mappings.memories.toStable
          (Datalog.MayWrite input.edb) ∪
        decodedCallRows input .mayRead input.mappings.memories.toStable
          (Datalog.MayRead input.edb) := by
  ext row
  have hpair := fun relation f x e => @decodeRow_pair input.mappings relation (.functionId f)
    (.memoryId x) e _ _ row decodeCell_functionId decodeCell_memoryId
  rw [results, hc]
  constructor
  · rintro ⟨_, h, hdec⟩
    cases h with
    | mayWrite h =>
      obtain ⟨s, o, hrow⟩ := (hpair _ _ _ _).mp hdec
      exact .inl ⟨_, _, _, s, o, h, hrow⟩
    | mayRead h =>
      obtain ⟨s, o, hrow⟩ := (hpair _ _ _ _).mp hdec
      exact .inr ⟨_, _, _, s, o, h, hrow⟩
  · rintro (⟨f, x, e, s, o, h, hrow⟩ | ⟨f, x, e, s, o, h, hrow⟩)
    · exact ⟨_, .mayWrite h, (hpair _ _ _ _).mpr ⟨s, o, hrow⟩⟩
    · exact ⟨_, .mayRead h, (hpair _ _ _ _).mpr ⟨s, o, hrow⟩⟩

theorem results_flow (hc : input.component = .flow) : results input = decodedFlowRows input := by
  ext row
  rw [results, hc]
  constructor
  · rintro ⟨_, h, hdec⟩
    cases h with
    | globalFlow h =>
      obtain ⟨a, b, hrow⟩ := (decodeRow_pair decodeCell_valueId decodeCell_valueId).mp hdec
      exact ⟨_, _, _, a, b, h, hrow⟩
  · rintro ⟨s, d, e, a, b, h, hrow⟩
    exact ⟨_, .globalFlow h, (decodeRow_pair decodeCell_valueId decodeCell_valueId).mpr ⟨a, b, hrow⟩⟩

theorem results_effects (hc : input.component = .effects) :
    results input = decodedEffectRows input := by
  ext ⟨relation, values⟩
  rw [results, hc]
  constructor
  · rintro ⟨_, h, hdec⟩
    cases h with
    | unknownEffect h =>
      obtain ⟨rfl, hcells⟩ := decodeRow_eq_ok.mp hdec
      obtain _ | ⟨hf, _ | ⟨⟨⟩, _ | ⟨⟨⟩, _ | ⟨⟨⟩, _ | _⟩⟩⟩⟩ := hcells
      obtain ⟨s, hs, rfl⟩ := decodeCell_functionId.mp hf
      exact .inl ⟨_, _, _, s, h, hs, rfl⟩
    | soundnessCoverage h =>
      obtain ⟨rfl, hcells⟩ := decodeRow_eq_ok.mp hdec
      obtain _ | ⟨⟨⟩, _ | ⟨⟨⟩, _ | ⟨⟨⟩, _ | ⟨⟨⟩, _ | _⟩⟩⟩⟩ := hcells
      exact .inr ⟨_, h, rfl⟩
  · rintro (⟨f, x, e, s, h, hs, heq⟩ | ⟨scope, h, heq⟩)
    · refine ⟨_, .unknownEffect h, heq ▸ decodeRow_eq_ok.mpr ⟨rfl, ?_⟩⟩
      exact .cons (decodeCell_functionId.mpr ⟨s, hs, rfl⟩) (.cons rfl (.cons rfl (.cons rfl .nil)))
    · exact ⟨_, .soundnessCoverage h, heq ▸ rfl⟩

end Published

/-- Being closed under a domain's rules is a matter of that domain's result rows only. -/
theorem CallClosed.congr {input : WpaLogicalComponentInput} {domain : Domain}
    {facts facts' : Set SemanticRow} (h : CallClosed input domain facts)
    (hiff : ∀ t, resultRow domain.derivedRelation t ∈ facts ↔
      resultRow domain.derivedRelation t ∈ facts') : CallClosed input domain facts' where
  direct t hs hpos := (hiff _).mp (h.direct t hs hpos)
  transitive f g x e e' c hc hfact hcomp :=
    (hiff _).mp (h.transitive f g x e e' c hc ((hiff _).mpr hfact) hcomp)
  support f g x e e' c hc hs hcomp := (hiff _).mp (h.support f g x e e' c hc hs hcomp)

theorem ne_mustNot_of_composes {a b c : EpistemicState} (h : Composes a b c) : c ≠ .mustNot := by
  obtain ⟨l, r, -, -, hc⟩ := h
  rintro rfl
  simp [weaknessRank] at hc

/-- The rows that are no negative statement about a pair of ids are closed under the rules. -/
theorem callClosed_positive (input : WpaLogicalComponentInput) (domain : Domain) :
    CallClosed input domain {r | ∀ relation s o, r ≠ resultRow relation ⟨s, o, .mustNot⟩} where
  direct t _ hpos relation s o heq := hpos (by rw [(resultRow_inj.mp heq).2])
  transitive _ _ _ _ _ _ _ _ hcomp relation s o heq :=
    ne_mustNot_of_composes hcomp (congrArg DerivedTuple.epistemic (resultRow_inj.mp heq).2)
  support _ _ _ _ _ _ _ _ hcomp relation s o heq :=
    ne_mustNot_of_composes hcomp (congrArg DerivedTuple.epistemic (resultRow_inj.mp heq).2)

variable {relation : RelationId}

section Decodes

variable {input : WpaLogicalComponentInput}
  (hvalid : ∀ row ∈ input.edb, validateExecutionRow row = .ok ())

include hvalid

theorem decodes_of_resolveRow (hfact : relation ≠ .factMap)
    (h : ∀ row ∈ input.edb, row.relation = relation →
      ∃ r, resolveRow input.mappings row = .ok r) : Decodes input relation := by
  intro row hrow hrel
  obtain ⟨r, hr⟩ := h row hrow hrel
  have hnone := noFact_of_valid (hvalid row hrow) (hrel ▸ hfact)
  obtain ⟨-, sem, hdec, -⟩ := (resolveRow_eq_ok hnone).mp hr
  exact ⟨sem, hdec⟩

/-- The Datalog reachability tuples are least under the C++ rules, MUST_NOT calls apart. -/
theorem reachableCall_isLeast (hcall : Decodes input .directCall)
    (hsupport : Decodes input .supportReachableCall)
    (hpos : ∀ f g, ¬ Datalog.DirectCall input.edb f g .mustNot) :
    IsLeast {facts | ∀ domain ∈ domainsFor .reachability, CallClosed input domain facts}
      (decodedCallRows input .reachableCall input.mappings.functions.toStable
        (Datalog.ReachableCall input.edb)) := by
  have hleast : IsLeast {facts | CallClosed input ⟨.directCall, .supportReachableCall,
      .reachableCall, "wpa.reachability."⟩ facts} (decodedCallRows input .reachableCall
        input.mappings.functions.toStable (Datalog.ReachableCall input.edb)) :=
    decodedCallRows_isLeast (represents_directCall hvalid hcall)
      (represents_directCall hvalid hcall) (represents_supportReachable hvalid hsupport) hpos
  simpa [domainsFor] using hleast

omit hvalid in
theorem decodedCallRows_relation {α : Type} {relation' : RelationId} {right : α → StatusOr StableId}
    {R : FunctionId → α → EpistemicState → Prop} {t : DerivedTuple}
    (h : resultRow relation' t ∈ decodedCallRows input relation right R) :
    relation' = relation := by
  obtain ⟨_, _, _, _, _, -, -, -, heq⟩ := h
  exact (resultRow_inj.mp heq).1

/-- The same for the two memory relations, which do not feed each other. -/
theorem memoryAccess_isLeast (hcall : Decodes input .directCall)
    (hwrite : Decodes input .directWrite) (hread : Decodes input .directRead)
    (hsupportWrite : Decodes input .supportMayWrite)
    (hsupportRead : Decodes input .supportMayRead)
    (hpos : ∀ f x, ¬ Datalog.DirectAccess input.edb .directWrite f x .mustNot ∧
      ¬ Datalog.DirectAccess input.edb .directRead f x .mustNot) :
    IsLeast {facts | ∀ domain ∈ domainsFor .memoryEffects, CallClosed input domain facts}
      (decodedCallRows input .mayWrite input.mappings.memories.toStable
          (Datalog.MayWrite input.edb) ∪
        decodedCallRows input .mayRead input.mappings.memories.toStable
          (Datalog.MayRead input.edb)) := by
  have hw : IsLeast {facts | CallClosed input ⟨.directWrite, .supportMayWrite, .mayWrite,
      "wpa.memory.may_write."⟩ facts} (decodedCallRows input .mayWrite
        input.mappings.memories.toStable (Datalog.MayWrite input.edb)) :=
    decodedCallRows_isLeast (represents_directCall hvalid hcall)
      (represents_access hvalid (.inl rfl) hwrite)
      (represents_supportAccess hvalid (.inl rfl) hsupportWrite) fun f x => (hpos f x).1
  have hr : IsLeast {facts | CallClosed input ⟨.directRead, .supportMayRead, .mayRead,
      "wpa.memory.may_read."⟩ facts} (decodedCallRows input .mayRead
        input.mappings.memories.toStable (Datalog.MayRead input.edb)) :=
    decodedCallRows_isLeast (represents_directCall hvalid hcall)
      (represents_access hvalid (.inr rfl) hread)
      (represents_supportAccess hvalid (.inr rfl) hsupportRead) fun f x => (hpos f x).2
  simp only [domainsFor, reduceCtorEq, if_false, List.mem_cons, List.not_mem_nil, or_false,
    forall_eq_or_imp, forall_eq]
  refine ⟨⟨hw.1.congr fun t => ⟨.inl, ?_⟩, hr.1.congr fun t => ⟨.inr, ?_⟩⟩, ?_⟩
  · rintro (h | h)
    · exact h
    · exact absurd (decodedCallRows_relation h) (by decide)
  · rintro (h | h)
    · exact absurd (decodedCallRows_relation h) (by decide)
    · exact h
  · rintro facts ⟨hfw, hfr⟩
    exact Set.union_subset (hw.2 hfw) (hr.2 hfr)

end Decodes

section Agreement

variable {input : WpaLogicalComponentInput}
  (hvalid : ∀ row ∈ input.edb, validateExecutionRow row = .ok ())

/-- A call-mediated closure never holds a negative statement. -/
theorem mustNot_not_mem {domains : List Domain} {results : Set SemanticRow}
    (hleast : IsLeast {facts | ∀ domain ∈ domains, CallClosed input domain facts} results)
    {s o : StableId} : resultRow relation ⟨s, o, .mustNot⟩ ∉ results := by
  intro hmem
  exact hleast.2 (fun domain _ => callClosed_positive input domain) hmem relation s o rfl

include hvalid

theorem enginesAgree_reachability (hc : input.component = .reachability) :
    EnginesAgree input ↔ Resolves input ∧ NoMustNotBase input := by
  rw [EnginesAgree, results_reachability hc]
  have hdecodes : Resolves input →
      Decodes input .directCall ∧ Decodes input .supportReachableCall := by
    intro hres
    rw [Resolves, hc] at hres
    refine ⟨decodes_of_resolveRow hvalid (by decide) fun row hrow hrel => ?_,
      decodes_of_resolveRow hvalid (by decide) fun row hrow hrel => ?_⟩
    · obtain ⟨r, hr, -⟩ := hres row hrow (.inl hrel)
      exact ⟨r, hr⟩
    · obtain ⟨r, hr, -⟩ := hres row hrow (.inr ⟨_, List.mem_cons_self, .inr hrel⟩)
      exact ⟨r, hr⟩
  constructor
  · rintro ⟨raw, hraw, heq⟩
    have hres := resolves_of_evaluate hraw
    refine ⟨hres, ?_⟩
    rw [NoMustNotBase, hc]
    intro f g hfg
    obtain ⟨raw', hraw', hleast⟩ := evaluate_calls_least hres hc (.inl rfl)
    obtain rfl := Except.ok.inj (hraw.symm.trans hraw')
    obtain ⟨s, o, hs, ho⟩ := (represents_directCall hvalid (hdecodes hres).1).resolves f g _ hfg
    rw [heq] at hleast
    exact mustNot_not_mem hleast ⟨f, g, .mustNot, s, o, .direct hfg, hs, ho, rfl⟩
  · rintro ⟨hres, hpos⟩
    rw [NoMustNotBase, hc] at hpos
    obtain ⟨raw, hraw, hleast⟩ := evaluate_calls_least hres hc (.inl rfl)
    obtain ⟨hcall, hsupport⟩ := hdecodes hres
    exact ⟨raw, hraw, hleast.unique (reachableCall_isLeast hvalid hcall hsupport hpos)⟩

theorem enginesAgree_memoryEffects (hc : input.component = .memoryEffects) :
    EnginesAgree input ↔ Resolves input ∧ NoMustNotBase input := by
  rw [EnginesAgree, results_memoryEffects hc]
  have hdecodes : Resolves input → ∀ relation ∈ [RelationId.directCall, .directWrite,
      .directRead, .supportMayWrite, .supportMayRead], Decodes input relation := by
    intro hres relation hmem
    rw [Resolves, hc] at hres
    have hread : relation = .directCall ∨ ∃ domain ∈ domainsFor .memoryEffects,
        relation = domain.baseRelation ∨ relation = domain.supportRelation := by
      revert relation
      decide
    have hfact : relation ≠ .factMap := by
      rintro rfl
      exact absurd hmem (by decide)
    refine decodes_of_resolveRow hvalid hfact fun row hrow hrel => ?_
    obtain ⟨r, hr, -⟩ := hres row hrow (hrel ▸ hread)
    exact ⟨r, hr⟩
  constructor
  · rintro ⟨raw, hraw, heq⟩
    have hres := resolves_of_evaluate hraw
    refine ⟨hres, ?_⟩
    rw [NoMustNotBase, hc]
    obtain ⟨raw', hraw', hleast⟩ := evaluate_calls_least hres hc (.inr rfl)
    obtain rfl := Except.ok.inj (hraw.symm.trans hraw')
    rw [heq] at hleast
    refine fun f x => ⟨fun hfx => ?_, fun hfx => ?_⟩
    · have hdec := hdecodes hres .directWrite (by decide)
      obtain ⟨s, o, hs, ho⟩ := (represents_access hvalid (.inl rfl) hdec).resolves f x _ hfx
      exact mustNot_not_mem hleast (.inl ⟨f, x, .mustNot, s, o, .direct hfx, hs, ho, rfl⟩)
    · have hdec := hdecodes hres .directRead (by decide)
      obtain ⟨s, o, hs, ho⟩ := (represents_access hvalid (.inr rfl) hdec).resolves f x _ hfx
      exact mustNot_not_mem hleast (.inr ⟨f, x, .mustNot, s, o, .direct hfx, hs, ho, rfl⟩)
  · rintro ⟨hres, hpos⟩
    rw [NoMustNotBase, hc] at hpos
    have hdec := hdecodes hres
    obtain ⟨raw, hraw, hleast⟩ := evaluate_calls_least hres hc (.inr rfl)
    exact ⟨raw, hraw, hleast.unique (memoryAccess_isLeast hvalid (hdec _ (by decide))
      (hdec _ (by decide)) (hdec _ (by decide)) (hdec _ (by decide)) (hdec _ (by decide)) hpos)⟩

theorem enginesAgree_flow (hc : input.component = .flow) :
    EnginesAgree input ↔ Resolves input ∧ NoMustNotBase input := by
  rw [EnginesAgree, results_flow hc]
  constructor
  · rintro ⟨raw, hraw, -⟩
    exact ⟨resolves_of_evaluate hraw, by rw [NoMustNotBase, hc]; trivial⟩
  · rintro ⟨hres, -⟩
    obtain ⟨raw, hraw, hleast⟩ := evaluate_flow_least hres hc
    rw [Resolves, hc] at hres
    have hdec : ∀ relation, isBaseFlow relation ∨ relation = .supportGlobalFlow →
        relation ≠ .factMap → Decodes input relation := by
      intro relation hread hfact
      refine decodes_of_resolveRow hvalid hfact fun row hrow hrel => ?_
      obtain ⟨r, hr, -⟩ := hres row hrow (hrel ▸ hread)
      exact ⟨r, hr⟩
    exact ⟨raw, hraw, hleast.unique (decodedFlowRows_isLeast hvalid
      (hdec _ (by decide) (by decide)) (hdec _ (by decide) (by decide))
      (hdec _ (by decide) (by decide)) (hdec _ (by decide) (by decide)))⟩

theorem enginesAgree_effects (hc : input.component = .effects) (hmaps : MapsFaithful input) :
    EnginesAgree input ↔ Resolves input ∧ NoMustNotBase input := by
  rw [EnginesAgree, results_effects hc]
  constructor
  · rintro ⟨raw, hraw, -⟩
    exact ⟨resolves_of_evaluate hraw, by rw [NoMustNotBase, hc]; trivial⟩
  · rintro ⟨hres, -⟩
    obtain ⟨raw, hraw, hleast⟩ := evaluate_effects_least hres hc
    rw [Resolves, hc] at hres
    exact ⟨raw, hraw, hleast.unique (decodedEffectRows_isLeast hvalid hres hmaps)⟩

end Agreement

/-- A function that calls a callee with an unresolved call of its own. -/
def unresolvedCalleeInput : WpaLogicalComponentInput where
  sccId := ⟨.scc, "f"⟩
  component := .effects
  mappings :=
    { functions := ⟨[⟨.functionVariant, "f"⟩, ⟨.functionVariant, "g"⟩],
        List.Pairwise.sortedLT (by decide), by decide, by decide⟩
      values := .empty
      memories := .empty
      callSites := ⟨[⟨.callSite, "1"⟩, ⟨.callSite, "2"⟩],
        List.Pairwise.sortedLT (by decide), by decide, by decide⟩
      facts := .empty }
  edb :=
    [⟨.functionMap, [.functionId ⟨0⟩, .string "funcvar:sha256:f"]⟩,
      ⟨.functionMap, [.functionId ⟨1⟩, .string "funcvar:sha256:g"]⟩,
      ⟨.callSiteMap, [.callSiteId ⟨0⟩, .string "callsite:sha256:1"]⟩,
      ⟨.callSiteMap, [.callSiteId ⟨1⟩, .string "callsite:sha256:2"]⟩,
      ⟨.directCall, [.callSiteId ⟨0⟩, .functionId ⟨0⟩, .functionId ⟨1⟩, .dispatchKind .direct,
        .epistemic .must]⟩,
      ⟨.unknownCall, [.callSiteId ⟨1⟩, .functionId ⟨1⟩, .string "indirect", .epistemic .unknown]⟩]
  localRoots := []
  successorRoots := []
  logicalInputHash := ""

theorem getElem?_pair {α : Type} {a b x : α} {n : ℕ} :
    [a, b][n]? = some x ↔ n = 0 ∧ a = x ∨ n = 1 ∧ b = x := by
  match n with
  | 0 => simp
  | 1 => simp
  | n + 2 => simp

theorem unresolvedCalleeInput_mapsFaithful : MapsFaithful unresolvedCalleeInput := by
  constructor
  · rintro ⟨f⟩ text
    simp only [DenseIdMap.toStable_eq_ok, unresolvedCalleeInput, getElem?_pair]
    simp [Datalog.FunctionMap, ← UInt32.toNat_inj, or_and_right, exists_or, and_assoc,
      StableId.toString, idKindToString]
  · rintro ⟨c⟩ text
    simp only [DenseIdMap.toStable_eq_ok, unresolvedCalleeInput, getElem?_pair]
    simp [Datalog.CallSiteMap, ← UInt32.toNat_inj, or_and_right, exists_or, and_assoc,
      StableId.toString, idKindToString]

/-- One function that is stated never to write a location. -/
def negativeWriteInput : WpaLogicalComponentInput where
  sccId := ⟨.scc, "f"⟩
  component := .memoryEffects
  mappings :=
    { functions := ⟨[⟨.functionVariant, "f"⟩], List.Pairwise.sortedLT (by decide), by decide,
        by decide⟩
      values := .empty
      memories := ⟨[⟨.memoryRef, "m"⟩], List.Pairwise.sortedLT (by decide), by decide, by decide⟩
      callSites := .empty
      facts := .empty }
  edb := [⟨.directWrite, [.functionId ⟨0⟩, .memoryId ⟨0⟩, .byteRangeKind .unknown, .int64 0,
    .uint64 0, .epistemic .mustNot]⟩]
  localRoots := []
  successorRoots := []
  logicalInputHash := ""

end Veritas

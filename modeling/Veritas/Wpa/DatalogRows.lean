import Veritas.Wpa.Datalog
import Veritas.Wpa.EvaluatorFixpoint

/-! The dense rows of the Datalog bundles matched with what the C++ evaluator reads off them. -/
namespace Veritas

open Saturation Ordered StatusOr ExecutionCellValue DenseIdMap

/-- All rows of a relation decode through the mappings. -/
def Decodes (input : WpaLogicalComponentInput) (relation : RelationId) : Prop :=
  ∀ row ∈ input.edb, row.relation = relation → ∃ sem, decodeRow input.mappings row = .ok sem

/-- A relation over dense ids says what the rows of an input relation state over stable ids. -/
structure Represents {α β : Type} (input : WpaLogicalComponentInput)
    (ids : ResolvedRow → List StableId) (relation : RelationId) (left : α → StatusOr StableId)
    (right : β → StatusOr StableId) (R : α → β → EpistemicState → Prop) : Prop where
  states : ∀ s o e, (∃ sem, Stated input ids relation ⟨s, o, e⟩ sem) ↔
    ∃ a b, R a b e ∧ left a = .ok s ∧ right b = .ok o
  resolves : ∀ a b e, R a b e → ∃ s o, left a = .ok s ∧ right b = .ok o

/-- The id columns a component reads its tuples from. -/
structure IdColumns where
  ids : ResolvedRow → List StableId
  pick : SemanticCellValue → Option StableId
  names : ExecutionCellValue → Bool
  ids_resolved : ∀ sem : SemanticRow, ids sem.resolved = sem.cells.filterMap pick
  silent : ∀ {mappings cell v}, names cell = false → decodeCell mappings cell = .ok v →
    pick v = none

def endpointColumns : IdColumns :=
  ⟨(·.endpointIds), (·.endpoint?), (·.namesEndpoint), fun _ => rfl,
    fun hcell h => (endpoint?_value?_of_decodeCell h).1 hcell⟩

def valueColumns : IdColumns :=
  ⟨(·.valueIds), (·.value?), (·.namesValue), fun _ => rfl,
    fun hcell h => (endpoint?_value?_of_decodeCell h).2 hcell⟩

/-- The cells of a column name the ids they decode to. -/
structure IdColumns.Reads {α : Type} (columns : IdColumns) (mappings : StableIdMappings)
    (cell : α → ExecutionCellValue) (stable : α → StatusOr StableId) : Prop where
  decoded : ∀ a v, decodeCell mappings (cell a) = .ok v →
    ∃ s, stable a = .ok s ∧ columns.pick v = some s
  stateless : ∀ a, (cell a).epistemic? = none

variable {cells : List ExecutionCellValue}

section Represents

variable {α β π : Type} {input : WpaLogicalComponentInput} {ids : ResolvedRow → List StableId}
  {relation : RelationId} {left : α → StatusOr StableId} {right : β → StatusOr StableId}

theorem reads_functions : endpointColumns.Reads input.mappings .functionId
    input.mappings.functions.toStable := by
  refine ⟨fun f v h => ?_, fun _ => rfl⟩
  obtain ⟨s, hs, rfl⟩ := decodeCell_functionId.mp h
  exact ⟨s, hs, by simp [endpointColumns, SemanticCellValue.endpoint?, kind_of_toStable hs]⟩

theorem reads_memories : endpointColumns.Reads input.mappings .memoryId
    input.mappings.memories.toStable := by
  refine ⟨fun f v h => ?_, fun _ => rfl⟩
  obtain ⟨s, hs, rfl⟩ := decodeCell_memoryId.mp h
  exact ⟨s, hs, by simp [endpointColumns, SemanticCellValue.endpoint?, kind_of_toStable hs]⟩

theorem reads_values : valueColumns.Reads input.mappings .valueId
    input.mappings.values.toStable := by
  refine ⟨fun f v h => ?_, fun _ => rfl⟩
  obtain ⟨s, hs, rfl⟩ := decodeCell_valueId.mp h
  exact ⟨s, hs, by simp [valueColumns, SemanticCellValue.value?, kind_of_toStable hs]⟩

/-- Cells that name no id and carry no state add nothing to a tuple. -/
theorem IdColumns.quiet {columns : IdColumns} {vs : List SemanticCellValue}
    (hsilent : ∀ c ∈ cells, columns.names c = false ∧ c.epistemic? = none)
    (h : cells.mapM (decodeCell input.mappings) = .ok vs) :
    vs.filterMap columns.pick = [] ∧ vs.filterMap (·.epistemic?) = [] := by
  have hmem : ∀ v ∈ vs, columns.pick v = none ∧ v.epistemic? = none := by
    intro v hv
    obtain ⟨c, hc, hdec⟩ := exists_of_mem_forall₂ (mapM_eq_ok.mp h) hv
    obtain ⟨hnames, hstate⟩ := hsilent c hc
    exact ⟨columns.silent hnames hdec, (epistemic?_of_decodeCell hdec).trans hstate⟩
  exact ⟨List.filterMap_eq_nil_iff.mpr fun v hv => (hmem v hv).1,
    List.filterMap_eq_nil_iff.mpr fun v hv => (hmem v hv).2⟩

section Shaped

variable {columns : IdColumns} {cellL : α → ExecutionCellValue} {cellR : β → ExecutionCellValue}
  (hleft : columns.Reads input.mappings cellL left)
  (hright : columns.Reads input.mappings cellR right)

include hleft hright

/-- The two ids and the state of a row are all its tuple is read from. -/
theorem tuple_of_decode {pre post : List ExecutionCellValue} {a : α} {b : β} {e : EpistemicState}
    (hsilent : ∀ c ∈ pre ++ post, columns.names c = false ∧ c.epistemic? = none)
    (hstate : columns.names (.epistemic e) = false) {sem : SemanticRow}
    (h : decodeRow input.mappings
      ⟨relation, pre ++ cellL a :: cellR b :: (post ++ [.epistemic e])⟩ = .ok sem) :
    ∃ s o, left a = .ok s ∧ right b = .ok o ∧
      sem.resolved.tuple (columns.ids sem.resolved) = some ⟨s, o, e⟩ := by
  simp only [decodeRow, List.mapM_append, List.mapM_cons, List.mapM_nil, bind_eq_ok,
    pure_eq_ok] at h
  obtain ⟨_, ⟨vpre, hpre, _, ⟨vl, hvl, _, ⟨vr, hvr, _, ⟨vpost, hpost, _, ⟨v, hv, _, rfl, rfl⟩, rfl⟩,
    rfl⟩, rfl⟩, rfl⟩, rfl⟩ := h
  obtain ⟨s, hs, hpl⟩ := hleft.decoded a vl hvl
  obtain ⟨o, ho, hpr⟩ := hright.decoded b vr hvr
  have hquiet := columns.quiet (fun c hc => hsilent c (List.mem_append_left _ hc)) hpre
  have hquiet' := columns.quiet (fun c hc => hsilent c (List.mem_append_right _ hc)) hpost
  have hsl := (epistemic?_of_decodeCell hvl).trans (hleft.stateless a)
  have hsr := (epistemic?_of_decodeCell hvr).trans (hright.stateless b)
  refine ⟨s, o, hs, ho, ?_⟩
  rw [columns.ids_resolved]
  simp [ResolvedRow.tuple, SemanticRow.resolved, hpl, hpr, hsl, hsr, hquiet, hquiet',
    columns.silent hstate hv, epistemic?_of_decodeCell hv, epistemic?]

/-- A relation whose rows all have one shape, read off that shape. -/
theorem represents_of_shape (pre post : π → List ExecutionCellValue)
    (hvalid : ∀ row ∈ input.edb, validateExecutionRow row = .ok ())
    (hfact : relation ≠ .factMap) (hdec : Decodes input relation)
    (hsilent : ∀ p, ∀ c ∈ pre p ++ post p, columns.names c = false ∧ c.epistemic? = none)
    (hstate : ∀ e, columns.names (.epistemic e) = false)
    (hshape : ∀ cells, ⟨relation, cells⟩ ∈ input.edb → RowShape relation cells →
      ∃ p a b e, cells = pre p ++ cellL a :: cellR b :: (post p ++ [.epistemic e])) :
    Represents input columns.ids relation left right fun a b e => ∃ p,
      ⟨relation, pre p ++ cellL a :: cellR b :: (post p ++ [.epistemic e])⟩ ∈ input.edb := by
  have htuple := fun p a b e sem => @tuple_of_decode _ _ _ relation _ _ _ _ _ hleft hright _ _
    a b e (hsilent p) (hstate e) sem
  refine ⟨fun s o e => ⟨?_, ?_⟩, ?_⟩
  · rintro ⟨sem, h⟩
    obtain ⟨⟨_, cells⟩, hrow, rfl, hdecode, ht⟩ := (stated_iff_decode hvalid hfact).mp h
    obtain ⟨p, a, b, e', rfl⟩ := hshape cells hrow (rowShape_of_valid (hvalid _ hrow))
    obtain ⟨s', o', hs, ho, ht'⟩ := htuple p a b e' sem hdecode
    obtain ⟨rfl, rfl, rfl⟩ := DerivedTuple.mk.inj (Option.some.inj (ht'.symm.trans ht))
    exact ⟨a, b, ⟨p, hrow⟩, hs, ho⟩
  · rintro ⟨a, b, ⟨p, hrow⟩, hs, ho⟩
    obtain ⟨sem, hdecode⟩ := hdec _ hrow rfl
    obtain ⟨s', o', hs', ho', ht⟩ := htuple p a b e sem hdecode
    obtain rfl := Except.ok.inj (hs'.symm.trans hs)
    obtain rfl := Except.ok.inj (ho'.symm.trans ho)
    exact ⟨sem, (stated_iff_decode hvalid hfact).mpr ⟨_, hrow, rfl, hdecode, ht⟩⟩
  · rintro a b e ⟨p, hrow⟩
    obtain ⟨sem, hdecode⟩ := hdec _ hrow rfl
    obtain ⟨s, o, hs, ho, -⟩ := htuple p a b e sem hdecode
    exact ⟨s, o, hs, ho⟩

end Shaped

theorem Represents.congr {R R' : α → β → EpistemicState → Prop}
    (h : Represents input ids relation left right R) (hR : ∀ a b e, R a b e ↔ R' a b e) :
    Represents input ids relation left right R' := by
  obtain rfl : R = R' := by
    funext a b e
    exact propext (hR a b e)
  exact h

end Represents

variable {relation : RelationId}

section Calls

variable {input : WpaLogicalComponentInput}
  (hvalid : ∀ row ∈ input.edb, validateExecutionRow row = .ok ())

include hvalid

theorem represents_directCall (hdec : Decodes input .directCall) :
    Represents input (·.endpointIds) .directCall input.mappings.functions.toStable
      input.mappings.functions.toStable (Datalog.DirectCall input.edb) := by
  refine Represents.congr (represents_of_shape reads_functions reads_functions
    (fun p : CallSiteId × DispatchKind => [.callSiteId p.1]) (fun p => [.dispatchKind p.2])
    hvalid (by decide) hdec (by simp [endpointColumns, namesEndpoint,
      epistemic?]) (fun _ => rfl) ?_) fun f g e => by
      simp [Datalog.DirectCall]
  rintro _ - ⟨cs, f, g, d, e, rfl⟩
  exact ⟨(cs, d), f, g, e, rfl⟩

theorem represents_supportReachable (hdec : Decodes input .supportReachableCall) :
    Represents input (·.endpointIds) .supportReachableCall input.mappings.functions.toStable
      input.mappings.functions.toStable (Datalog.SupportReachableCall input.edb) := by
  refine Represents.congr (represents_of_shape reads_functions reads_functions
    (fun _ : Unit => []) (fun _ => []) hvalid (by decide) hdec (by simp) (fun _ => rfl) ?_)
    fun f g e => by simp [Datalog.SupportReachableCall]
  rintro _ - ⟨f, g, e, rfl⟩
  exact ⟨(), f, g, e, rfl⟩

theorem represents_access
    (hr : relation = .directWrite ∨ relation = .directRead) (hdec : Decodes input relation) :
    Represents input (·.endpointIds) relation input.mappings.functions.toStable
      input.mappings.memories.toStable (Datalog.DirectAccess input.edb relation) := by
  refine Represents.congr (represents_of_shape reads_functions reads_memories (fun _ => [])
    (fun p : ByteRangeKind × Int64 × UInt64 => [.byteRangeKind p.1, .int64 p.2.1, .uint64 p.2.2])
    hvalid (by rcases hr with rfl | rfl <;> decide) hdec (by simp [endpointColumns, namesEndpoint,
      epistemic?]) (fun _ => rfl) ?_)
    fun f g e => by simp [Datalog.DirectAccess]
  rcases hr with rfl | rfl
  all_goals
    rintro _ - ⟨f, x, k, o, z, e, rfl⟩
    exact ⟨(k, o, z), f, x, e, rfl⟩

theorem represents_supportAccess
    (hr : relation = .supportMayWrite ∨ relation = .supportMayRead)
    (hdec : Decodes input relation) :
    Represents input (·.endpointIds) relation input.mappings.functions.toStable
      input.mappings.memories.toStable (Datalog.SupportAccess input.edb relation) := by
  refine Represents.congr (represents_of_shape reads_functions reads_memories
    (fun _ : Unit => []) (fun _ => []) hvalid (by rcases hr with rfl | rfl <;> decide) hdec
    (by simp) (fun _ => rfl) ?_) fun f g e => by simp [Datalog.SupportAccess]
  rcases hr with rfl | rfl
  all_goals
    rintro _ - ⟨f, x, e, rfl⟩
    exact ⟨(), f, x, e, rfl⟩

end Calls

/-- The rows a call-mediated Datalog relation publishes once its tuples are mapped back. -/
def decodedCallRows {α : Type} (input : WpaLogicalComponentInput) (relation : RelationId)
    (right : α → StatusOr StableId) (R : FunctionId → α → EpistemicState → Prop) :
    Set SemanticRow :=
  {row | ∃ f x e s o, R f x e ∧ input.mappings.functions.toStable f = .ok s ∧ right x = .ok o ∧
    row = resultRow relation ⟨s, o, e⟩}

section CallRules

variable {α : Type} {input : WpaLogicalComponentInput} {domain : Domain}
  {right : α → StatusOr StableId} {base support : FunctionId → α → EpistemicState → Prop}

/-- Without MUST_NOT base tuples the Datalog closure is the least one of the C++ rules too. -/
theorem decodedCallRows_isLeast
    (hcall : Represents input (·.endpointIds) .directCall input.mappings.functions.toStable
      input.mappings.functions.toStable (Datalog.DirectCall input.edb))
    (hbase : Represents input (·.endpointIds) domain.baseRelation
      input.mappings.functions.toStable right base)
    (hsupport : Represents input (·.endpointIds) domain.supportRelation
      input.mappings.functions.toStable right support)
    (hpos : ∀ f x, ¬ base f x .mustNot) :
    IsLeast {facts | CallClosed input domain facts}
      (decodedCallRows input domain.derivedRelation right
        (Datalog.CallRules (Datalog.DirectCall input.edb) base support)) := by
  constructor
  · refine ⟨?_, ?_, ?_⟩
    · rintro ⟨s, o, e⟩ hs -
      obtain ⟨f, x, hb, hf, hx⟩ := (hbase.states s o e).mp hs
      exact ⟨f, x, e, s, o, .direct hb, hf, hx, rfl⟩
    · rintro caller callee object e e' c hc ⟨g, x, e₂, s, o, hg, hgs, hx, heq⟩ hcomp
      obtain ⟨f, g', hfg, hf, hg'⟩ := (hcall.states caller callee e).mp hc
      obtain ⟨-, heq⟩ := resultRow_inj.mp heq
      obtain ⟨rfl, rfl, rfl⟩ := DerivedTuple.mk.inj heq
      obtain rfl := toStable_injective hg' hgs
      exact ⟨f, x, c, caller, object, .transitive hfg hg (Datalog.weakenEpistemic_iff.mpr hcomp),
        hf, hx, rfl⟩
    · rintro caller callee object e e' c hc hs hcomp
      obtain ⟨f, g, hfg, hf, hg⟩ := (hcall.states caller callee e).mp hc
      obtain ⟨g', x, hsup, hg', hx⟩ := (hsupport.states callee object e').mp hs
      obtain rfl := toStable_injective hg hg'
      exact ⟨f, x, c, caller, object, .support hfg hsup (Datalog.weakenEpistemic_iff.mpr hcomp),
        hf, hx, rfl⟩
  · rintro facts hfacts _ ⟨f, x, e, s, o, h, hf, hx, rfl⟩
    induction h generalizing s with
    | @direct f x e hb =>
      refine hfacts.direct _ ((hbase.states s o e).mpr ⟨f, x, hb, hf, hx⟩) ?_
      rintro rfl
      exact hpos f x hb
    | @transitive f g x e₁ e₂ e hfg _ hw ih =>
      obtain ⟨s', m, hs', hm⟩ := hcall.resolves f g e₁ hfg
      obtain rfl := Except.ok.inj (hs'.symm.trans hf)
      exact hfacts.transitive _ _ _ _ _ _ ((hcall.states _ _ _).mpr ⟨f, g, hfg, hf, hm⟩)
        (ih m hm hx) (Datalog.weakenEpistemic_iff.mp hw)
    | @support f g x e₁ e₂ e hfg hsup hw =>
      obtain ⟨s', m, hs', hm⟩ := hcall.resolves f g e₁ hfg
      obtain rfl := Except.ok.inj (hs'.symm.trans hf)
      exact hfacts.support _ _ _ _ _ _ ((hcall.states _ _ _).mpr ⟨f, g, hfg, hf, hm⟩)
        ((hsupport.states _ _ _).mpr ⟨g, x, hsup, hm, hx⟩) (Datalog.weakenEpistemic_iff.mp hw)

end CallRules

section Flow

variable {input : WpaLogicalComponentInput}
  (hvalid : ∀ row ∈ input.edb, validateExecutionRow row = .ok ())

include hvalid

theorem represents_localFlow (hdec : Decodes input .localFlow) :
    Represents input (·.valueIds) .localFlow input.mappings.values.toStable
      input.mappings.values.toStable fun s d e => ∃ p : FunctionId × String,
        ⟨.localFlow, [.functionId p.1, .valueId s, .valueId d, .string p.2, .epistemic e]⟩ ∈
          input.edb := by
  refine represents_of_shape reads_values reads_values
    (fun p : FunctionId × String => [.functionId p.1]) (fun p => [.string p.2])
    hvalid (by decide) hdec (by simp [valueColumns, namesValue, epistemic?]) (fun _ => rfl) ?_
  rintro _ - ⟨f, s, d, k, e, rfl⟩
  exact ⟨(f, k), s, d, e, rfl⟩

theorem represents_boundaryFlow
    (hr : relation = .parameterFlow ∨ relation = .returnFlow) (hdec : Decodes input relation) :
    Represents input (·.valueIds) relation input.mappings.values.toStable
      input.mappings.values.toStable fun s d e => ∃ cs : CallSiteId,
        ⟨relation, [.callSiteId cs, .valueId s, .valueId d, .epistemic e]⟩ ∈ input.edb := by
  refine represents_of_shape reads_values reads_values (fun cs => [.callSiteId cs])
    (fun _ => []) hvalid (by rcases hr with rfl | rfl <;> decide) hdec (by simp [valueColumns, namesValue,
      epistemic?])
    (fun _ => rfl) ?_
  rcases hr with rfl | rfl
  all_goals exact fun _ _ hshape => hshape

theorem represents_supportFlow (hdec : Decodes input .supportGlobalFlow) :
    Represents input (·.valueIds) .supportGlobalFlow input.mappings.values.toStable
      input.mappings.values.toStable (Datalog.SupportGlobalFlow input.edb) := by
  refine Represents.congr (represents_of_shape reads_values reads_values
    (fun _ : Unit => []) (fun _ => []) hvalid (by decide) hdec (by simp) (fun _ => rfl) ?_)
    fun s d e => by simp [Datalog.SupportGlobalFlow]
  rintro _ - ⟨s, d, e, rfl⟩
  exact ⟨(), s, d, e, rfl⟩

theorem flow_positive (hbase : isBaseFlow relation)
    (hrow : ⟨relation, cells⟩ ∈ input.edb) {e : EpistemicState} (he : .epistemic e ∈ cells) :
    e ≠ .mustNot := by
  have hadmit : e ∈ (relationsV2 relation).allowedEpistemic :=
    admitted_of_valid (hvalid _ hrow) he
  rintro rfl
  simp only [isBaseFlow, Bool.decide_or, Bool.or_eq_true, decide_eq_true_eq] at hbase
  rcases hbase with rfl | rfl | rfl <;> exact absurd hadmit (by decide)

omit hvalid in
/-- The rows the flow bundle publishes once its tuples are mapped back. -/
def decodedFlowRows (input : WpaLogicalComponentInput) : Set SemanticRow :=
  {row | ∃ s d e a b, Datalog.GlobalFlow input.edb s d e ∧
    input.mappings.values.toStable s = .ok a ∧ input.mappings.values.toStable d = .ok b ∧
      row = resultRow .globalFlow ⟨a, b, e⟩}

variable (hlocal : Decodes input .localFlow) (hparameter : Decodes input .parameterFlow)
  (hreturn : Decodes input .returnFlow) (hsupport : Decodes input .supportGlobalFlow)

include hlocal hparameter hreturn hsupport

theorem globalFlow_resolves {s d : ValueId} {e : EpistemicState}
    (h : Datalog.GlobalFlow input.edb s d e) :
    ∃ a b, input.mappings.values.toStable s = .ok a ∧
      input.mappings.values.toStable d = .ok b := by
  induction h with
  | @localFlow f s d k e hrow =>
    exact (represents_localFlow hvalid hlocal).resolves s d e ⟨(f, k), hrow⟩
  | @parameterFlow cs s d e hrow =>
    exact (represents_boundaryFlow hvalid (.inl rfl) hparameter).resolves s d e ⟨cs, hrow⟩
  | @returnFlow cs s d e hrow =>
    exact (represents_boundaryFlow hvalid (.inr rfl) hreturn).resolves s d e ⟨cs, hrow⟩
  | transitive _ _ _ ih₁ ih₂ =>
    obtain ⟨a, -, ha, -⟩ := ih₁
    obtain ⟨-, b, -, hb⟩ := ih₂
    exact ⟨a, b, ha, hb⟩
  | @support s m d e₁ e₂ e _ hsup _ ih =>
    obtain ⟨a, -, ha, -⟩ := ih
    obtain ⟨-, b, -, hb⟩ := (represents_supportFlow hvalid hsupport).resolves m d e₂ hsup
    exact ⟨a, b, ha, hb⟩

theorem decodedFlowRows_isLeast :
    IsLeast {facts | FlowClosed input facts} (decodedFlowRows input) := by
  have hl := represents_localFlow hvalid hlocal
  have hp := represents_boundaryFlow hvalid (.inl rfl) hparameter
  have hr := represents_boundaryFlow hvalid (.inr rfl) hreturn
  have hs := represents_supportFlow hvalid hsupport
  constructor
  · refine ⟨?_, ?_, ?_⟩
    · rintro relation ⟨s, o, e⟩ hbase hstates -
      simp only [isBaseFlow, Bool.decide_or, Bool.or_eq_true, decide_eq_true_eq] at hbase
      rcases hbase with rfl | rfl | rfl
      · obtain ⟨a, b, ⟨p, hrow⟩, ha, hb⟩ := (hl.states s o e).mp hstates
        exact ⟨a, b, e, s, o, .localFlow hrow, ha, hb, rfl⟩
      · obtain ⟨a, b, ⟨p, hrow⟩, ha, hb⟩ := (hp.states s o e).mp hstates
        exact ⟨a, b, e, s, o, .parameterFlow hrow, ha, hb, rfl⟩
      · obtain ⟨a, b, ⟨p, hrow⟩, ha, hb⟩ := (hr.states s o e).mp hstates
        exact ⟨a, b, e, s, o, .returnFlow hrow, ha, hb, rfl⟩
    · rintro source middle sink e e' c ⟨s, m, e₁, a, b, hsm, hs', hm, heq⟩
        ⟨m', d, e₂, a', b', hmd, hm', hd, heq'⟩ hcomp
      obtain ⟨rfl, rfl, rfl⟩ := DerivedTuple.mk.inj (resultRow_inj.mp heq).2
      obtain ⟨rfl, rfl, rfl⟩ := DerivedTuple.mk.inj (resultRow_inj.mp heq').2
      obtain rfl := toStable_injective hm hm'
      exact ⟨s, d, c, _, _, .transitive hsm hmd (Datalog.weakenEpistemic_iff.mpr hcomp), hs', hd,
        rfl⟩
    · rintro source middle sink e e' c ⟨s, m, e₁, a, b, hsm, hs', hm, heq⟩ hsup hcomp
      obtain ⟨rfl, rfl, rfl⟩ := DerivedTuple.mk.inj (resultRow_inj.mp heq).2
      obtain ⟨m', d, hmd, hm', hd⟩ := (hs.states _ _ _).mp hsup
      obtain rfl := toStable_injective hm hm'
      exact ⟨s, d, c, _, _, .support hsm hmd (Datalog.weakenEpistemic_iff.mpr hcomp), hs', hd,
        rfl⟩
  · rintro facts hfacts _ ⟨s, d, e, a, b, h, ha, hb, rfl⟩
    induction h generalizing a b with
    | @localFlow f s d k e hrow =>
      exact hfacts.base .localFlow _ (by decide) ((hl.states a b e).mpr ⟨s, d, ⟨(f, k), hrow⟩, ha, hb⟩)
        (flow_positive hvalid (by decide) hrow (by simp))
    | @parameterFlow cs s d e hrow =>
      exact hfacts.base .parameterFlow _ (by decide)
        ((hp.states a b e).mpr ⟨s, d, ⟨cs, hrow⟩, ha, hb⟩)
        (flow_positive hvalid (by decide) hrow (by simp))
    | @returnFlow cs s d e hrow =>
      exact hfacts.base .returnFlow _ (by decide) ((hr.states a b e).mpr ⟨s, d, ⟨cs, hrow⟩, ha, hb⟩)
        (flow_positive hvalid (by decide) hrow (by simp))
    | @transitive s m d e₁ e₂ e hsm _ hw ih₁ ih₂ =>
      obtain ⟨-, c, -, hc⟩ :=
        globalFlow_resolves hvalid hlocal hparameter hreturn hsupport hsm
      exact hfacts.transitive _ _ _ _ _ _ (ih₁ a c ha hc) (ih₂ c b hc hb)
        (Datalog.weakenEpistemic_iff.mp hw)
    | @support s m d e₁ e₂ e hsm hsup hw ih =>
      obtain ⟨-, c, -, hc⟩ :=
        globalFlow_resolves hvalid hlocal hparameter hreturn hsupport hsm
      exact hfacts.support _ _ _ _ _ _ (ih a c ha hc)
        ((hs.states _ _ _).mpr ⟨m, d, hsup, hc, hb⟩) (Datalog.weakenEpistemic_iff.mp hw)

end Flow

end Veritas

import Veritas.Wpa.RuleClosure

/-! Execution rows decoded cell by cell, and what row resolution keeps of the decoded row. -/
namespace Veritas

open StatusOr List SemanticCellValue

/-- One dense cell mapped back; a support-fact id has no result column to go to. -/
def decodeCell (mappings : StableIdMappings) : ExecutionCellValue → StatusOr SemanticCellValue
  | .functionId f => return .stableId (← mappings.functions.toStable f)
  | .valueId v => return .stableId (← mappings.values.toStable v)
  | .memoryId m => return .stableId (← mappings.memories.toStable m)
  | .callSiteId c => return .stableId (← mappings.callSites.toStable c)
  | .factId f => return .stableId (← mappings.facts.toStable f)
  | .int64 v => return .int64 v
  | .uint64 v => return .uint64 v
  | .string v => return .string v
  | .dispatchKind v => return .dispatchKind v
  | .aliasKind v => return .aliasKind v
  | .byteRangeKind v => return .byteRangeKind v
  | .epistemic v => return .epistemic v

def decodeRow (mappings : StableIdMappings) (row : ExecutionRow) : StatusOr SemanticRow := do
  return ⟨row.relation, ← row.cells.mapM (decodeCell mappings)⟩

def SemanticCellValue.endpoint? : SemanticCellValue → Option StableId
  | .stableId id => if id.kind = .functionVariant ∨ id.kind = .memoryRef then some id else none
  | _ => none

def SemanticCellValue.value? : SemanticCellValue → Option StableId
  | .stableId id => if id.kind = .valueRef then some id else none
  | _ => none

/-- What resolution keeps of a semantic row. -/
def SemanticRow.resolved (row : SemanticRow) : ResolvedRow :=
  ⟨row, row.cells.filterMap (·.endpoint?), row.cells.filterMap (·.value?),
    row.cells.filterMap (·.epistemic?)⟩

/-- A row none of whose cells is a support-fact id. -/
def ExecutionRow.NoFact (row : ExecutionRow) : Prop := ∀ id, .factId id ∉ row.cells

variable {cell : ExecutionCellValue} {cells : List ExecutionCellValue} {r : ResolvedRow}
  {row : ExecutionRow}

section Resolve

variable {mappings : StableIdMappings}

theorem bind_pure_eq_ok {x : StatusOr StableId} {F : StableId → ResolvedRow}
    {G : SemanticCellValue → ResolvedRow} (h : ∀ s, x = .ok s → F s = G (.stableId s)) :
    (x >>= fun s => pure (F s)) = .ok r ↔
      ∃ v, (x >>= fun s => pure (stableId s)) = .ok v ∧ r = G v := by
  simp only [bind_eq_ok, pure_eq_ok]
  constructor
  · rintro ⟨s, hs, rfl⟩
    exact ⟨_, ⟨s, hs, rfl⟩, h s hs⟩
  · rintro ⟨v, ⟨s, hs, rfl⟩, rfl⟩
    exact ⟨s, hs, h s hs⟩

/-- Resolving one cell appends its decoded value to each list it belongs to. -/
theorem resolveCell_eq_ok {acc : ResolvedRow} (hfact : ∀ id, cell ≠ .factId id) :
    resolveCell mappings acc cell = .ok r ↔ ∃ v, decodeCell mappings cell = .ok v ∧
      r = ⟨⟨acc.semantic.relation, acc.semantic.cells ++ [v]⟩,
        acc.endpointIds ++ v.endpoint?.toList, acc.valueIds ++ v.value?.toList,
        acc.epistemics ++ v.epistemic?.toList⟩ := by
  cases acc
  cases cell with
  | factId id => exact absurd rfl (hfact id)
  | functionId f | memoryId f | callSiteId f | valueId f =>
    refine bind_pure_eq_ok fun s hs => ?_
    simp [endpoint?, value?, epistemic?, DenseIdMap.kind_of_toStable hs]
  | int64 v | uint64 v | string v | dispatchKind v | aliasKind v | byteRangeKind v
  | epistemic v =>
    simp [resolveCell, decodeCell, endpoint?, value?, epistemic?, pure, Except.pure, eq_comm]

theorem resolveCells_eq_ok {acc : ResolvedRow} (hfact : ∀ id, .factId id ∉ cells) :
    cells.foldlM (resolveCell mappings) acc = .ok r ↔
      ∃ vs, cells.mapM (decodeCell mappings) = .ok vs ∧
        r = ⟨⟨acc.semantic.relation, acc.semantic.cells ++ vs⟩,
          acc.endpointIds ++ vs.filterMap (·.endpoint?), acc.valueIds ++ vs.filterMap (·.value?),
          acc.epistemics ++ vs.filterMap (·.epistemic?)⟩ := by
  induction cells generalizing acc with
  | nil =>
    rw [foldlM_nil, mapM_nil, pure_eq_ok]
    simp only [pure_eq_ok, exists_eq_left', filterMap_nil, append_nil]
    exact eq_comm
  | cons cell cells ih =>
    have hcell : ∀ id, cell ≠ .factId id := fun id h => hfact id (h ▸ mem_cons_self)
    have htail : ∀ id, .factId id ∉ cells := fun id h => hfact id (mem_cons_of_mem _ h)
    simp only [foldlM_cons, mapM_cons, bind_eq_ok, pure_eq_ok, resolveCell_eq_ok hcell, ih htail]
    -- the decoded head goes to the front of every list the tail is appended to
    have hstep : ∀ (v : SemanticCellValue) (g : SemanticCellValue → Option StableId) vs,
        (v :: vs).filterMap g = (g v).toList ++ vs.filterMap g := by
      intro v g vs
      cases h : g v <;> simp [h]
    have hstep' : ∀ (v : SemanticCellValue) vs, (v :: vs).filterMap (·.epistemic?) =
        v.epistemic?.toList ++ vs.filterMap (·.epistemic?) := by
      intro v vs
      cases h : v.epistemic? <;> simp [h]
    constructor
    · rintro ⟨mid, ⟨v, hv, rfl⟩, vs, hvs, rfl⟩
      exact ⟨v :: vs, ⟨v, hv, vs, hvs, rfl⟩, by simp [hstep, hstep']⟩
    · rintro ⟨_, ⟨v, hv, vs, hvs, rfl⟩, rfl⟩
      exact ⟨_, ⟨v, hv, rfl⟩, vs, hvs, by simp [hstep, hstep']⟩

/-- Row resolution is decoding, with the endpoint, value and epistemic cells set aside. -/
theorem resolveRow_eq_ok (hfact : row.NoFact) :
    resolveRow mappings row = .ok r ↔
      row.cells.length = (relationsV2 row.relation).columns.length ∧
        ∃ sem, decodeRow mappings row = .ok sem ∧ sem.resolved.epistemics ≠ [] ∧
          r = sem.resolved := by
  unfold resolveRow
  split_ifs with hlen
  · simp [hlen]
  · simp only [not_not.mp hlen, true_and, decodeRow, bind_eq_ok, pure_eq_ok,
      resolveCells_eq_ok hfact, nil_append]
    constructor
    · rintro ⟨_, ⟨vs, hvs, rfl⟩, h⟩
      split_ifs at h with hne
      exact ⟨_, ⟨vs, hvs, rfl⟩, hne, (pure_eq_ok.mp h).symm⟩
    · rintro ⟨_, ⟨vs, hvs, rfl⟩, hne, rfl⟩
      refine ⟨_, ⟨vs, hvs, rfl⟩, ?_⟩
      split_ifs with h
      · exact absurd h hne
      · rfl

end Resolve

/-- The cells a column of each domain holds. -/
def ExecutionCellValue.Fits (cell : ExecutionCellValue) : ColumnDomain → Prop
  | .functionId => ∃ v, cell = .functionId v
  | .valueId => ∃ v, cell = .valueId v
  | .memoryId => ∃ v, cell = .memoryId v
  | .callSiteId => ∃ v, cell = .callSiteId v
  | .factId => ∃ v, cell = .factId v
  | .modelId | .string => ∃ v, cell = .string v
  | .int64 => ∃ v, cell = .int64 v
  | .uint64 => ∃ v, cell = .uint64 v
  | .dispatchKind => ∃ v, cell = .dispatchKind v
  | .aliasKind => ∃ v, cell = .aliasKind v
  | .byteRangeKind => ∃ v, cell = .byteRangeKind v
  | .epistemic => ∃ v, cell = .epistemic v

theorem validateExecutionCell_eq_ok {domain : ColumnDomain} :
    validateExecutionCell domain cell = .ok () ↔ cell.Fits domain := by
  have hmis : ¬ executionTypeMismatch = .ok () := by
    simp [executionTypeMismatch, throw, throwThe, MonadExceptOf.throw]
  cases domain <;> cases cell <;>
    simp [validateExecutionCell, ExecutionCellValue.Fits, hmis, pure, Except.pure]

theorem validateExecutionCells_eq_ok {schema : RelationSchema} {columns : List ColumnSpec}
    (hlen : cells.length = columns.length) :
    validateExecutionCells schema columns cells = .ok () ↔
      List.Forall₂ (fun column cell => cell.Fits column.domain ∧
        validateEpistemicAdmission schema column.domain cell.epistemic? = .ok ()) columns cells := by
  induction columns generalizing cells with
  | nil =>
    obtain rfl := length_eq_zero_iff.mp hlen
    simp [validateExecutionCells, pure, Except.pure]
  | cons column columns ih =>
    obtain ⟨cell, cells, rfl⟩ := exists_cons_of_length_eq_add_one hlen
    rw [validateExecutionCells, bind_unit_eq_ok, bind_unit_eq_ok,
      validateExecutionCell_eq_ok, ih (by simpa using hlen), forall₂_cons, and_assoc]

section

variable (h : validateExecutionRow row = .ok ())
include h

/-- A valid row has the cells its schema lists, each admitted where the column is epistemic. -/
theorem validateExecutionRow_cells :
    List.Forall₂ (fun column cell => cell.Fits column.domain ∧
      validateEpistemicAdmission (relationsV2 row.relation) column.domain cell.epistemic? = .ok ())
      (relationsV2 row.relation).columns row.cells := by
  simp only [validateExecutionRow, guard_eq_ok, bind_unit_eq_ok, not_not] at h
  exact (validateExecutionCells_eq_ok h.1).mp h.2.1

/-- The cells the rows of each relation the rules read have. -/
def RowShape : RelationId → List ExecutionCellValue → Prop
  | .functionMap, cells => ∃ f text, cells = [.functionId f, .string text]
  | .directCall, cells => ∃ cs f g d e,
      cells = [.callSiteId cs, .functionId f, .functionId g, .dispatchKind d, .epistemic e]
  | .unknownCall, cells => ∃ cs f reason e,
      cells = [.callSiteId cs, .functionId f, .string reason, .epistemic e]
  | .directRead, cells | .directWrite, cells => ∃ f x kind offset size e,
      cells = [.functionId f, .memoryId x, .byteRangeKind kind, .int64 offset, .uint64 size,
        .epistemic e]
  | .localFlow, cells => ∃ f s d kind e,
      cells = [.functionId f, .valueId s, .valueId d, .string kind, .epistemic e]
  | .parameterFlow, cells | .returnFlow, cells => ∃ cs s d e,
      cells = [.callSiteId cs, .valueId s, .valueId d, .epistemic e]
  | .unsupportedFeature, cells => ∃ node kind policy,
      cells = [.string node, .string kind, .string policy]
  | .supportReachableCall, cells => ∃ f g e, cells = [.functionId f, .functionId g, .epistemic e]
  | .supportMayWrite, cells | .supportMayRead, cells => ∃ f x e,
      cells = [.functionId f, .memoryId x, .epistemic e]
  | .supportGlobalFlow, cells => ∃ s d e, cells = [.valueId s, .valueId d, .epistemic e]
  | .supportUnknownEffect, cells => ∃ f subject reason e,
      cells = [.functionId f, .string subject, .string reason, .epistemic e]
  | .unmodeledExternal, cells => ∃ f, cells = [.functionId f]
  | _, _ => True

theorem rowShape_of_valid : RowShape row.relation row.cells := by
  obtain ⟨relation, cells⟩ := row
  have hcells := validateExecutionRow_cells h
  cases relation with
  | unmodeledExternal =>
    obtain _ | ⟨⟨⟨f, rfl⟩, -⟩, _ | _⟩ := hcells
    exact ⟨f, rfl⟩
  | functionMap =>
    obtain _ | ⟨⟨⟨f, rfl⟩, -⟩, _ | ⟨⟨⟨s, rfl⟩, -⟩, _ | _⟩⟩ := hcells
    exact ⟨f, s, rfl⟩
  | unsupportedFeature | supportReachableCall | supportMayWrite | supportMayRead
  | supportGlobalFlow =>
    obtain _ | ⟨⟨⟨a, rfl⟩, -⟩, _ | ⟨⟨⟨b, rfl⟩, -⟩, _ | ⟨⟨⟨c, rfl⟩, -⟩, _ | _⟩⟩⟩ := hcells
    exact ⟨a, b, c, rfl⟩
  | unknownCall | parameterFlow | returnFlow | supportUnknownEffect =>
    obtain _ | ⟨⟨⟨a, rfl⟩, -⟩, _ | ⟨⟨⟨b, rfl⟩, -⟩, _ | ⟨⟨⟨c, rfl⟩, -⟩, _ | ⟨⟨⟨d, rfl⟩, -⟩,
      _ | _⟩⟩⟩⟩ := hcells
    exact ⟨a, b, c, d, rfl⟩
  | directCall | localFlow =>
    obtain _ | ⟨⟨⟨a, rfl⟩, -⟩, _ | ⟨⟨⟨b, rfl⟩, -⟩, _ | ⟨⟨⟨c, rfl⟩, -⟩, _ | ⟨⟨⟨d, rfl⟩, -⟩,
      _ | ⟨⟨⟨e, rfl⟩, -⟩, _ | _⟩⟩⟩⟩⟩ := hcells
    exact ⟨a, b, c, d, e, rfl⟩
  | directRead | directWrite =>
    obtain _ | ⟨⟨⟨f, rfl⟩, -⟩, _ | ⟨⟨⟨x, rfl⟩, -⟩, _ | ⟨⟨⟨k, rfl⟩, -⟩, _ | ⟨⟨⟨o, rfl⟩, -⟩,
      _ | ⟨⟨⟨z, rfl⟩, -⟩, _ | ⟨⟨⟨e, rfl⟩, -⟩, _ | _⟩⟩⟩⟩⟩⟩ := hcells
    exact ⟨f, x, k, o, z, e, rfl⟩
  | _ => trivial

theorem validateExecutionRow_length :
    row.cells.length = (relationsV2 row.relation).columns.length :=
  (validateExecutionRow_cells h).length_eq.symm

/-- Every epistemic cell of a valid row is a state its relation admits. -/
theorem admitted_of_valid {e : EpistemicState}
    (he : .epistemic e ∈ row.cells) : e ∈ (relationsV2 row.relation).allowedEpistemic := by
  obtain ⟨column, -, hfits, hadmit⟩ := Ordered.exists_of_mem_forall₂ (validateExecutionRow_cells h) he
  have hdomain : column.domain = .epistemic := by
    cases hd : column.domain <;> simp [hd, ExecutionCellValue.Fits] at hfits ⊢
  simp only [validateEpistemicAdmission, hdomain, ne_eq, not_true_eq_false, if_false,
    ExecutionCellValue.epistemic?] at hadmit
  by_contra hne
  simp [hne, throw, throwThe, MonadExceptOf.throw] at hadmit

variable {relation : RelationId}

omit h in
theorem factId_column {column : ColumnSpec} (h : column ∈ (relationsV2 relation).columns)
    (hdomain : column.domain = .factId) : relation = .factMap := by
  have hall : ∀ column ∈ (relationsV2 relation).columns,
      column.domain = .factId → relation = .factMap := by
    cases relation <;> decide
  exact hall column h hdomain

/-- Only the fact map has a column of support-fact ids. -/
theorem noFact_of_valid (hrel : row.relation ≠ .factMap) : row.NoFact := by
  intro id hmem
  obtain ⟨column, hcolumn, hfits, -⟩ := Ordered.exists_of_mem_forall₂ (validateExecutionRow_cells h) hmem
  refine hrel (factId_column hcolumn ?_)
  cases hdomain : column.domain <;> simp [hdomain, ExecutionCellValue.Fits] at hfits ⊢

end

theorem decodeRow_eq_ok {mappings : StableIdMappings} {sem : SemanticRow} :
    decodeRow mappings row = .ok sem ↔ sem.relation = row.relation ∧
      List.Forall₂ (fun cell v => decodeCell mappings cell = .ok v) row.cells sem.cells := by
  simp only [decodeRow, bind_eq_ok, pure_eq_ok, mapM_eq_ok]
  constructor
  · rintro ⟨vs, hvs, rfl⟩
    exact ⟨rfl, hvs⟩
  · rintro ⟨hrel, hvs⟩
    exact ⟨sem.cells, hvs, SemanticRow.ext hrel.symm rfl⟩

section DecodeCell

variable {mappings : StableIdMappings} {v : SemanticCellValue}

theorem decodeCell_functionId {f : FunctionId} : decodeCell mappings (.functionId f) = .ok v ↔
    ∃ s, mappings.functions.toStable f = .ok s ∧ .stableId s = v := by
  simp only [decodeCell, bind_eq_ok, pure_eq_ok]

theorem decodeCell_valueId {f : ValueId} : decodeCell mappings (.valueId f) = .ok v ↔
    ∃ s, mappings.values.toStable f = .ok s ∧ .stableId s = v := by
  simp only [decodeCell, bind_eq_ok, pure_eq_ok]

theorem decodeCell_memoryId {f : MemoryId} : decodeCell mappings (.memoryId f) = .ok v ↔
    ∃ s, mappings.memories.toStable f = .ok s ∧ .stableId s = v := by
  simp only [decodeCell, bind_eq_ok, pure_eq_ok]

theorem decodeCell_callSiteId {f : CallSiteId} : decodeCell mappings (.callSiteId f) = .ok v ↔
    ∃ s, mappings.callSites.toStable f = .ok s ∧ .stableId s = v := by
  simp only [decodeCell, bind_eq_ok, pure_eq_ok]

/-- The cells that decode to an endpoint of a call or of a memory access. -/
def ExecutionCellValue.namesEndpoint : ExecutionCellValue → Bool
  | .functionId _ | .memoryId _ => true
  | _ => false

def ExecutionCellValue.namesValue : ExecutionCellValue → Bool
  | .valueId _ => true
  | _ => false

theorem epistemic?_of_decodeCell (h : decodeCell mappings cell = .ok v) :
    v.epistemic? = cell.epistemic? := by
  cases cell <;>
    simp only [decodeCell, bind_eq_ok, pure_eq_ok] at h
  case functionId | valueId | memoryId | callSiteId | factId =>
    obtain ⟨s, -, rfl⟩ := h
    rfl
  all_goals
    subst h
    rfl

theorem endpoint?_value?_of_decodeCell (h : decodeCell mappings cell = .ok v) :
    (cell.namesEndpoint = false → v.endpoint? = none) ∧
      (cell.namesValue = false → v.value? = none) := by
  cases cell <;>
    simp only [decodeCell, bind_eq_ok, pure_eq_ok] at h
  case functionId | memoryId | valueId | callSiteId | factId =>
    obtain ⟨s, hs, rfl⟩ := h
    simp [ExecutionCellValue.namesEndpoint, ExecutionCellValue.namesValue,
      endpoint?, value?, DenseIdMap.kind_of_toStable hs]
  all_goals
    subst h
    exact ⟨fun _ => rfl, fun _ => rfl⟩

end DecodeCell

section Stated

variable {input : WpaLogicalComponentInput} {ids : ResolvedRow → List StableId}
  {t : DerivedTuple} {sem : SemanticRow}

theorem ResolvedRow.epistemics_of_tuple {l : List StableId} (h : r.tuple l = some t) :
    r.epistemics ≠ [] := by
  intro hnil
  unfold ResolvedRow.tuple at h
  split at h <;> simp_all

/-- On valid rows a stated tuple is read off a decoded row. -/
theorem stated_iff_decode (hvalid : ∀ row ∈ input.edb, validateExecutionRow row = .ok ())
    (hrel : relation ≠ .factMap) :
    Stated input ids relation t sem ↔ ∃ row ∈ input.edb, row.relation = relation ∧
      decodeRow input.mappings row = .ok sem ∧ sem.resolved.tuple (ids sem.resolved) = some t := by
  refine exists_congr fun row => and_congr_right fun hrow => and_congr_right fun hrow' => ?_
  have hfact := noFact_of_valid (hvalid row hrow) (hrow' ▸ hrel)
  simp only [resolveRow_eq_ok hfact, validateExecutionRow_length (hvalid row hrow), true_and]
  constructor
  · rintro ⟨r, ⟨sem', hdec, -, rfl⟩, ht, rfl⟩
    exact ⟨hdec, ht⟩
  · rintro ⟨hdec, ht⟩
    exact ⟨_, ⟨sem, hdec, ResolvedRow.epistemics_of_tuple ht, rfl⟩, ht, rfl⟩

end Stated

end Veritas

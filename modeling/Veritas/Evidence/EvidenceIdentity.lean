import Veritas.Evidence.EvidenceCanonicalizer

/-! Evidence identity is content identity up to the orders that carry no meaning. -/
namespace Veritas.Evidence

open Function Matching Expression List CanonicalValue KeyedElement

mutual

/-- The same tree after reordering the operands of `and` and `or` nodes, at every depth. -/
def Expression.Reorder : Expression → Expression → Prop
  | ⟨kind, text, integer, boolean, operands⟩, other =>
    kind = other.kind ∧ text = other.text ∧ integer = other.integer ∧ boolean = other.boolean ∧
      if kind.commutative then
        ∃ mid, Reorders operands mid ∧ mid.Perm other.operands
      else Reorders operands other.operands

/-- Position by position. -/
def Expression.Reorders : List Expression → List Expression → Prop
  | [], others => others = []
  | expression :: expressions, others =>
    ∃ other rest, others = other :: rest ∧ expression.Reorder other ∧
      Reorders expressions rest

end

theorem Expression.reorders_iff {as bs : List Expression} :
    Reorders as bs ↔ List.Forall₂ Reorder as bs := by
  induction as generalizing bs with
  | nil => rw [Reorders, forall₂_nil_left_iff]
  | cons a as ih =>
    rw [Reorders, forall₂_cons_left_iff]
    constructor
    · rintro ⟨b, rest, rfl, hab, hrest⟩
      exact ⟨b, rest, hab, ih.mp hrest, rfl⟩
    · rintro ⟨b, rest, hab, hrest, rfl⟩
      exact ⟨b, rest, rfl, hab, ih.mpr hrest⟩

theorem Expression.reorder_iff {a b : Expression} :
    a.Reorder b ↔ a.kind = b.kind ∧ a.text = b.text ∧ a.integer = b.integer ∧
      a.boolean = b.boolean ∧ if a.kind.commutative then
        UpToOrder Reorder a.operands b.operands
      else List.Forall₂ Reorder a.operands b.operands := by
  cases a
  simp only [Reorder, reorders_iff, UpToOrder]

section Encoding

theorem encodeItems_eq (items : List CanonicalValue) :
    encodeItems items = (items.map encode).foldr (· ++ ·) "" := by
  induction items with
  | nil => rfl
  | cons item items ih => rw [encodeItems, ih, map_cons, foldr_cons]

theorem encode_array_congr {as bs : List CanonicalValue} (h : as.map encode = bs.map encode) :
    (array as).encode = (array bs).encode := by
  have hlen : as.length = bs.length := by simpa using congrArg List.length h
  rw [encode, encode, encodeItems_eq, encodeItems_eq, h, hlen]

/-- An object's bytes depend only on its keys and on the bytes under them. -/
theorem encode_object_congr {as bs : List (String × CanonicalValue)}
    (h : List.Forall₂ (fun a b => a.1 = b.1 ∧ a.2.encode = b.2.encode) as bs) :
    (object as).encode = (object bs).encode := by
  have hentries : encodeEntries as = encodeEntries bs := by
    induction h with
    | nil => rfl
    | cons hab _ ih => rw [encodeEntries, encodeEntries, hab.1, hab.2, ih]
  rw [encode, encode, h.length_eq, hentries]

variable {α : Type*} {key : α → SortKey} {encode : α → CanonicalValue} {R : α → α → Prop}
  {xs ys : List α}

/-- Elements with their own bytes are emitted in an order fixed by keys and bytes. -/
theorem map_encode_sortedValues {records : List α} :
    (sortedValues (records.map fun a => makeKeyedElement (key a) (encode a))).map
        CanonicalValue.encode =
      (sortOn KeyedElement.rank (records.map fun a => makeKeyedElement (key a) (encode a))).map
        ((fun rank => (ofLex (ofLex (ofLex rank).2).2).2) ∘ KeyedElement.rank) := by
  rw [sortedValues, map_map]
  refine map_congr_left fun element helement => ?_
  have hmem := (sortOn_perm _ _).mem_iff.mp helement
  obtain ⟨a, -, rfl⟩ := mem_map.mp hmem
  rfl

theorem encode_sortedValues_congr
    (hR : ∀ a ∈ xs, ∀ b, R a b → key a = key b ∧ (encode a).encode = (encode b).encode)
    (h : UpToOrder R xs ys) :
    (sortedValues (xs.map fun a => makeKeyedElement (key a) (encode a))).map CanonicalValue.encode =
      (sortedValues (ys.map fun a => makeKeyedElement (key a) (encode a))).map
        CanonicalValue.encode := by
  rw [map_encode_sortedValues, map_encode_sortedValues]
  apply map_sortOn_congr
  rw [map_map, map_map]
  refine upToOrder_iff_map_perm.mp (h.mono fun a ha b hab => ?_)
  obtain ⟨hkey, hbytes⟩ := hR a ha b hab
  simp only [Function.comp_apply, KeyedElement.rank, makeKeyedElement, hkey, hbytes]

theorem upToOrder_of_sortedValues (hR : ∀ a ∈ xs, ∀ b, encode a = encode b → R a b)
    (h : sortedValues (xs.map fun a => makeKeyedElement (key a) (encode a)) =
      sortedValues (ys.map fun a => makeKeyedElement (key a) (encode a))) : UpToOrder R xs ys := by
  have hvalues : ∀ records : List α,
      (sortedValues (records.map fun a => makeKeyedElement (key a) (encode a))).Perm
        (records.map encode) := by
    intro records
    have hperm := (sortOn_perm rank
      (records.map fun a => makeKeyedElement (key a) (encode a))).map value
    rw [map_map] at hperm
    exact hperm
  have hperm : (xs.map encode).Perm (ys.map encode) :=
    (hvalues xs).symm.trans (h ▸ hvalues ys)
  exact (upToOrder_iff_map_perm.mpr hperm).mono hR

/-- A collection's bytes depend only on its records up to order. -/
theorem encode_collection_congr
    (hR : ∀ a b, R a b → key a = key b ∧ (encode a).encode = (encode b).encode)
    (h : UpToOrder R xs ys) :
    (encodeCollection key encode xs).encode = (encodeCollection key encode ys).encode :=
  encode_array_congr (encode_sortedValues_congr (fun a _ b => hR a b) h)

/-- A collection's value determines its records up to order. -/
theorem upToOrder_of_collection (hR : ∀ a b, encode a = encode b → R a b)
    (h : encodeCollection key encode xs = encodeCollection key encode ys) : UpToOrder R xs ys :=
  upToOrder_of_sortedValues (fun a _ b => hR a b) (array.inj h)

theorem sortedStrings_inj {as bs : List String}
    (h : encodeSortedStrings as = encodeSortedStrings bs) : as.Perm bs := by
  have hstring : Injective string := fun a b hab =>
    string.inj hab
  have hsorted := map_injective_iff.mpr hstring (array.inj h)
  exact (perm_insertionSort _ as).symm.trans (hsorted ▸ perm_insertionSort _ bs)

theorem sortedStrings_congr {as bs : List String} (h : as.Perm bs) :
    encodeSortedStrings as = encodeSortedStrings bs := by
  rw [encodeSortedStrings, encodeSortedStrings, Ordered.insertionSort_congr h]

theorem encodeOptionalStableId_injective : Injective encodeOptionalStableId := by
  intro a b h
  cases a <;> cases b
  case none.none => rfl
  case some.some a b => rw [StableId.toString_injective (string.inj h)]
  all_goals cases h

end Encoding

/-- What may be observed of a value: its bytes, or the value itself. Objects and arrays are observed
through their parts, and values without identity in an order that the observations fix. -/
structure Observed {γ : Type*} (observe : CanonicalValue → γ)
    (order : List CanonicalValue → List CanonicalValue) : Prop where
  object : ∀ {as bs : List (String × CanonicalValue)},
    List.Forall₂ (fun a b => a.1 = b.1 ∧ observe a.2 = observe b.2) as bs →
      observe (.object as) = observe (.object bs)
  array : ∀ {as bs : List CanonicalValue}, as.map observe = bs.map observe →
    observe (.array as) = observe (.array bs)
  order : ∀ {as bs : List CanonicalValue}, (as.map observe).Perm (bs.map observe) →
    (order as).map observe = (order bs).map observe

theorem observed_encode : Observed CanonicalValue.encode sortValuesByEncoding where
  object := encode_object_congr
  array := encode_array_congr
  order := by
    intro as bs h
    exact encode_sortedValues_congr (fun a _ b hab => ⟨rfl, hab⟩) (upToOrder_iff_map_perm.mpr h)

theorem sortValuesByEncoding_perm (values : List CanonicalValue) :
    (sortValuesByEncoding values).Perm values := by
  have hperm := (sortOn_perm rank (values.map (makeKeyedElement {}))).map value
  rw [map_map] at hperm
  have hvalue : value ∘ makeKeyedElement {} = id := rfl
  rw [hvalue, map_id] at hperm
  exact hperm

section Expressions

variable {γ : Type*} {observe : CanonicalValue → γ}
  {order : List CanonicalValue → List CanonicalValue}

theorem perm_of_order_eq (horder : ∀ l, (order l).Perm l) {l l' : List CanonicalValue}
    (h : order l = order l') : l.Perm l' :=
  (horder l).symm.trans (h.symm ▸ horder l')

/-- One node of the reading direction: the operands are read back by `ih`. -/
theorem reorder_of_node (horder : ∀ l, (order l).Perm l) {a b : Expression}
    (ih : ∀ x ∈ a.operands, ∀ y, expressionValue order x = expressionValue order y → x.Reorder y)
    (h : expressionValue order a = expressionValue order b) : a.Reorder b := by
  obtain ⟨kind, text, integer, boolean, operands⟩ := a
  cases b
  simp only [expressionValue, object.injEq, cons.injEq, Prod.mk.injEq,
    bool.injEq, int.injEq, string.injEq,
    array.injEq, expressionValues_eq_map, true_and, and_true] at h
  obtain ⟨hboolean, hinteger, hkind, hoperands, htext⟩ := h
  have hkind := ExpressionKind.name_injective hkind
  subst hkind
  rw [reorder_iff]
  refine ⟨rfl, htext, hinteger, hboolean, ?_⟩
  by_cases hcomm : kind.commutative
  · simp only [hcomm, if_true] at hoperands ⊢
    exact (upToOrder_iff_map_perm.mpr (perm_of_order_eq horder hoperands)).mono ih
  · simp only [hcomm, Bool.false_eq_true, if_false] at hoperands ⊢
    exact forall₂_mono_mem (map_eq_map_iff.mp hoperands) ih

theorem reorder_of_value (horder : ∀ l, (order l).Perm l) {a b : Expression}
    (h : expressionValue order a = expressionValue order b) : a.Reorder b := by
  induction a using Expression.induct generalizing b with
  | node a ih => exact reorder_of_node horder (fun x hx y => ih x hx) h

/-- One node of the writing direction. -/
theorem value_of_node (hobserve : Observed observe order) {a b : Expression}
    (ih : ∀ x ∈ a.operands, ∀ y, x.Reorder y →
      observe (expressionValue order x) = observe (expressionValue order y))
    (h : a.Reorder b) : observe (expressionValue order a) = observe (expressionValue order b) := by
  obtain ⟨kind, text, integer, boolean, operands⟩ := a
  obtain ⟨kind', text', integer', boolean', operands'⟩ := b
  obtain ⟨rfl, rfl, rfl, rfl, hoperands⟩ := reorder_iff.mp h
  have harray : observe (.array (if kind.commutative then order (expressionValues order operands)
        else expressionValues order operands)) =
      observe (.array (if kind.commutative then order (expressionValues order operands')
        else expressionValues order operands')) := by
    apply hobserve.array
    rw [expressionValues_eq_map, expressionValues_eq_map]
    by_cases hcomm : kind.commutative
    · simp only [hcomm, if_true] at hoperands ⊢
      apply hobserve.order
      rw [map_map, map_map]
      exact upToOrder_iff_map_perm.mp (hoperands.mono ih)
    · simp only [hcomm, Bool.false_eq_true, if_false] at hoperands ⊢
      rw [map_map, map_map]
      exact map_eq_map_iff.mpr (forall₂_mono_mem hoperands ih)
  rw [expressionValue, expressionValue]
  exact hobserve.object (by simp [harray])

theorem Expression.Reorder.observed (hobserve : Observed observe order) {a b : Expression}
    (h : a.Reorder b) : observe (expressionValue order a) = observe (expressionValue order b) := by
  induction a using Expression.induct generalizing b with
  | node a ih => exact value_of_node hobserve (fun x hx y => ih x hx) h

end Expressions

section Records

variable {a b : Expression}

/-- The records of a collection that has an unordered part, up to that part. -/
def ProgramBinding.SameContent (p q : ProgramBinding) : Prop :=
  p = { q with analyzerVersions := p.analyzerVersions } ∧
    p.analyzerVersions.Perm q.analyzerVersions

def Entity.SameContent (a b : Entity) : Prop :=
  a = { b with properties := a.properties } ∧
    List.Forall₂ (fun p q => p.1 = q.1 ∧ p.2.Reorder q.2) a.properties.entries b.properties.entries

def Path.SameContent (a b : Path) : Prop :=
  a = { b with conditions := a.conditions } ∧
    UpToOrder Reorder a.conditions b.conditions

def Claim.SameContent (a b : Claim) : Prop :=
  a = { b with predicate := a.predicate } ∧ a.predicate.Reorder b.predicate

def Fact.SameContent (a b : Fact) : Prop :=
  a = { b with predicate := a.predicate } ∧ a.predicate.Reorder b.predicate

def Assumption.SameContent (a b : Assumption) : Prop :=
  a = { b with predicate := a.predicate } ∧ a.predicate.Reorder b.predicate

def Hypothesis.SameContent (a b : Hypothesis) : Prop :=
  a = { b with predicate := a.predicate } ∧ a.predicate.Reorder b.predicate

def Unknown.SameContent (a b : Unknown) : Prop :=
  a = { b with property := a.property, blockingIds := a.blockingIds } ∧
    a.property.Reorder b.property ∧ a.blockingIds.Perm b.blockingIds

def Constraint.SameContent (a b : Constraint) : Prop :=
  a = { b with expression := a.expression } ∧ a.expression.Reorder b.expression

def Provenance.SameContent (a b : Provenance) : Prop :=
  a = { b with inputFactIds := a.inputFactIds } ∧ a.inputFactIds.Perm b.inputFactIds

def ProofObligation.SameContent (a b : ProofObligation) : Prop :=
  a = { b with predicate := a.predicate, budget := a.budget, verifierKinds := a.verifierKinds } ∧
    a.predicate.Reorder b.predicate ∧ a.budget.Reorder b.budget ∧
    a.verifierKinds.Perm b.verifierKinds

def SummaryReference.SameContent (a b : SummaryReference) : Prop :=
  a = { b with components := a.components } ∧ a.components.Perm b.components

/-- Equal cases once the evidence id and the orders without meaning are ignored. -/
structure EvidenceCase.SameContent (a b : EvidenceCase) : Prop where
  schemaVersion : a.schemaVersion = b.schemaVersion
  level : a.level = b.level
  verificationState : a.verificationState = b.verificationState
  program : a.program.SameContent b.program
  primaryClaim : a.primaryClaim.SameContent b.primaryClaim
  entities : UpToOrder Entity.SameContent a.entities b.entities
  edges : a.edges.Perm b.edges
  paths : UpToOrder Path.SameContent a.paths b.paths
  facts : UpToOrder Fact.SameContent a.facts b.facts
  assumptions : UpToOrder Assumption.SameContent a.assumptions b.assumptions
  hypotheses : UpToOrder Hypothesis.SameContent a.hypotheses b.hypotheses
  unknowns : UpToOrder Unknown.SameContent a.unknowns b.unknowns
  constraints : UpToOrder Constraint.SameContent a.constraints b.constraints
  provenance : UpToOrder Provenance.SameContent a.provenance b.provenance
  proofObligations : UpToOrder ProofObligation.SameContent a.proofObligations b.proofObligations
  summaries : UpToOrder SummaryReference.SameContent a.summaries b.summaries
  dependencies : a.dependencies.Perm b.dependencies
  omissions : a.omissions.Perm b.omissions

end Records

section Reading

variable {order : List CanonicalValue → List CanonicalValue}

theorem encodeAnalyzerVersion_injective : Injective encodeAnalyzerVersion := by
  intro a b h
  cases a
  cases b
  simp [encodeAnalyzerVersion] at h
  simp [h]

theorem programBinding_of_encode {a b : ProgramBinding}
    (h : encodeProgramBinding a = encodeProgramBinding b) : a.SameContent b := by
  cases a
  cases b
  simp [encodeProgramBinding, encodeOptionalStableId_injective.eq_iff] at h
  obtain ⟨rfl, rfl, hversions, rfl, rfl, rfl, rfl, rfl⟩ := h
  refine ⟨rfl, upToOrder_eq_iff.mp (upToOrder_of_collection ?_ hversions)⟩
  exact fun _ _ h => encodeAnalyzerVersion_injective h

theorem entity_of_value (horder : ∀ l, (order l).Perm l) {a b : Entity}
    (h : entityValue order a = entityValue order b) : a.SameContent b := by
  cases a
  cases b
  simp only [entityValue, object.injEq, cons.injEq, Prod.mk.injEq,
    string.injEq, encodeOptionalStableId_injective.eq_iff,
    EntityKind.toString_injective.eq_iff, true_and, and_true] at h
  obtain ⟨rfl, rfl, hproperties, rfl⟩ := h
  refine ⟨rfl, forall₂_mono_mem (map_eq_map_iff.mp hproperties) fun p _ q hpq => ?_⟩
  obtain ⟨hkey, hvalue⟩ := Prod.mk.inj hpq
  exact ⟨hkey, reorder_of_value horder hvalue⟩

theorem encodeEdge_injective : Injective encodeEdge := by
  intro a b h
  cases a
  cases b
  simp [encodeEdge, EpistemicState.toString_injective.eq_iff,
    RelationKind.toString_injective.eq_iff] at h
  simp [h]

section

variable (horder : ∀ l, (order l).Perm l)
include horder

theorem path_of_value {a b : Path}
    (h : pathValue order a = pathValue order b) : a.SameContent b := by
  cases a
  cases b
  have hstring : Injective string := fun a b hab =>
    string.inj hab
  simp only [pathValue, object.injEq, cons.injEq, Prod.mk.injEq,
    string.injEq, array.injEq, (map_injective_iff.mpr hstring).eq_iff,
    Feasibility.toString_injective.eq_iff, PathKind.toString_injective.eq_iff,
    true_and, and_true] at h
  obtain ⟨hconditions, rfl, rfl, rfl, rfl, rfl⟩ := h
  have hperm := perm_of_order_eq horder hconditions
  refine ⟨rfl, (upToOrder_iff_map_perm.mpr hperm).mono ?_⟩
  exact fun x _ y hxy => reorder_of_value horder hxy

theorem claim_of_value {a b : Claim}
    (h : claimValue order a = claimValue order b) : a.SameContent b := by
  cases a
  cases b
  simp [claimValue, ClaimKind.toString_injective.eq_iff, Severity.toString_injective.eq_iff] at h
  obtain ⟨rfl, rfl, rfl, hpredicate, rfl, rfl⟩ := h
  exact ⟨rfl, reorder_of_value horder hpredicate⟩

theorem fact_of_value {a b : Fact}
    (h : factValue order a = factValue order b) : a.SameContent b := by
  cases a
  cases b
  simp [factValue, Confidence.toString_injective.eq_iff, EpistemicState.toString_injective.eq_iff,
    encodeOptionalStableId_injective.eq_iff] at h
  obtain ⟨rfl, rfl, rfl, rfl, hpredicate, rfl, rfl, rfl⟩ := h
  exact ⟨rfl, reorder_of_value horder hpredicate⟩

theorem assumption_of_value {a b : Assumption}
    (h : assumptionValue order a = assumptionValue order b) : a.SameContent b := by
  cases a
  cases b
  simp [assumptionValue] at h
  obtain ⟨rfl, hpredicate, rfl, rfl⟩ := h
  exact ⟨rfl, reorder_of_value horder hpredicate⟩

theorem hypothesis_of_value {a b : Hypothesis}
    (h : hypothesisValue order a = hypothesisValue order b) : a.SameContent b := by
  cases a
  cases b
  simp [hypothesisValue, Confidence.toString_injective.eq_iff] at h
  obtain ⟨rfl, rfl, hpredicate, rfl, rfl⟩ := h
  exact ⟨rfl, reorder_of_value horder hpredicate⟩

theorem unknown_of_value {a b : Unknown}
    (h : unknownValue order a = unknownValue order b) : a.SameContent b := by
  cases a
  cases b
  simp [unknownValue, UnknownReasonCode.toString_injective.eq_iff] at h
  obtain ⟨hblocking, rfl, hproperty, rfl, rfl, rfl⟩ := h
  exact ⟨rfl, reorder_of_value horder hproperty, sortedStrings_inj hblocking⟩

theorem constraint_of_value {a b : Constraint}
    (h : constraintValue order a = constraintValue order b) : a.SameContent b := by
  cases a
  cases b
  simp [constraintValue, EpistemicState.toString_injective.eq_iff] at h
  obtain ⟨rfl, hexpression, rfl, rfl, rfl⟩ := h
  exact ⟨rfl, reorder_of_value horder hexpression⟩

end

theorem provenance_of_encode {a b : Provenance} (h : encodeProvenance a = encodeProvenance b) :
    a.SameContent b := by
  cases a
  cases b
  simp [encodeProvenance, encodeOptionalStableId_injective.eq_iff] at h
  obtain ⟨rfl, rfl, rfl, hinputs, rfl, rfl, rfl, rfl⟩ := h
  exact ⟨rfl, sortedStrings_inj hinputs⟩

theorem proofObligation_of_value (horder : ∀ l, (order l).Perm l) {a b : ProofObligation}
    (h : proofObligationValue order a = proofObligationValue order b) : a.SameContent b := by
  cases a
  cases b
  simp [proofObligationValue, ProofGoalKind.toString_injective.eq_iff,
    ProofStatus.toString_injective.eq_iff] at h
  obtain ⟨hbudget, rfl, rfl, hpredicate, rfl, rfl, rfl, hverifiers⟩ := h
  exact ⟨rfl, reorder_of_value horder hpredicate, reorder_of_value horder hbudget,
    sortedStrings_inj hverifiers⟩

theorem summaryReference_of_encode {a b : SummaryReference}
    (h : encodeSummaryReference a = encodeSummaryReference b) : a.SameContent b := by
  cases a
  cases b
  simp [encodeSummaryReference, encodeRequiredStableId, StableId.toString_injective.eq_iff] at h
  obtain ⟨hcomponents, rfl, rfl, rfl⟩ := h
  exact ⟨rfl, sortedStrings_inj hcomponents⟩

theorem encodeDependency_injective : Injective encodeDependency := by
  intro a b h
  cases a
  cases b
  simp [encodeDependency, encodeRequiredStableId, DependencyKind.toString_injective.eq_iff,
    StableId.toString_injective.eq_iff] at h
  simp [h]

theorem encodeOmission_injective : Injective encodeOmission := by
  intro a b h
  cases a
  cases b
  simp [encodeOmission] at h
  simp [h]

/-- The value tree holds everything but the ignored orders. -/
theorem sameContent_of_value {a b : EvidenceCase}
    (h : canonicalEvidenceValue a = canonicalEvidenceValue b) : a.SameContent b := by
  simp only [canonicalEvidenceValue, object.injEq, cons.injEq, Prod.mk.injEq,
    string.injEq, EvidenceLevel.toString_injective.eq_iff,
    VerificationState.toString_injective.eq_iff, true_and, and_true] at h
  obtain ⟨hassumptions, hclaim, hconstraints, hdependencies, hedges, hentities, hfacts, hhypotheses,
    hlevel, homissions, hpaths, hprogram, hobligations, hprovenance, hschema, hstate, hsummaries,
    hunknowns⟩ := h
  have hsort := sortValuesByEncoding_perm
  exact {
    schemaVersion := hschema
    level := hlevel
    verificationState := hstate
    program := programBinding_of_encode hprogram
    primaryClaim := claim_of_value hsort hclaim
    entities := upToOrder_of_collection (fun _ _ => entity_of_value hsort) hentities
    edges := upToOrder_eq_iff.mp
      (upToOrder_of_collection (fun _ _ h => encodeEdge_injective h) hedges)
    paths := upToOrder_of_collection (fun _ _ => path_of_value hsort) hpaths
    facts := upToOrder_of_collection (fun _ _ => fact_of_value hsort) hfacts
    assumptions := upToOrder_of_collection (fun _ _ => assumption_of_value hsort) hassumptions
    hypotheses := upToOrder_of_collection (fun _ _ => hypothesis_of_value hsort) hhypotheses
    unknowns := upToOrder_of_collection (fun _ _ => unknown_of_value hsort) hunknowns
    constraints := upToOrder_of_collection (fun _ _ => constraint_of_value hsort) hconstraints
    provenance := upToOrder_of_collection (fun _ _ => provenance_of_encode) hprovenance
    proofObligations :=
      upToOrder_of_collection (fun _ _ => proofObligation_of_value hsort) hobligations
    summaries := upToOrder_of_collection (fun _ _ => summaryReference_of_encode) hsummaries
    dependencies := upToOrder_eq_iff.mp
      (upToOrder_of_collection (fun _ _ h => encodeDependency_injective h) hdependencies)
    omissions := upToOrder_eq_iff.mp
      (upToOrder_of_collection (fun _ _ h => encodeOmission_injective h) homissions) }

end Reading

section Writing

/-- A collection of records without an unordered part. -/
theorem encode_collection_perm {α : Type*} {key : α → SortKey} {encode : α → CanonicalValue}
    {xs ys : List α} (h : xs.Perm ys) :
    (encodeCollection key encode xs).encode = (encodeCollection key encode ys).encode :=
  encode_collection_congr (fun _ _ hab => by rw [hab]; exact ⟨rfl, rfl⟩) (upToOrder_eq_iff.mpr h)

theorem ProgramBinding.SameContent.encode {a b : ProgramBinding} (h : a.SameContent b) :
    (encodeProgramBinding a).encode = (encodeProgramBinding b).encode := by
  obtain ⟨hsame, hversions⟩ := h
  have hbytes : (encodeCollection (fun _ => {}) encodeAnalyzerVersion a.analyzerVersions).encode =
      (encodeCollection (fun _ => {}) encodeAnalyzerVersion b.analyzerVersions).encode :=
    encode_collection_perm hversions
  rw [hsame]
  exact encode_object_congr (by simp [hbytes])

section Records

variable {γ : Type*} {observe : CanonicalValue → γ}
  {order : List CanonicalValue → List CanonicalValue} (hobserve : Observed observe order)
include hobserve

theorem Entity.SameContent.observed {a b : Entity} (h : a.SameContent b) :
    a.sortKey = b.sortKey ∧ observe (entityValue order a) = observe (entityValue order b) := by
  obtain ⟨hsame, hproperties⟩ := h
  have hobject : observe (.object (a.properties.entries.map fun property =>
        (property.1, expressionValue order property.2))) =
      observe (.object (b.properties.entries.map fun property =>
        (property.1, expressionValue order property.2))) := by
    apply hobserve.object
    rw [forall₂_map_left_iff, forall₂_map_right_iff]
    exact forall₂_mono_mem hproperties fun p _ q hpq => ⟨hpq.1, hpq.2.observed hobserve⟩
  rw [hsame]
  exact ⟨rfl, hobserve.object (by simp [hobject])⟩

theorem Path.SameContent.observed {a b : Path} (h : a.SameContent b) :
    a.sortKey = b.sortKey ∧ observe (pathValue order a) = observe (pathValue order b) := by
  obtain ⟨hsame, hconditions⟩ := h
  have harray : observe (.array (order (a.conditions.map (expressionValue order)))) =
      observe (.array (order (b.conditions.map (expressionValue order)))) := by
    apply hobserve.array
    apply hobserve.order
    rw [map_map, map_map]
    exact hconditions.map_perm fun x y hxy => hxy.observed hobserve
  rw [hsame]
  exact ⟨rfl, hobserve.object (by simp [harray])⟩

theorem Claim.SameContent.observed {a b : Claim} (h : a.SameContent b) :
    observe (claimValue order a) = observe (claimValue order b) := by
  obtain ⟨hsame, hpredicate⟩ := h
  rw [hsame]
  exact hobserve.object (by simp [hpredicate.observed hobserve])

theorem Fact.SameContent.observed {a b : Fact} (h : a.SameContent b) :
    a.sortKey = b.sortKey ∧ observe (factValue order a) = observe (factValue order b) := by
  obtain ⟨hsame, hpredicate⟩ := h
  rw [hsame]
  exact ⟨rfl, hobserve.object (by simp [hpredicate.observed hobserve])⟩

theorem Assumption.SameContent.observed {a b : Assumption} (h : a.SameContent b) :
    a.sortKey = b.sortKey ∧
      observe (assumptionValue order a) = observe (assumptionValue order b) := by
  obtain ⟨hsame, hpredicate⟩ := h
  rw [hsame]
  exact ⟨rfl, hobserve.object (by simp [hpredicate.observed hobserve])⟩

theorem Hypothesis.SameContent.observed {a b : Hypothesis} (h : a.SameContent b) :
    a.sortKey = b.sortKey ∧
      observe (hypothesisValue order a) = observe (hypothesisValue order b) := by
  obtain ⟨hsame, hpredicate⟩ := h
  rw [hsame]
  exact ⟨rfl, hobserve.object (by simp [hpredicate.observed hobserve])⟩

theorem Unknown.SameContent.observed {a b : Unknown} (h : a.SameContent b) :
    a.sortKey = b.sortKey ∧ observe (unknownValue order a) = observe (unknownValue order b) := by
  obtain ⟨hsame, hproperty, hblocking⟩ := h
  rw [hsame]
  exact ⟨rfl, hobserve.object (by
    simp [hproperty.observed hobserve, sortedStrings_congr hblocking])⟩

theorem Constraint.SameContent.observed {a b : Constraint} (h : a.SameContent b) :
    a.sortKey = b.sortKey ∧
      observe (constraintValue order a) = observe (constraintValue order b) := by
  obtain ⟨hsame, hexpression⟩ := h
  rw [hsame]
  exact ⟨rfl, hobserve.object (by simp [hexpression.observed hobserve])⟩

theorem ProofObligation.SameContent.observed {a b : ProofObligation} (h : a.SameContent b) :
    a.sortKey = b.sortKey ∧
      observe (proofObligationValue order a) = observe (proofObligationValue order b) := by
  obtain ⟨hsame, hpredicate, hbudget, hverifiers⟩ := h
  rw [hsame]
  exact ⟨rfl, hobserve.object (by
    simp [hpredicate.observed hobserve, hbudget.observed hobserve, sortedStrings_congr hverifiers])⟩

end Records

theorem Provenance.SameContent.encode {a b : Provenance} (h : a.SameContent b) :
    encodeProvenance a = encodeProvenance b := by
  obtain ⟨hsame, hinputs⟩ := h
  rw [hsame]
  simp [encodeProvenance, sortedStrings_congr hinputs]

theorem SummaryReference.SameContent.encode {a b : SummaryReference} (h : a.SameContent b) :
    encodeSummaryReference a = encodeSummaryReference b := by
  obtain ⟨hsame, hcomponents⟩ := h
  rw [hsame]
  simp [encodeSummaryReference, sortedStrings_congr hcomponents]

/-- The bytes do not see the ignored orders. -/
theorem EvidenceCase.SameContent.encode {a b : EvidenceCase} (h : a.SameContent b) :
    canonicalEvidenceBytes a = canonicalEvidenceBytes b := by
  refine encode_object_congr ?_
  simp only [forall₂_cons, forall₂_nil_left_iff, true_and, and_true]
  refine ⟨?_, h.primaryClaim.observed observed_encode, ?_, encode_collection_perm h.dependencies,
    encode_collection_perm h.edges, ?_, ?_, ?_, by rw [h.level], encode_collection_perm h.omissions,
    ?_, h.program.encode, ?_, ?_, by rw [h.schemaVersion], by rw [h.verificationState], ?_, ?_⟩
  · exact encode_collection_congr (fun _ _ h => h.observed observed_encode) h.assumptions
  · exact encode_collection_congr (fun _ _ h => h.observed observed_encode) h.constraints
  · exact encode_collection_congr (fun _ _ h => h.observed observed_encode) h.entities
  · exact encode_collection_congr (fun _ _ h => h.observed observed_encode) h.facts
  · exact encode_collection_congr (fun _ _ h => h.observed observed_encode) h.hypotheses
  · exact encode_collection_congr (fun _ _ h => h.observed observed_encode) h.paths
  · exact encode_collection_congr (fun _ _ h => h.observed observed_encode) h.proofObligations
  · exact encode_collection_congr (fun _ _ h => ⟨by rw [h.1]; rfl, by rw [h.encode]⟩) h.provenance
  · exact encode_collection_congr (fun _ _ h => ⟨by rw [h.1]; rfl, by rw [h.encode]⟩) h.summaries
  · exact encode_collection_congr (fun _ _ h => h.observed observed_encode) h.unknowns

end Writing

/-- Two cases whose bytes fit a vector have the same canonical bytes exactly when they are equal up
to the evidence id, the order of records, analyzer versions, path conditions and reference lists,
and the order of `and` and `or` operands at every depth. -/
theorem canonicalEvidenceBytes_eq_iff {a b : EvidenceCase}
    (hfits : (canonicalEvidenceBytes a).length < 2 ^ 64) :
    canonicalEvidenceBytes a = canonicalEvidenceBytes b ↔ a.SameContent b :=
  ⟨fun h => sameContent_of_value (encode_inj h hfits), fun h => h.encode⟩

/-- A case with nothing but assumptions. -/
def assumingCase (evidenceId : Option StableId) (assumptions : List Assumption) : EvidenceCase where
  evidenceId := evidenceId
  schemaVersion := "eir.v1"
  level := .l1
  program := ⟨"", "", "", "", "", "", none, []⟩
  primaryClaim := ⟨"", .bufferOverflow, "", {}, .high, ""⟩
  entities := []
  edges := []
  paths := []
  facts := []
  assumptions := assumptions
  hypotheses := []
  unknowns := []
  constraints := []
  provenance := []
  proofObligations := []
  summaries := []
  dependencies := []
  verificationState := .unreviewed
  omissions := []

/-- `p and q`, or `q and p`. -/
def conjunction (texts : List String) : Expression where
  kind := .and
  operands := texts.map fun text => { kind := .symbol, text := text }

theorem Expression.reorder_symbol (text : String) :
    Reorder { kind := .symbol, text := text } { kind := .symbol, text := text } := by
  simp [Reorder, Reorders, ExpressionKind.commutative]

theorem conjunction_reorder {texts texts' : List String} (h : texts.Perm texts') :
    (conjunction texts).Reorder (conjunction texts') := by
  refine reorder_iff.mpr ⟨rfl, rfl, rfl, rfl, conjunction texts |>.operands, ?_, ?_⟩
  · refine forall₂_same.mpr fun expression hmem => ?_
    obtain ⟨text, -, rfl⟩ := mem_map.mp hmem
    exact reorder_symbol text
  · exact h.map _

theorem assumingCase_sameContent {id id' : Option StableId} {as bs : List Assumption}
    (h : UpToOrder Assumption.SameContent as bs) :
    (assumingCase id as).SameContent (assumingCase id' bs) := by
  have hnil : ∀ {α : Type} {R : α → α → Prop}, UpToOrder R [] [] := ⟨[], .nil, .refl _⟩
  have hclaim : Reorder {} {} := by
    simp [Reorder, Reorders, ExpressionKind.commutative]
  exact ⟨rfl, rfl, rfl, ⟨rfl, .refl _⟩, ⟨rfl, hclaim⟩, hnil, .refl _, hnil, hnil, h, hnil, hnil,
    hnil, hnil, hnil, hnil, .refl _, .refl _⟩

/-- Two assumptions and the operands of one of them, in either order. -/
theorem canonicalEvidenceBytes_reordered :
    (canonicalEvidenceBytes (assumingCase none [⟨"A1", conjunction ["p", "q"], "", ""⟩,
        ⟨"A2", conjunction [], "", ""⟩])).length < 2 ^ 64 ∧
      canonicalEvidenceBytes (assumingCase none [⟨"A1", conjunction ["p", "q"], "", ""⟩,
        ⟨"A2", conjunction [], "", ""⟩]) =
      canonicalEvidenceBytes (assumingCase (some default) [⟨"A2", conjunction [], "", ""⟩,
        ⟨"A1", conjunction ["q", "p"], "", ""⟩]) := by
  have hfits : (canonicalEvidenceBytes (assumingCase none [⟨"A1", conjunction ["p", "q"], "", ""⟩,
      ⟨"A2", conjunction [], "", ""⟩])).length < 2 ^ 64 := by
    rw [canonicalEvidenceBytes, length_encode]
    decide +kernel
  refine ⟨hfits, (canonicalEvidenceBytes_eq_iff hfits).mpr (assumingCase_sameContent ?_)⟩
  refine ⟨[⟨"A1", conjunction ["q", "p"], "", ""⟩, ⟨"A2", conjunction [], "", ""⟩],
    .cons ⟨rfl, conjunction_reorder (.swap _ _ _)⟩ (.cons ⟨rfl, conjunction_reorder (.refl _)⟩ .nil),
    .swap _ _ _⟩

end Veritas.Evidence

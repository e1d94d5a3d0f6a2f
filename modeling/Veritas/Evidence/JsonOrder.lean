import Veritas.Evidence.EvidenceJson
import Veritas.Evidence.VerdictOrder

/-! Where the JSON document reads an order: records whose keys tie. -/
namespace Veritas.Evidence

open Matching StatusOr FieldCode List Evidence.CanonicalValue Omission

section Writer

variable (writer : JsonWriter)

theorem JsonWriter.order_perm (l : List CanonicalValue) : (writer.order l).Perm l :=
  sortOn_perm _ l

/-- Trees ordered by text do not see the order of `and` operands, because a text names its tree. -/
theorem JsonWriter.observed : Observed id writer.order := by
  refine observed_id fun as bs h => ?_
  have hsorted := map_sortOn_eq_of_ties (h.map fun v => (writer.text 0 v, v)) fun v _ w _ hvw =>
    writer.text_injective 0 hvw
  rwa [map_id', map_id'] at hsorted

theorem SortKey.rank_injective : Function.Injective SortKey.rank := by
  rintro ⟨kind, stableId, localId⟩ ⟨kind', stableId', localId'⟩ h
  obtain ⟨hkind, hrest⟩ : kind = kind' ∧ _ := Prod.mk.inj (toLex.injective h)
  obtain ⟨hstable, hlocal⟩ : stableId = stableId' ∧ localId = localId' :=
    Prod.mk.inj (toLex.injective hrest)
  rw [hkind, hstable, hlocal]

theorem AnalyzerVersion.rank_injective : Function.Injective AnalyzerVersion.rank := by
  rintro ⟨producer, version, configuration⟩ ⟨producer', version', configuration'⟩ h
  obtain ⟨hproducer, hrest⟩ : producer = producer' ∧ _ := Prod.mk.inj (toLex.injective h)
  obtain ⟨hversion, hconfiguration⟩ : version = version' ∧ configuration = configuration' :=
    Prod.mk.inj (toLex.injective hrest)
  rw [hproducer, hversion, hconfiguration]

/-- The analyzer versions are sorted by all they hold. -/
theorem emitProgram_congr {p q : ProgramBinding} (h : p.SameContent q) :
    emitProgram p = emitProgram q := by
  obtain ⟨hsame, hversions⟩ := h
  have hemit : emitAnalyzerVersions p.analyzerVersions = emitAnalyzerVersions q.analyzerVersions := by
    rw [emitAnalyzerVersions, emitAnalyzerVersions]
    rw [map_sortOn_eq_of_ties (hversions.map _) fun v _ w _ hvw => ?_]
    rw [AnalyzerVersion.rank_injective hvw]
  rw [hsame]
  simp only [emitProgram, hemit]

end Writer

section Collections

variable {α : Type} {key : α → SortKey} {emit : α → CanonicalValue} {Same : α → α → Prop}
  {l l' : List α}

/-- Records without a local id of their own that tie on kind and stable id have one content. -/
def TiedAlike (key : α → SortKey) (Same : α → α → Prop) (l : List α) : Prop :=
  ∀ x ∈ l, ∀ y ∈ l, key x = key y → (key x).localId = "" → Same x y

/-- A local id that is not empty is used by one record. -/
def DistinctIds (key : α → SortKey) (l : List α) : Prop :=
  ∀ x ∈ l, ∀ y ∈ l, (key x).localId = (key y).localId → (key x).localId ≠ "" → x = y

theorem emitCollection_congr (h : UpToOrder Same l l')
    (hsame : ∀ x y, Same x y → key x = key y ∧ emit x = emit y) (hids : DistinctIds key l)
    (hties : TiedAlike key Same l) : emitCollection key emit l = emitCollection key emit l' := by
  refine congrArg CanonicalValue.array (map_sortOn_eq_of_ties ?_ fun x hx y hy hxy => ?_)
  · exact h.map_perm fun x y hxy => Prod.ext (by rw [(hsame x y hxy).1]) (hsame x y hxy).2
  · have hkeys := SortKey.rank_injective hxy
    by_cases hlocal : (key x).localId = ""
    · exact (hsame x y (hties x hx y hy hkeys hlocal)).2
    · rw [hids x hx y hy (by rw [hkeys]) hlocal]

/-- If no reordering of a collection shows in the document, tied records have one content. -/
theorem tiedAlike_of_emitCollection (hread : ∀ x y, emit x = emit y → Same x y)
    (h : ∀ l', l.Perm l' → emitCollection key emit l' = emitCollection key emit l) :
    TiedAlike key Same l := by
  intro x hx y hy hxy _
  have hties := ties_of_map_sortOn (fun l' hl' => CanonicalValue.array.inj (h l' hl'))
  exact hread x y (hties x hx y hy (by rw [hxy]))

theorem distinctIds_of_mem {value : EvidenceCase} (kind : MemberKind)
    (hdistinct : ((declarations value).map Prod.fst).Nodup)
    (hfamily : l.map (fun x => ((key x).localId, kind)) ∈ memberIds value) : DistinctIds key l := by
  have hsub := ((sublist_flatten_of_mem hfamily).filter (·.1 ≠ "")).map Prod.fst
  have hnodup := hsub.nodup hdistinct
  rw [filter_map, map_map] at hnodup
  intro x hx y hy hxy hne
  have hmem : ∀ z ∈ l, (key z).localId ≠ "" → z ∈ l.filter ((fun p => decide (p.1 ≠ "")) ∘
      fun x => ((key x).localId, kind)) := fun z hz hzne =>
    mem_filter.mpr ⟨hz, decide_eq_true hzne⟩
  exact inj_on_of_nodup_map hnodup (hmem x hx hne) (hmem y hy (hxy ▸ hne)) hxy

theorem spellable_emitCollection (isUTF8 : String → Bool) (h : l.Perm l') :
    spellable isUTF8 (emitCollection key emit l) =
      spellable isUTF8 (emitCollection key emit l') := by
  simp only [emitCollection, spellable, spellableItems_eq_all, all_map]
  have hsorted := ((sortOn_perm (fun record => (key record).rank) l).trans h).trans
    (sortOn_perm (fun record => (key record).rank) l').symm
  exact hsorted.all_eq

end Collections

section Plain

/-! A writer that any tree can be read back from: tags, field lengths and closing marks. -/

mutual

def CanonicalValue.plain : CanonicalValue → String
  | .null => preimageByte 0
  | .bool value => preimageByte 1 ++ preimageByte value.toNat
  | .int value => preimageByte 2 ++ encodeU64 value.toUInt64
  | .string value => preimageByte 3 ++ field value
  | .array items => preimageByte 4 ++ plainItems items
  | .object entries => preimageByte 5 ++ plainEntries entries
  | .path rootKind rootId relativePath =>
    preimageByte 6 ++ (preimageByte rootKind.ordinal ++ (field rootId ++ field relativePath))

def plainItems : List CanonicalValue → String
  | [] => String.singleton '.'
  | item :: items => String.singleton ',' ++ (CanonicalValue.plain item ++ plainItems items)

def plainEntries : List (String × CanonicalValue) → String
  | [] => String.singleton '.'
  | (key, value) :: entries =>
    String.singleton ',' ++ (field key ++ (CanonicalValue.plain value ++ plainEntries entries))

end

variable {r r' : String}

/-- Elements behind a comma each, with a full stop at the end. -/
theorem listed_append_inj {α : Type} {elem : α → String} {text : List α → String} {as bs : List α}
    (hnil : text [] = String.singleton '.')
    (hcons : ∀ a as, text (a :: as) = String.singleton ',' ++ (elem a ++ text as))
    (has : ∀ a ∈ as, Parses (fun _ => True) elem a)
    (h : text as ++ r = text bs ++ r') : as = bs ∧ r = r' := by
  induction as generalizing bs with
  | nil =>
    cases bs with
    | nil => exact ⟨rfl, (String.append_right_inj _).mp h⟩
    | cons b bs =>
      rw [hnil, hcons, String.append_assoc] at h
      cases (singleton_prefixFree _ _ _ _ h).1
  | cons a as ih =>
    cases bs with
    | nil =>
      rw [hnil, hcons, String.append_assoc] at h
      cases (singleton_prefixFree _ _ _ _ h).1
    | cons b bs =>
      simp only [hcons, String.append_assoc] at h
      obtain ⟨-, h⟩ := singleton_prefixFree _ _ _ _ h
      obtain ⟨hhead, h⟩ := has a mem_cons_self h trivial
      obtain ⟨htail, hr⟩ := ih (fun a ha => has a (mem_cons_of_mem _ ha)) h
      exact ⟨by rw [hhead, htail], hr⟩

def plainTree : TreeCode where
  Fits _ := True
  suffix _ := trivial
  code := CanonicalValue.plain
  text := field
  items := plainItems
  entries := plainEntries
  code_eq v := by cases v <;> simp [CanonicalValue.plain, CanonicalValue.tag, CanonicalValue.payload]
  reads_text _ _ _ _ h _ := field_prefixFree _ _ _ _ h
  reads_items has _ _ _ h _ := listed_append_inj rfl (fun _ _ => rfl) has h
  reads_entries has _ _ _ h _ :=
    listed_append_inj rfl (fun _ _ => by rw [plainEntries, String.append_assoc]) has h

def plainWriter : JsonWriter where
  text _ := CanonicalValue.plain
  isUTF8 text := text.toList.all fun c => decide (c.toNat < 128)
  text_injective _ v _ h := (plainTree.reads v (congrArg (· ++ "") h) trivial).1

end Plain

section Cases

variable {writer : JsonWriter} {sha256 : String → String} {a b : EvidenceCase} {text : String}

/-- In every collection but the omissions, tied records have one content. -/
structure TiesAgree (value : EvidenceCase) : Prop where
  entities : TiedAlike Entity.sortKey Entity.SameContent value.entities
  edges : TiedAlike Edge.sortKey (· = ·) value.edges
  paths : TiedAlike Path.sortKey Path.SameContent value.paths
  facts : TiedAlike Fact.sortKey Fact.SameContent value.facts
  assumptions : TiedAlike Assumption.sortKey Assumption.SameContent value.assumptions
  hypotheses : TiedAlike Hypothesis.sortKey Hypothesis.SameContent value.hypotheses
  unknowns : TiedAlike Unknown.sortKey Unknown.SameContent value.unknowns
  constraints : TiedAlike Constraint.sortKey Constraint.SameContent value.constraints
  provenance : TiedAlike Provenance.sortKey Provenance.SameContent value.provenance
  proofObligations :
    TiedAlike ProofObligation.sortKey ProofObligation.SameContent value.proofObligations
  summaries : TiedAlike SummaryReference.sortKey SummaryReference.SameContent value.summaries
  dependencies : TiedAlike Dependency.sortKey (· = ·) value.dependencies

/-- The omissions without a local id keep their order in every order of the omissions that still
declares the interrupted queries. -/
def OmissionsPinned (value : EvidenceCase) : Prop :=
  ∀ omissions, value.omissions.Perm omissions →
    InterruptedDeclared { value with omissions := omissions } →
      omissions.filter (·.id = "") = value.omissions.filter (·.id = "")

theorem requireValidEvidenceCase_eq_ok :
    requireValidEvidenceCase a = .ok () ↔ validateEvidenceCase a = [] := by
  rw [requireValidEvidenceCase]
  split
  · next h => simp [h, pure_eq_ok]
  · next h => simp [h]

theorem emitterStatus_eq_ok : emitterStatus writer a = .ok () ↔
    spellable writer.isUTF8 (emitCase writer a) = true ∧
      keysSpellable writer.isUTF8 a = true := by
  rw [emitterStatus]
  split
  · next h => simpa [pure_eq_ok] using h
  · next h => simpa using h

/-- What the writer asks of a case, and what it then returns. -/
theorem toEvidenceJson_eq_ok : toEvidenceJson writer sha256 a = .ok text ↔
    a.evidenceId = some (computeEvidenceId sha256 a) ∧ validateEvidenceCase a = [] ∧
      emitterStatus writer a = .ok () ∧ writer.text 2 (emitCase writer a) ++ "\n" = text := by
  rw [toEvidenceJson]
  split
  · next h => simp [h]
  · next evidenceId h =>
    rw [bind_unit_eq_ok, requireValidEvidenceCase_eq_ok, guard_eq_ok,
      bind_unit_eq_ok, pure_eq_ok, h, Option.some.injEq, ne_eq, not_not]
    constructor
    · rintro ⟨hvalid, rfl, hstatus, htext⟩
      exact ⟨rfl, hvalid, hstatus, htext⟩
    · rintro ⟨rfl, hvalid, hstatus, htext⟩
      exact ⟨hvalid, rfl, hstatus, htext⟩

theorem interruptedDeclared_congr (hunknowns : UpToOrder Unknown.SameContent b.unknowns a.unknowns)
    (homissions : a.omissions = b.omissions) (h : InterruptedDeclared b) :
    InterruptedDeclared a := by
  intro unknown hunknown hinterrupted
  obtain ⟨u, hu, hsame⟩ := hunknowns.exists_right hunknown
  have hcode : u.reasonCode = unknown.reasonCode := by rw [hsame.1]
  have hid : u.id = unknown.id := by rw [hsame.1]
  obtain ⟨omission, homission, hexpandable⟩ := h u hu (hcode ▸ hinterrupted)
  refine ⟨omission, ?_, hexpandable⟩
  rw [← hid, omissionDeclaring, homissions]
  exact homission

theorem filter_omissions_rank (omissions : List Omission) (id : String) :
    omissions.filter (fun o => decide (o.sortKey.rank = SortKey.rank { localId := id })) =
      omissions.filter (·.id = id) := by
  refine filter_congr fun o _ => decide_eq_decide.mpr ?_
  rw [SortKey.rank_injective.eq_iff]
  simp [sortKey]

/-- The omissions are written in an order that only the unnamed ones can change. -/
theorem emitOmissions_congr (hperm : a.omissions.Perm b.omissions)
    (hids : DistinctIds sortKey a.omissions)
    (hpinned : b.omissions.filter (·.id = "") = a.omissions.filter (·.id = "")) :
    emitCollection sortKey emitOmission a.omissions =
      emitCollection sortKey emitOmission b.omissions := by
  refine congrArg CanonicalValue.array (congrArg _ (sortOn_eq_of_filter_eq fun k => ?_))
  by_cases hk : ∃ id, k = SortKey.rank { localId := id }
  case neg =>
    have hnone : ∀ l : List Omission, l.filter (fun o => decide (o.sortKey.rank = k)) = [] := by
      intro l
      refine filter_eq_nil_iff.mpr fun o _ ho => hk ⟨o.id, ?_⟩
      exact (of_decide_eq_true ho).symm
    rw [hnone, hnone]
  obtain ⟨id, rfl⟩ := hk
  rw [filter_omissions_rank, filter_omissions_rank]
  by_cases hempty : id = ""
  · rw [hempty]
    exact hpinned.symm
  -- one omission at most has this id
  have hsame : ∀ l : List Omission, (∀ x ∈ l, x ∈ a.omissions) →
      (l.filter (·.id = id)).Pairwise (· = ·) := by
    intro l hl
    refine pairwise_of_forall_mem_list fun x hx y hy => ?_
    obtain ⟨hxl, hxid⟩ := mem_filter.mp hx
    obtain ⟨hyl, hyid⟩ := mem_filter.mp hy
    have hxid : x.id = id := of_decide_eq_true hxid
    have hyid : y.id = id := of_decide_eq_true hyid
    exact hids x (hl x hxl) y (hl y hyl) (hxid.trans hyid.symm) (ne_of_eq_of_ne hxid hempty)
  exact (hperm.filter _).eq_of_pairwise (fun _ _ _ _ h _ => h) (hsame _ fun _ hx => hx)
    (hsame _ fun _ hx => hperm.mem_iff.mpr hx)

/-- The sort keys of a valid case carry its local ids, which are distinct family by family. -/
structure KeysDistinct (value : EvidenceCase) : Prop where
  entities : DistinctIds Entity.sortKey value.entities
  edges : DistinctIds Edge.sortKey value.edges
  paths : DistinctIds Path.sortKey value.paths
  facts : DistinctIds Fact.sortKey value.facts
  assumptions : DistinctIds Assumption.sortKey value.assumptions
  hypotheses : DistinctIds Hypothesis.sortKey value.hypotheses
  unknowns : DistinctIds Unknown.sortKey value.unknowns
  constraints : DistinctIds Constraint.sortKey value.constraints
  provenance : DistinctIds Provenance.sortKey value.provenance
  proofObligations : DistinctIds ProofObligation.sortKey value.proofObligations
  summaries : DistinctIds SummaryReference.sortKey value.summaries
  dependencies : DistinctIds Dependency.sortKey value.dependencies
  omissions : DistinctIds sortKey value.omissions

theorem keysDistinct (h : ((declarations a).map Prod.fst).Nodup) : KeysDistinct a where
  entities := distinctIds_of_mem .entity h (by simp [memberIds, Entity.sortKey])
  edges := distinctIds_of_mem .edge h (by simp [memberIds, Edge.sortKey])
  paths := distinctIds_of_mem .path h (by simp [memberIds, Path.sortKey])
  facts := distinctIds_of_mem .fact h (by simp [memberIds, Fact.sortKey])
  assumptions := distinctIds_of_mem .assumption h (by simp [memberIds, Assumption.sortKey])
  hypotheses := distinctIds_of_mem .hypothesis h (by simp [memberIds, Hypothesis.sortKey])
  unknowns := distinctIds_of_mem .unknown h (by simp [memberIds, Unknown.sortKey])
  constraints := distinctIds_of_mem .constraint h (by simp [memberIds, Constraint.sortKey])
  provenance := distinctIds_of_mem .provenance h (by simp [memberIds, Provenance.sortKey])
  proofObligations := distinctIds_of_mem .proofObligation h (by simp [memberIds, ProofObligation.sortKey])
  summaries := distinctIds_of_mem .summary h (by simp [memberIds, SummaryReference.sortKey])
  dependencies := distinctIds_of_mem .dependency h (by simp [memberIds, Dependency.sortKey])
  omissions := distinctIds_of_mem .omission h (by simp [memberIds, sortKey])

/-- Cases with one content have one tree when ties agree and the omissions are pinned. -/
theorem emitCase_congr (h : a.SameContent b) (hid : a.evidenceId = b.evidenceId)
    (hdistinct : ((declarations a).map Prod.fst).Nodup) (hties : TiesAgree a)
    (hpinned : b.omissions.filter (·.id = "") = a.omissions.filter (·.id = "")) :
    emitCase writer a = emitCase writer b := by
  have hids := keysDistinct hdistinct
  have hobserved := writer.observed
  have hentities : emitCollection _ (emitEntity writer) a.entities = _ :=
    emitCollection_congr h.entities (fun _ _ hxy => hxy.observed hobserved) hids.entities
      hties.entities
  have hpaths : emitCollection _ (emitPath writer) a.paths = _ :=
    emitCollection_congr h.paths (fun _ _ hxy => hxy.observed hobserved) hids.paths
      hties.paths
  have hfacts : emitCollection _ (emitFact writer) a.facts = _ :=
    emitCollection_congr h.facts (fun _ _ hxy => hxy.observed hobserved) hids.facts
      hties.facts
  have hassumptions : emitCollection _ (emitAssumption writer) a.assumptions = _ :=
    emitCollection_congr h.assumptions (fun _ _ hxy => hxy.observed hobserved) hids.assumptions
      hties.assumptions
  have hhypotheses : emitCollection _ (emitHypothesis writer) a.hypotheses = _ :=
    emitCollection_congr h.hypotheses (fun _ _ hxy => hxy.observed hobserved) hids.hypotheses
      hties.hypotheses
  have hunknowns : emitCollection _ (emitUnknown writer) a.unknowns = _ :=
    emitCollection_congr h.unknowns (fun _ _ hxy => hxy.observed hobserved) hids.unknowns
      hties.unknowns
  have hconstraints : emitCollection _ (emitConstraint writer) a.constraints = _ :=
    emitCollection_congr h.constraints (fun _ _ hxy => hxy.observed hobserved) hids.constraints
      hties.constraints
  have hproofObligations : emitCollection _ (emitProofObligation writer) a.proofObligations = _ :=
    emitCollection_congr h.proofObligations (fun _ _ hxy => hxy.observed hobserved)
      hids.proofObligations hties.proofObligations
  have hedges := emitCollection_congr (upToOrder_eq_iff.mpr h.edges)
    (fun _ _ hxy => ⟨congrArg Edge.sortKey hxy, congrArg emitEdge hxy⟩) hids.edges hties.edges
  have hdependencies := emitCollection_congr (upToOrder_eq_iff.mpr h.dependencies)
    (fun _ _ hxy => ⟨congrArg Dependency.sortKey hxy, congrArg emitDependency hxy⟩)
      hids.dependencies hties.dependencies
  have hprovenance : emitCollection _ emitProvenance a.provenance = _ :=
    emitCollection_congr h.provenance (fun _ _ hxy => ⟨by rw [hxy.1]; rfl, hxy.encode⟩)
      hids.provenance hties.provenance
  have hsummaries : emitCollection _ emitSummaryReference a.summaries = _ :=
    emitCollection_congr h.summaries (fun _ _ hxy => ⟨by rw [hxy.1]; rfl, hxy.encode⟩)
      hids.summaries hties.summaries
  have homissions := emitOmissions_congr h.omissions hids.omissions hpinned
  have hclaim : emitClaim writer a.primaryClaim = emitClaim writer b.primaryClaim :=
    h.primaryClaim.observed hobserved
  simp only [emitCase, hentities, hedges, hpaths, hfacts, hassumptions, hhypotheses, hunknowns,
    hconstraints, hprovenance, hproofObligations, hsummaries, hdependencies, homissions, hclaim,
    emitProgram_congr h.program, hid, h.level, h.schemaVersion, h.verificationState]

/-- The same case with its collections in another order. -/
structure EvidenceCase.Shuffled (a b : EvidenceCase) : Prop where
  evidenceId : a.evidenceId = b.evidenceId
  schemaVersion : a.schemaVersion = b.schemaVersion
  level : a.level = b.level
  verificationState : a.verificationState = b.verificationState
  program : a.program = b.program
  primaryClaim : a.primaryClaim = b.primaryClaim
  entities : a.entities.Perm b.entities
  edges : a.edges.Perm b.edges
  paths : a.paths.Perm b.paths
  facts : a.facts.Perm b.facts
  assumptions : a.assumptions.Perm b.assumptions
  hypotheses : a.hypotheses.Perm b.hypotheses
  unknowns : a.unknowns.Perm b.unknowns
  constraints : a.constraints.Perm b.constraints
  provenance : a.provenance.Perm b.provenance
  proofObligations : a.proofObligations.Perm b.proofObligations
  summaries : a.summaries.Perm b.summaries
  dependencies : a.dependencies.Perm b.dependencies
  omissions : a.omissions.Perm b.omissions

theorem EvidenceCase.shuffled_refl (value : EvidenceCase) : value.Shuffled value :=
  ⟨rfl, rfl, rfl, rfl, rfl, rfl, .refl _, .refl _, .refl _, .refl _, .refl _, .refl _, .refl _, .refl _, .refl _, .refl _, .refl _, .refl _, .refl _⟩

theorem EvidenceCase.Shuffled.sameContent (h : a.Shuffled b) : a.SameContent b where
  schemaVersion := h.schemaVersion
  level := h.level
  verificationState := h.verificationState
  program := h.program ▸ a.sameContent_refl.program
  primaryClaim := h.primaryClaim ▸ a.sameContent_refl.primaryClaim
  entities := a.sameContent_refl.entities.trans_perm h.entities
  edges := h.edges
  paths := a.sameContent_refl.paths.trans_perm h.paths
  facts := a.sameContent_refl.facts.trans_perm h.facts
  assumptions := a.sameContent_refl.assumptions.trans_perm h.assumptions
  hypotheses := a.sameContent_refl.hypotheses.trans_perm h.hypotheses
  unknowns := a.sameContent_refl.unknowns.trans_perm h.unknowns
  constraints := a.sameContent_refl.constraints.trans_perm h.constraints
  provenance := a.sameContent_refl.provenance.trans_perm h.provenance
  proofObligations := a.sameContent_refl.proofObligations.trans_perm h.proofObligations
  summaries := a.sameContent_refl.summaries.trans_perm h.summaries
  dependencies := h.dependencies
  omissions := h.omissions

theorem EvidenceCase.Shuffled.domainArgued (h : a.Shuffled b) (ha : DomainArgued a) :
    DomainArgued b := by
  intro hsafe
  obtain ⟨obligation, hmem, hargued⟩ := ha (h.verificationState ▸ hsafe)
  exact ⟨obligation, h.proofObligations.mem_iff.mp hmem, hargued⟩

theorem EvidenceCase.Shuffled.emitterStatus (h : a.Shuffled b) :
    emitterStatus writer a = emitterStatus writer b := by
  have hkeys : keysSpellable writer.isUTF8 a = keysSpellable writer.isUTF8 b := h.entities.all_eq
  have hspelled : spellable writer.isUTF8 (emitCase writer a) =
      spellable writer.isUTF8 (emitCase writer b) := by
    simp only [emitCase, spellable, spellableEntries, h.evidenceId, h.schemaVersion,
      h.level, h.verificationState, h.program, h.primaryClaim,
      spellable_emitCollection _ h.entities,
      spellable_emitCollection _ h.edges,
      spellable_emitCollection _ h.paths,
      spellable_emitCollection _ h.facts,
      spellable_emitCollection _ h.assumptions,
      spellable_emitCollection _ h.hypotheses,
      spellable_emitCollection _ h.unknowns,
      spellable_emitCollection _ h.constraints,
      spellable_emitCollection _ h.provenance,
      spellable_emitCollection _ h.proofObligations,
      spellable_emitCollection _ h.summaries,
      spellable_emitCollection _ h.dependencies,
      spellable_emitCollection _ h.omissions]
  rw [Evidence.emitterStatus, Evidence.emitterStatus, hspelled, hkeys]

/-- A reordered case that still declares its interrupted queries is written too. -/
theorem EvidenceCase.Shuffled.written (h : a.Shuffled b)
    (ha : toEvidenceJson writer sha256 a = .ok text) (hb : InterruptedDeclared b) :
    toEvidenceJson writer sha256 b = .ok (writer.text 2 (emitCase writer b) ++ "\n") := by
  obtain ⟨hid, hvalid, hstatus, -⟩ := toEvidenceJson_eq_ok.mp ha
  obtain ⟨hwell, -, hdomain⟩ := validateEvidenceCase_eq_nil.mp hvalid
  have hcompute : computeEvidenceId sha256 a = computeEvidenceId sha256 b := by
    rw [computeEvidenceId, computeEvidenceId, h.sameContent.encode]
  refine toEvidenceJson_eq_ok.mpr ⟨?_, ?_, ?_, rfl⟩
  · rw [← h.evidenceId, hid, hcompute]
  · exact validateEvidenceCase_eq_nil.mpr ⟨hwell.transfer h.sameContent, hb, h.domainArgued hdomain⟩
  · rw [← h.emitterStatus]
    exact hstatus

/-- The document is the same for every case with the bytes of this one. -/
def JsonOrderFree (writer : JsonWriter) (sha256 : String → String) (a : EvidenceCase)
    (text : String) : Prop :=
  ∀ b text', canonicalEvidenceBytes a = canonicalEvidenceBytes b →
    toEvidenceJson writer sha256 b = .ok text' → text' = text

theorem JsonOrderFree.emitCase_eq (hfree : JsonOrderFree writer sha256 a text)
    (ha : toEvidenceJson writer sha256 a = .ok text) (h : a.Shuffled b)
    (hb : InterruptedDeclared b) : emitCase writer b = emitCase writer a := by
  obtain ⟨-, -, -, htext⟩ := toEvidenceJson_eq_ok.mp ha
  have hsame := hfree b _ h.sameContent.encode (h.written ha hb)
  rw [← htext, String.append_left_inj] at hsame
  exact writer.text_injective 2 hsame

theorem JsonOrderFree.tiesAgree (hfree : JsonOrderFree writer sha256 a text)
    (ha : toEvidenceJson writer sha256 a = .ok text) : TiesAgree a := by
  obtain ⟨-, hvalid, -, -⟩ := toEvidenceJson_eq_ok.mp ha
  obtain ⟨-, hdeclared, -⟩ := validateEvidenceCase_eq_nil.mp hvalid
  have horder := writer.order_perm
  have hrefl := a.shuffled_refl
  have hkeep : ∀ b : EvidenceCase, a.Shuffled b → a.omissions = b.omissions →
      emitCase writer b = emitCase writer a := fun b h homissions =>
    hfree.emitCase_eq ha h (interruptedDeclared_congr h.sameContent.unknowns homissions.symm
      hdeclared)
  constructor
  case entities =>
    refine tiedAlike_of_emitCollection (fun _ _ => entity_of_value horder) fun l hl => ?_
    have heq := hkeep { a with entities := l } { hrefl with entities := hl } rfl
    simp [emitCase] at heq
    exact heq
  case edges =>
    refine tiedAlike_of_emitCollection (fun _ _ hxy => encodeEdge_injective hxy) fun l hl => ?_
    have heq := hkeep { a with edges := l } { hrefl with edges := hl } rfl
    simp [emitCase] at heq
    exact heq
  case paths =>
    refine tiedAlike_of_emitCollection (fun _ _ => path_of_value horder) fun l hl => ?_
    have heq := hkeep { a with paths := l } { hrefl with paths := hl } rfl
    simp [emitCase] at heq
    exact heq
  case facts =>
    refine tiedAlike_of_emitCollection (fun _ _ => fact_of_value horder) fun l hl => ?_
    have heq := hkeep { a with facts := l } { hrefl with facts := hl } rfl
    simp [emitCase] at heq
    exact heq
  case assumptions =>
    refine tiedAlike_of_emitCollection (fun _ _ => assumption_of_value horder) fun l hl => ?_
    have heq := hkeep { a with assumptions := l } { hrefl with assumptions := hl } rfl
    simp [emitCase] at heq
    exact heq
  case hypotheses =>
    refine tiedAlike_of_emitCollection (fun _ _ => hypothesis_of_value horder) fun l hl => ?_
    have heq := hkeep { a with hypotheses := l } { hrefl with hypotheses := hl } rfl
    simp [emitCase] at heq
    exact heq
  case unknowns =>
    refine tiedAlike_of_emitCollection (fun _ _ => unknown_of_value horder) fun l hl => ?_
    have heq := hkeep { a with unknowns := l } { hrefl with unknowns := hl } rfl
    simp [emitCase] at heq
    exact heq
  case constraints =>
    refine tiedAlike_of_emitCollection (fun _ _ => constraint_of_value horder) fun l hl => ?_
    have heq := hkeep { a with constraints := l } { hrefl with constraints := hl } rfl
    simp [emitCase] at heq
    exact heq
  case provenance =>
    refine tiedAlike_of_emitCollection (fun _ _ => provenance_of_encode) fun l hl => ?_
    have heq := hkeep { a with provenance := l } { hrefl with provenance := hl } rfl
    simp [emitCase] at heq
    exact heq
  case proofObligations =>
    refine tiedAlike_of_emitCollection (fun _ _ => proofObligation_of_value horder) fun l hl => ?_
    have heq := hkeep { a with proofObligations := l } { hrefl with proofObligations := hl } rfl
    simp [emitCase] at heq
    exact heq
  case summaries =>
    refine tiedAlike_of_emitCollection (fun _ _ => summaryReference_of_encode) fun l hl => ?_
    have heq := hkeep { a with summaries := l } { hrefl with summaries := hl } rfl
    simp [emitCase] at heq
    exact heq
  case dependencies =>
    refine tiedAlike_of_emitCollection (fun _ _ hxy => encodeDependency_injective hxy) fun l hl => ?_
    have heq := hkeep { a with dependencies := l } { hrefl with dependencies := hl } rfl
    simp [emitCase] at heq
    exact heq

theorem JsonOrderFree.omissionsPinned (hfree : JsonOrderFree writer sha256 a text)
    (ha : toEvidenceJson writer sha256 a = .ok text) : OmissionsPinned a := by
  intro omissions hperm hdeclared
  have hshuffled : a.Shuffled { a with omissions := omissions } :=
    { a.shuffled_refl with omissions := hperm }
  have heq := hfree.emitCase_eq ha hshuffled hdeclared
  have harray : emitCollection sortKey emitOmission omissions =
      emitCollection sortKey emitOmission a.omissions := by simpa [emitCase] using heq
  have hsorted := map_injective_iff.mpr encodeOmission_injective (CanonicalValue.array.inj harray)
  have hfilter := congrArg (List.filter fun o : Omission =>
    decide (o.sortKey.rank = SortKey.rank {})) hsorted
  rw [filter_sortOn, filter_sortOn, filter_omissions_rank, filter_omissions_rank] at hfilter
  exact hfilter

/-- The document of a case is the document of every case with its bytes exactly when tied records
have one content and the omissions without a local id cannot be moved. -/
theorem json_order_free_iff (hfits : (canonicalEvidenceBytes a).length < 2 ^ 64)
    (ha : toEvidenceJson writer sha256 a = .ok text) :
    (∀ b text', canonicalEvidenceBytes a = canonicalEvidenceBytes b →
      toEvidenceJson writer sha256 b = .ok text' → text' = text) ↔
    TiesAgree a ∧ OmissionsPinned a := by
  constructor
  · intro hfree
    have hfree : JsonOrderFree writer sha256 a text := hfree
    exact ⟨hfree.tiesAgree ha, hfree.omissionsPinned ha⟩
  · rintro ⟨hties, hpinned⟩ b text' hbytes hb
    obtain ⟨hid, hvalid, -, htext⟩ := toEvidenceJson_eq_ok.mp ha
    obtain ⟨hid', hvalid', -, htext'⟩ := toEvidenceJson_eq_ok.mp hb
    obtain ⟨hab, hba⟩ := sameContent_of_bytes hfits hbytes
    obtain ⟨hwell, -, -⟩ := validateEvidenceCase_eq_nil.mp hvalid
    obtain ⟨-, hdeclared, -⟩ := validateEvidenceCase_eq_nil.mp hvalid'
    have hsameId : a.evidenceId = b.evidenceId := by
      rw [hid, hid', computeEvidenceId, computeEvidenceId, hbytes]
    have hunnamed := hpinned b.omissions hab.omissions
      (interruptedDeclared_congr hba.unknowns rfl hdeclared)
    rw [← htext, ← htext', emitCase_congr hab hsameId hwell.distinctIds hties hunnamed]

end Cases

section Sample

def zeroDigest : String := String.ofList (List.replicate 64 '0')

/-- A finalized case whose assumptions carry no local id. -/
def writtenCase (symbols : List String) : EvidenceCase :=
  { interruptedCase [] with
    evidenceId := some ⟨.evidence, zeroDigest⟩
    unknowns := []
    assumptions := symbols.map fun symbol => ⟨"", { kind := .symbol, text := symbol }, "", ""⟩ }

theorem writtenCase_written {symbols : List String}
    (hvalid : validateEvidenceCase (writtenCase symbols) = [])
    (hspelled : emitterStatus plainWriter (writtenCase symbols) = .ok ()) :
    toEvidenceJson plainWriter (fun _ => zeroDigest) (writtenCase symbols) =
      .ok (plain (emitCase plainWriter (writtenCase symbols)) ++ "\n") :=
  toEvidenceJson_eq_ok.mpr ⟨rfl, hvalid, hspelled, rfl⟩

/-- One unnamed assumption: every case with these bytes has this document. -/
theorem single_assumption_document :
    (canonicalEvidenceBytes (writtenCase ["p"])).length < 2 ^ 64 ∧
      ∀ b text', canonicalEvidenceBytes (writtenCase ["p"]) = canonicalEvidenceBytes b →
        toEvidenceJson plainWriter (fun _ => zeroDigest) b = .ok text' →
          text' = CanonicalValue.plain (emitCase plainWriter (writtenCase ["p"])) ++ "\n" := by
  have hfits : (canonicalEvidenceBytes (writtenCase ["p"])).length < 2 ^ 64 := by
    rw [canonicalEvidenceBytes, CanonicalValue.length_encode]
    decide +kernel
  have hvalid : validateEvidenceCase (writtenCase ["p"]) = [] := by decide +kernel
  have hwritten := writtenCase_written hvalid
    (emitterStatus_eq_ok.mpr ⟨by decide +kernel, by decide +kernel⟩)
  have hnil : ∀ {α : Type} {key : α → SortKey} {Same : α → α → Prop}, TiedAlike key Same [] := by
    intro α key Same x hx
    cases hx
  have hone : ∀ {α : Type} {key : α → SortKey} {Same : α → α → Prop} {x : α}, Same x x →
      TiedAlike key Same [x] := by
    intro α key Same x hrefl y hy z hz _ _
    rw [mem_singleton.mp hy, mem_singleton.mp hz]
    exact hrefl
  have hties : TiesAgree (writtenCase ["p"]) :=
    ⟨hone ⟨rfl, .nil⟩, hnil, hnil, hnil, hone ⟨rfl, Expression.reorder_refl _⟩, hnil, hnil, hnil,
      hone ⟨rfl, .refl _⟩, hnil, hnil, hnil⟩
  have hpinned : OmissionsPinned (writtenCase ["p"]) := by
    intro omissions hperm _
    rw [(Perm.nil_eq hperm).symm]
    rfl
  exact ⟨hfits, (json_order_free_iff hfits hwritten).mpr ⟨hties, hpinned⟩⟩

/-- Two unnamed assumptions: the bytes forget their order, the document keeps it. -/
theorem unnamed_assumptions_change_document : canonicalEvidenceBytes (writtenCase ["p", "q"]) =
      canonicalEvidenceBytes (writtenCase ["q", "p"]) ∧
    ∃ text text',
      toEvidenceJson plainWriter (fun _ => zeroDigest) (writtenCase ["p", "q"]) = .ok text ∧
      toEvidenceJson plainWriter (fun _ => zeroDigest) (writtenCase ["q", "p"]) = .ok text' ∧
      text ≠ text' := by
  have hshuffled : (writtenCase ["p", "q"]).Shuffled (writtenCase ["q", "p"]) :=
    { (writtenCase ["p", "q"]).shuffled_refl with assumptions := .swap _ _ _ }
  refine ⟨hshuffled.sameContent.encode, _, _, writtenCase_written (by decide +kernel)
      (emitterStatus_eq_ok.mpr ⟨by decide +kernel, by decide +kernel⟩),
    writtenCase_written (by decide +kernel)
      (emitterStatus_eq_ok.mpr ⟨by decide +kernel, by decide +kernel⟩), fun h => ?_⟩
  have hcase := plainWriter.text_injective 2 (String.append_left_inj _ |>.mp h)
  simp [emitCase, emitCollection, sortOn, writtenCase, Assumption.sortKey, emitAssumption,
    assumptionValue, expressionValue] at hcase

end Sample

end Veritas.Evidence

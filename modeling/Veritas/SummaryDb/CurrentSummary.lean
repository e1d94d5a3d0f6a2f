import Mathlib.Data.List.Find
import Veritas.SummaryDb.SummaryRepository

/-! Which summaries the repository calls current after a sequence of publications. -/
namespace Veritas.SummaryDb

open Summary SummaryRepository StatusOr List Option KeyedTable

inductive PublishCall
  | publishSummary (artifact : SummaryArtifact) (context : PublicationContext)
  | publishProjectSummaries (revisionId buildVariantId : String) (artifacts : List SummaryArtifact)

/-- The context that the artifact's own identity names. -/
def contextOf (artifact : SummaryArtifact) : PublicationContext :=
  ⟨artifact.identity.revisionId, artifact.identity.buildVariantId,
    artifact.identity.functionVariantId⟩

namespace PublishCall

/-- In the order of their publication. -/
def artifacts : PublishCall → List SummaryArtifact
  | publishSummary artifact _ => [artifact]
  | publishProjectSummaries _ _ artifacts => artifacts

def MatchesIdentity : PublishCall → Prop
  | publishSummary artifact context => context = contextOf artifact
  | publishProjectSummaries revisionId buildVariantId artifacts => ∀ artifact ∈ artifacts,
      artifact.identity.revisionId = revisionId ∧ artifact.identity.buildVariantId = buildVariantId

def run (codec : SummaryCodec) (repository : SummaryRepository) :
    PublishCall → StatusOr SummaryRepository
  | publishSummary artifact context =>
    Prod.fst <$> repository.publishSummary codec artifact context
  | publishProjectSummaries revisionId buildVariantId artifacts =>
    Prod.fst <$> repository.publishProjectSummaries codec revisionId buildVariantId artifacts

end PublishCall

/-- Calls on a fresh store; it is an error if one of them fails. -/
def runCalls (codec : SummaryCodec) (calls : List PublishCall) : StatusOr SummaryRepository :=
  calls.foldlM (PublishCall.run codec) .empty

def published (calls : List PublishCall) : List SummaryArtifact :=
  calls.flatMap PublishCall.artifacts

def latestIn (artifacts : List SummaryArtifact) (context : PublicationContext) :
    Option SummaryArtifact :=
  artifacts.reverse.find? (contextOf · = context)

/-- Over all revisions and build variants. -/
def latestOf (artifacts : List SummaryArtifact) (functionVariantId : String) :
    Option SummaryArtifact :=
  artifacts.reverse.find? (·.identity.functionVariantId = functionVariantId)

/-- The version names the schema, and the identity is bound as it is. -/
structure Storable (artifact : SummaryArtifact) : Prop where
  labelled : artifact.Labelled
  revision : NulFree artifact.identity.revisionId
  buildVariant : NulFree artifact.identity.buildVariantId
  functionVariant : NulFree artifact.identity.functionVariantId

section Publication

variable {codec : SummaryCodec} {objects objects' : ObjectStore} {artifact a b : SummaryArtifact}
  {artifacts : List SummaryArtifact} {repository repository' : SummaryRepository}

def summaryIdOf (codec : SummaryCodec) (artifact : SummaryArtifact) : StableId :=
  makeStableId codec.sha256 .functionSummary ((codec.serialize artifact).getD "")

def entryOf (codec : SummaryCodec) (artifact : SummaryArtifact) : PreparedArtifact :=
  ⟨summaryIdOf codec artifact, (summaryIdOf codec artifact).toString, artifact.schemaVersion,
    artifact.identity.functionVariantId⟩

/-- The row that a publication in the artifact's own context binds. -/
def bindingOf (codec : SummaryCodec) (artifact : SummaryArtifact) : SummaryBindingRow :=
  (entryOf codec artifact).bindingRow artifact.identity.functionVariantId
    artifact.identity.revisionId artifact.identity.buildVariantId

/-- The artifact's bytes are in the store, under its id. -/
def Stored (codec : SummaryCodec) (objects : ObjectStore) (artifact : SummaryArtifact) : Prop :=
  ∃ bytes, codec.serialize artifact = some bytes ∧
    objects (summaryIdOf codec artifact).toString = some bytes

def ObjectStore.Keeps (objects objects' : ObjectStore) : Prop :=
  ∀ key bytes, objects key = some bytes → objects' key = some bytes

theorem Stored.mono (h : Stored codec objects artifact) (hkeeps : objects.Keeps objects') :
    Stored codec objects' artifact := by
  obtain ⟨bytes, hbytes, hheld⟩ := h
  exact ⟨bytes, hbytes, hkeeps _ _ hheld⟩

theorem ObjectStore.putIfAbsent_eq_ok {key bytes : String}
    (h : objects.putIfAbsent key bytes = .ok objects') :
    objects.Keeps objects' ∧ objects' key = some bytes := by
  unfold putIfAbsent at h
  cases hheld : objects key with
  | some stored =>
    simp only [hheld] at h
    by_cases hne : stored ≠ bytes
    · rw [if_pos hne] at h
      exact absurd h throw_ne_ok
    · rw [if_neg hne] at h
      cases pure_eq_ok.mp h
      exact ⟨fun _ _ h => h, by rw [hheld, not_not.mp hne]⟩
  | none =>
    simp only [hheld] at h
    cases pure_eq_ok.mp h
    refine ⟨fun k b hk => ?_, Function.update_self ..⟩
    have hne : k ≠ key := by
      rintro rfl
      simp [hheld] at hk
    rw [Function.update_of_ne hne, hk]

variable {entry : PreparedArtifact}

theorem prepareArtifactMetadata_eq_ok (h : prepareArtifactMetadata codec artifact = .ok entry) :
    entry = entryOf codec artifact := by
  obtain ⟨id, hid, h⟩ := bind_eq_ok.mp h
  cases pure_eq_ok.mp h
  unfold SummaryCodec.computeFunctionSummaryId at hid
  cases hbytes : codec.serialize artifact with
  | none =>
    simp only [hbytes] at hid
    exact absurd hid throw_ne_ok
  | some bytes =>
    simp only [hbytes] at hid
    cases pure_eq_ok.mp hid
    rw [entryOf, summaryIdOf, hbytes, getD_some]

theorem prepareArtifact_eq_ok (h : prepareArtifact codec objects artifact = .ok (objects', entry)) :
    entry = entryOf codec artifact ∧ objects.Keeps objects' ∧ Stored codec objects' artifact := by
  obtain ⟨prepared, hprepared, h⟩ := bind_eq_ok.mp h
  obtain ⟨bytes, hbytes, h⟩ := bind_eq_ok.mp h
  obtain ⟨stored, hstored, h⟩ := bind_eq_ok.mp h
  cases pure_eq_ok.mp h
  cases prepareArtifactMetadata_eq_ok hprepared
  obtain ⟨hkeeps, hheld⟩ := ObjectStore.putIfAbsent_eq_ok hstored
  refine ⟨rfl, hkeeps, bytes, ?_, hheld⟩
  unfold SummaryCodec.serializeSummaryArtifact at hbytes
  cases hserialize : codec.serialize artifact with
  | none =>
    simp only [hserialize] at hbytes
    exact absurd hbytes throw_ne_ok
  | some text =>
    simp only [hserialize] at hbytes
    rw [pure_eq_ok.mp hbytes]

theorem prepareArtifacts_eq_ok {prepared : List PreparedArtifact}
    (h : prepareArtifacts codec objects artifacts = .ok (objects', prepared)) :
    prepared = artifacts.map (entryOf codec) ∧ objects.Keeps objects' ∧
      ∀ artifact ∈ artifacts, Stored codec objects' artifact := by
  refine foldlM_invariant (P := fun pre state => state.2 = pre.map (entryOf codec) ∧
    objects.Keeps state.1 ∧ ∀ artifact ∈ pre, Stored codec state.1 artifact)
    ⟨rfl, fun _ _ h => h, nofun⟩ ?_ h
  rintro pre x ⟨held, done⟩ ⟨held', done'⟩ ⟨hdone, hkeeps, hstored⟩ hstep
  obtain ⟨⟨next, entry⟩, hentry, hstep⟩ := bind_eq_ok.mp hstep
  cases pure_eq_ok.mp hstep
  obtain ⟨rfl, hnext, hx⟩ := prepareArtifact_eq_ok hentry
  refine ⟨?_, fun key bytes hkey => hnext _ _ (hkeeps _ _ hkey), fun y hy => ?_⟩
  · rw [map_append, ← hdone]
    rfl
  · rcases mem_append.mp hy with hy | hy
    · exact (hstored y hy).mono hnext
    · rw [mem_singleton.mp hy]
      exact hx

/-- The rows of one publication. -/
def stage (codec : SummaryCodec) (tables : SummaryTables) (artifact : SummaryArtifact) :
    SummaryTables where
  summaryObjects := tables.summaryObjects.insertOrIgnore (entryOf codec artifact).objectRow
  summaryBindings := tables.summaryBindings.insertOrReplace (bindingOf codec artifact)

theorem PublishCall.run_eq_ok {call : PublishCall} (hmatch : call.MatchesIdentity)
    (h : call.run codec repository = .ok repository') :
    repository'.metadataStore = call.artifacts.foldl (stage codec) repository.metadataStore ∧
      repository.objectStore.Keeps repository'.objectStore ∧
      ∀ artifact ∈ call.artifacts, Stored codec repository'.objectStore artifact := by
  cases call with
  | publishSummary artifact context =>
    obtain ⟨⟨_, id⟩, hpublish, rfl⟩ := map_eq_ok.mp h
    obtain ⟨⟨objects, prepared⟩, hprepare, hpublish⟩ := bind_eq_ok.mp hpublish
    cases pure_eq_ok.mp hpublish
    obtain ⟨rfl, hkeeps, hstored⟩ := prepareArtifact_eq_ok hprepare
    have hcontext : context = contextOf artifact := hmatch
    subst hcontext
    refine ⟨rfl, hkeeps, fun a ha => ?_⟩
    rw [mem_singleton.mp ha]
    exact hstored
  | publishProjectSummaries revisionId buildVariantId artifacts =>
    obtain ⟨⟨_, ids⟩, hpublish, rfl⟩ := map_eq_ok.mp h
    obtain ⟨⟨objects, prepared⟩, hprepare, hpublish⟩ := bind_eq_ok.mp hpublish
    cases pure_eq_ok.mp hpublish
    obtain ⟨rfl, hkeeps, hstored⟩ := prepareArtifacts_eq_ok hprepare
    refine ⟨?_, hkeeps, hstored⟩
    rw [foldl_map]
    refine foldl_ext _ _ _ fun tables a ha => ?_
    obtain ⟨rfl, rfl⟩ := hmatch a ha
    rfl

/-- The stores hold these publications and no others. -/
structure Holds (codec : SummaryCodec) (artifacts : List SummaryArtifact)
    (repository : SummaryRepository) : Prop where
  tables : repository.metadataStore = artifacts.foldl (stage codec) .empty
  stored : ∀ artifact ∈ artifacts, Stored codec repository.objectStore artifact

theorem holds_runCalls {calls : List PublishCall} (hmatch : ∀ call ∈ calls, call.MatchesIdentity)
    (h : runCalls codec calls = .ok repository) : Holds codec (published calls) repository := by
  revert hmatch
  refine foldlM_invariant (P := fun pre state =>
    (∀ call ∈ pre, call.MatchesIdentity) → Holds codec (published pre) state) ?_ ?_ h
  · exact fun _ => ⟨rfl, nofun⟩
  · intro pre call state state' hpre hcall hmatches
    have hstate := hpre fun c hc => hmatches c (mem_append_left _ hc)
    obtain ⟨htables, hkeeps, hstored⟩ := PublishCall.run_eq_ok (hmatches call (by simp)) hcall
    have happend : published (pre ++ [call]) = published pre ++ call.artifacts := by
      simp [published]
    rw [happend]
    refine ⟨by rw [foldl_append, htables, hstate.tables], fun a ha => ?_⟩
    rcases mem_append.mp ha with ha | ha
    · exact (hstate.stored a ha).mono hkeeps
    · exact hstored a ha

theorem foldl_stage (tables : SummaryTables) : artifacts.foldl (stage codec) tables =
      ⟨artifacts.foldl (fun t a => t.insertOrIgnore (entryOf codec a).objectRow)
          tables.summaryObjects,
        artifacts.foldl (fun t a => t.insertOrReplace (bindingOf codec a))
          tables.summaryBindings⟩ := by
  induction artifacts generalizing tables with
  | nil => rfl
  | cons a artifacts ih => exact ih _

variable (hcodec : codec.Lawful) (hsha : ∀ bytes, IsDigestHex (codec.sha256 bytes))
  (hstorable : ∀ artifact ∈ artifacts, Storable artifact)

include hsha in
theorem bindText_summaryIdOf (artifact : SummaryArtifact) :
    bindText (summaryIdOf codec artifact).toString = (summaryIdOf codec artifact).toString :=
  bindText_of_nulFree (nulFree_toString (hsha _))

include hcodec in
/-- The store takes one content for an id, so the id says which artifact it is. -/
theorem eq_of_summaryIdOf_eq (ha : Stored codec objects a) (hb : Stored codec objects b)
    (hsa : Storable a) (hsb : Storable b)
    (hid : (summaryIdOf codec a).toString = (summaryIdOf codec b).toString) : a = b := by
  obtain ⟨bytes, hbytes, hheld⟩ := ha
  obtain ⟨bytes', hbytes', hheld'⟩ := hb
  rw [hid, hheld'] at hheld
  cases hheld
  exact hcodec.serialize_injective hsa.labelled hsb.labelled hbytes hbytes'

theorem nulFree_schemaVersion (h : artifact.Labelled) : NulFree artifact.schemaVersion := by
  cases artifact <;>
  · rw [SummaryArtifact.schemaVersion, show _ = _ from h, NulFree]
    decide

section

variable (h : Holds codec artifacts repository)
include h

include hcodec hsha hstorable in
theorem getSummaryArtifact_of_mem (ha : a ∈ artifacts) :
    repository.getSummaryArtifact codec (summaryIdOf codec a) = .ok a := by
  have hsa := hstorable a ha
  obtain ⟨bytes, hbytes, hheld⟩ := h.stored a ha
  have hkey : ∀ x, (entryOf codec x).objectRow.summaryId = (summaryIdOf codec x).toString :=
    fun x => bindText_summaryIdOf hsha x
  have hrow : repository.metadataStore.summaryObjects.find? (summaryIdOf codec a).toString =
      some (entryOf codec a).objectRow := by
    rw [h.tables, foldl_stage, find?_foldl_insertOrIgnore]
    simp only [hkey]
    obtain ⟨b, hb, hbmem, hid⟩ := Ordered.exists_find?
      (p := fun x => (summaryIdOf codec x).toString = (summaryIdOf codec a).toString) ha rfl
    rw [hb, eq_of_summaryIdOf_eq hcodec (h.stored b hbmem) (h.stored a ha) (hstorable b hbmem) hsa hid]
    rfl
  have hget : repository.objectStore.get (summaryIdOf codec a).toString = .ok bytes := by
    rw [ObjectStore.get, hheld]
    rfl
  refine bind_eq_ok.mpr ⟨bytes, hget, ?_⟩
  rw [bindText_summaryIdOf hsha, hrow]
  have hversion : (entryOf codec a).objectRow.schemaVersion = a.schemaVersion :=
    bindText_of_nulFree (nulFree_schemaVersion hsa.labelled)
  simp only [hversion]
  exact hcodec.parse_serialize hsa.labelled hbytes

omit h in
include hsha in
theorem bindingOf_eq (h : Storable a) :
    bindingOf codec a = ⟨a.identity.functionVariantId, a.identity.revisionId,
      a.identity.buildVariantId, (summaryIdOf codec a).toString, 1⟩ := by
  rw [bindingOf, PreparedArtifact.bindingRow, bindText_of_nulFree h.functionVariant,
    bindText_of_nulFree h.revision, bindText_of_nulFree h.buildVariant, entryOf,
    bindText_summaryIdOf hsha]

omit h in
theorem latestIn_eq_some {context : PublicationContext} (h : latestIn artifacts context = some a) :
    a ∈ artifacts ∧ contextOf a = context :=
  ⟨List.mem_reverse.mp (List.mem_of_find?_eq_some h), of_decide_eq_true (List.find?_some h :)⟩

variable {row : SummaryBindingRow} {buildVariantId functionVariantId revisionId : String}

include hsha hstorable in
/-- The rows are those of the last publication in each context. -/
theorem mem_summaryBindings_iff :
    row ∈ repository.metadataStore.summaryBindings.rows ↔
      ∃ a, latestIn artifacts (contextOf a) = some a ∧ row = bindingOf codec a := by
  have hfind : ∀ context : PublicationContext, repository.metadataStore.summaryBindings.find?
        (context.functionVariantId, context.revisionId, context.buildVariantId) =
      (latestIn artifacts context).map (bindingOf codec) := by
    intro context
    rw [h.tables, foldl_stage, find?_foldl_insertOrReplace]
    have hkeys : ∀ x ∈ artifacts.reverse,
        decide ((bindingOf codec x).primaryKey =
          (context.functionVariantId, context.revisionId, context.buildVariantId)) =
        decide (contextOf x = context) := by
      intro x hx
      rw [bindingOf_eq hsha (hstorable x (mem_reverse.mp hx)), decide_eq_decide]
      cases context
      simp only [SummaryBindingRow.primaryKey, contextOf, Prod.mk.injEq,
        PublicationContext.mk.injEq]
      tauto
    rw [find?_congr hkeys]
    exact or_none
  constructor
  · intro hrow
    have hself := find?_eq_some.mpr ⟨hrow, rfl⟩
    have hlatest := hfind ⟨row.revisionId, row.buildVariantId, row.functionVariantId⟩
    obtain ⟨a, ha, hrowOf⟩ := map_eq_some_iff.mp (hlatest.symm.trans hself)
    refine ⟨a, ?_, hrowOf.symm⟩
    rw [(latestIn_eq_some ha).2]
    exact ha
  · rintro ⟨a, ha, rfl⟩
    have hlatest := hfind (contextOf a)
    rw [ha] at hlatest
    exact (find?_eq_some.mp hlatest).1

include hcodec hsha hstorable in
theorem readCurrentBinding_bindingOf (ha : a ∈ artifacts) :
    repository.readCurrentBinding codec a.identity.revisionId a.identity.buildVariantId
      (bindingOf codec a) = .ok a := by
  rw [bindingOf_eq hsha (hstorable a ha)]
  refine bind_eq_ok.mpr ⟨summaryIdOf codec a, parseStableId_toString (hsha _), ?_⟩
  refine guard_eq_ok.mpr ⟨fun hkind => hkind rfl, ?_⟩
  refine bind_eq_ok.mpr ⟨a, getSummaryArtifact_of_mem hcodec hsha hstorable h ha, ?_⟩
  refine guard_eq_ok.mpr ⟨fun hne => hne.elim (· rfl) (· rfl), ?_⟩
  exact guard_eq_ok.mpr ⟨fun hne => hne rfl, rfl⟩

omit h in
/-- A row is read as an artifact of its own function. -/
theorem functionVariantId_of_readCurrentBinding
    (h : repository.readCurrentBinding codec revisionId buildVariantId row = .ok a) :
    row.functionVariantId = a.identity.functionVariantId := by
  obtain ⟨id, -, h⟩ := bind_eq_ok.mp h
  obtain ⟨-, h⟩ := guard_eq_ok.mp h
  obtain ⟨b, -, h⟩ := bind_eq_ok.mp h
  obtain ⟨-, h⟩ := guard_eq_ok.mp h
  obtain ⟨hfunction, h⟩ := guard_eq_ok.mp h
  cases pure_eq_ok.mp h
  exact (not_not.mp hfunction).symm

include hsha hstorable in
theorem mem_currentBindings_iff (hrevision : NulFree revisionId) (hbuild : NulFree buildVariantId) :
    row ∈ repository.currentBindings revisionId buildVariantId ↔
      ∃ a, latestIn artifacts (contextOf a) = some a ∧ a.identity.revisionId = revisionId ∧
        a.identity.buildVariantId = buildVariantId ∧ row = bindingOf codec a := by
  rw [currentBindings, mem_insertionSort, mem_filter, decide_eq_true_eq, mem_summaryBindings_iff
    hsha hstorable h, bindText_of_nulFree hrevision, bindText_of_nulFree hbuild]
  constructor
  · rintro ⟨⟨a, ha, rfl⟩, hrow⟩
    rw [bindingOf_eq hsha (hstorable a (latestIn_eq_some ha).1)] at hrow
    exact ⟨a, ha, hrow.1, hrow.2.1, rfl⟩
  · rintro ⟨a, ha, rfl, rfl, rfl⟩
    rw [bindingOf_eq hsha (hstorable a (latestIn_eq_some ha).1)]
    exact ⟨⟨a, ha, (bindingOf_eq hsha (hstorable a (latestIn_eq_some ha).1)).symm⟩, rfl, rfl, rfl⟩

omit h in
/-- The rows of one context have different functions, so the sort is strict. -/
theorem sortedLT_currentBindings (revisionId buildVariantId : String) :
    ((repository.currentBindings revisionId buildVariantId).map
      SummaryBindingRow.functionVariantId).SortedLT := by
  have hsorted := pairwise_insertionSort
    (fun x y : SummaryBindingRow => x.functionVariantId ≤ y.functionVariantId)
    (repository.metadataStore.summaryBindings.rows.filter fun row =>
      row.revisionId = bindText revisionId ∧ row.buildVariantId = bindText buildVariantId ∧
        row.isCurrent = 1)
  have hnodup : (repository.currentBindings revisionId buildVariantId).Nodup := by
    rw [currentBindings, (perm_insertionSort _ _).nodup_iff]
    exact repository.metadataStore.summaryBindings.keyed.of_map.filter _
  have hlt : (repository.currentBindings revisionId buildVariantId).Pairwise
      fun x y => x.functionVariantId < y.functionVariantId := by
    refine List.Pairwise.imp_of_mem ?_ (hsorted.and hnodup)
    intro x y hx hy hxy
    obtain ⟨hxrow, hx⟩ := mem_filter.mp ((mem_insertionSort _).mp hx)
    obtain ⟨hyrow, hy⟩ := mem_filter.mp ((mem_insertionSort _).mp hy)
    have hx := of_decide_eq_true hx
    have hy := of_decide_eq_true hy
    refine lt_of_le_of_ne hxy.1 fun heq => hxy.2 (eq_of_key_eq hxrow hyrow ?_)
    rw [SummaryBindingRow.primaryKey, SummaryBindingRow.primaryKey, heq, hx.1, hy.1, hx.2.1, hy.2.1]
  exact (pairwise_map.mpr hlt).sortedLT

/-- Each function of the context once, with its last publication, in function order. -/
def ListsLatest (artifacts : List SummaryArtifact) (revisionId buildVariantId : String)
    (current : List SummaryArtifact) : Prop :=
  (current.map (·.identity.functionVariantId)).SortedLT ∧
    ∀ a, a ∈ current ↔
      latestIn artifacts ⟨revisionId, buildVariantId, a.identity.functionVariantId⟩ = some a

include hcodec hsha hstorable in
theorem listCurrentSummaryArtifacts_eq_ok
    (hrevision : NulFree revisionId) (hbuild : NulFree buildVariantId) :
    ∃ current, repository.listCurrentSummaryArtifacts codec revisionId buildVariantId = .ok current ∧
      ListsLatest artifacts revisionId buildVariantId current := by
  have hread : ∀ row ∈ repository.currentBindings revisionId buildVariantId, ∃ a,
      latestIn artifacts (contextOf a) = some a ∧ a.identity.revisionId = revisionId ∧
        a.identity.buildVariantId = buildVariantId ∧ row = bindingOf codec a ∧
        repository.readCurrentBinding codec revisionId buildVariantId row = .ok a := by
    intro row hrow
    obtain ⟨a, ha, rfl, rfl, rfl⟩ :=
      (mem_currentBindings_iff hsha hstorable h hrevision hbuild).mp hrow
    exact ⟨a, ha, rfl, rfl, rfl,
      readCurrentBinding_bindingOf hcodec hsha hstorable h (latestIn_eq_some ha).1⟩
  obtain ⟨current, hcurrent⟩ := mapM_isOk
    (repository.readCurrentBinding codec revisionId buildVariantId)
    (repository.currentBindings revisionId buildVariantId) fun row hrow => by
      obtain ⟨a, -, -, -, -, hok⟩ := hread row hrow
      exact ⟨a, hok⟩
  refine ⟨current, hcurrent, ?_, fun a => ?_⟩
  · have hfunctions : current.map (·.identity.functionVariantId) =
        (repository.currentBindings revisionId buildVariantId).map
          SummaryBindingRow.functionVariantId := by
      have hpairs := mapM_eq_ok.mp hcurrent
      rw [eq_comm, ← forall₂_eq_eq_eq, forall₂_map_left_iff, forall₂_map_right_iff]
      exact hpairs.imp fun _ _ => functionVariantId_of_readCurrentBinding
    rw [hfunctions]
    exact sortedLT_currentBindings revisionId buildVariantId
  · rw [mem_of_mapM hcurrent]
    constructor
    · rintro ⟨row, hrow, hok⟩
      obtain ⟨b, hb, rfl, rfl, rfl, hok'⟩ := hread row hrow
      cases Except.ok.inj (hok.symm.trans hok')
      exact hb
    · intro ha
      obtain ⟨hmem, hcontext⟩ := latestIn_eq_some ha
      have hrevisionOf := congrArg PublicationContext.revisionId hcontext
      have hbuildOf := congrArg PublicationContext.buildVariantId hcontext
      rw [← hcontext] at ha
      have hrow := (mem_currentBindings_iff hsha hstorable h hrevision hbuild).mpr
        ⟨a, ha, hrevisionOf, hbuildOf, rfl⟩
      refine ⟨_, hrow, ?_⟩
      obtain rfl : a.identity.revisionId = revisionId := hrevisionOf
      obtain rfl : a.identity.buildVariantId = buildVariantId := hbuildOf
      exact readCurrentBinding_bindingOf hcodec hsha hstorable h hmem

include hcodec hsha hstorable in
/-- Whatever row of the function comes first, the answer is that row's artifact. -/
theorem getCurrentSummaryArtifact_of_visit {order : RowOrder}
    (ha : latestIn artifacts (contextOf a) = some a)
    (hfirst : (order.visit (repository.metadataStore.summaryBindings.rows.filter fun row =>
      row.functionVariantId = bindText functionVariantId ∧ row.isCurrent = 1)).head? =
        some (bindingOf codec a)) :
    repository.getCurrentSummaryArtifact codec order functionVariantId = .ok a := by
  have hmem := (latestIn_eq_some ha).1
  rw [bindingOf_eq hsha (hstorable a hmem)] at hfirst
  rw [getCurrentSummaryArtifact, hfirst]
  exact bind_eq_ok.mpr ⟨summaryIdOf codec a, parseStableId_toString (hsha _),
    getSummaryArtifact_of_mem hcodec hsha hstorable h hmem⟩

include hsha hstorable in
theorem mem_functionRows_iff (hfunction : NulFree functionVariantId) :
    (row ∈ repository.metadataStore.summaryBindings.rows.filter fun row =>
      row.functionVariantId = bindText functionVariantId ∧ row.isCurrent = 1) ↔
      ∃ a, latestIn artifacts (contextOf a) = some a ∧
        a.identity.functionVariantId = functionVariantId ∧ row = bindingOf codec a := by
  rw [mem_filter, decide_eq_true_eq, mem_summaryBindings_iff hsha hstorable h,
    bindText_of_nulFree hfunction]
  constructor
  · rintro ⟨⟨a, ha, rfl⟩, hrow⟩
    rw [bindingOf_eq hsha (hstorable a (latestIn_eq_some ha).1)] at hrow
    exact ⟨a, ha, hrow.1, rfl⟩
  · rintro ⟨a, ha, rfl, rfl⟩
    rw [bindingOf_eq hsha (hstorable a (latestIn_eq_some ha).1)]
    exact ⟨⟨a, ha, (bindingOf_eq hsha (hstorable a (latestIn_eq_some ha).1)).symm⟩, rfl, rfl⟩

/-- The query may visit any row it selects first. -/
def RowOrder.leading (row : SummaryBindingRow) : RowOrder where
  visit rows := if row ∈ rows then row :: rows.erase row else rows
  perm rows := by
    by_cases h : row ∈ rows
    · rw [if_pos h]
      exact (perm_cons_erase h).symm
    · rw [if_neg h]

omit h in
theorem latestOf_eq_some (h : latestOf artifacts functionVariantId = some a) :
    a ∈ artifacts ∧ a.identity.functionVariantId = functionVariantId :=
  ⟨List.mem_reverse.mp (List.mem_of_find?_eq_some h), of_decide_eq_true (List.find?_some h :)⟩

omit h in
/-- The last publication of a function is the last one in its own context. -/
theorem latestIn_of_latestOf (h : latestOf artifacts functionVariantId = some a) :
    latestIn artifacts (contextOf a) = some a := by
  rw [latestOf, find?_eq_some_iff_append] at h
  obtain ⟨hfunction, before, after, hsplit, hbefore⟩ := h
  rw [latestIn, find?_eq_some_iff_append]
  refine ⟨decide_eq_true rfl, before, after, hsplit, fun x hx => ?_⟩
  have hne := hbefore x hx
  simp only [Bool.not_eq_true', decide_eq_false_iff_not, decide_eq_true_eq] at hfunction hne ⊢
  intro hcontext
  exact hne ((congrArg PublicationContext.functionVariantId hcontext).trans hfunction)

omit h in
theorem exists_latestIn (ha : a ∈ artifacts) : ∃ b, latestIn artifacts (contextOf a) = some b :=
  Option.isSome_iff_exists.mp
    (List.find?_isSome.mpr ⟨a, List.mem_reverse.mpr ha, decide_eq_true rfl⟩)

include hcodec hsha hstorable in
/-- The function's last publication is the answer in every row order just when the function was
published in one context. -/
theorem getCurrentSummaryArtifact_iff (ha : latestOf artifacts functionVariantId = some a) :
    (∀ order, repository.getCurrentSummaryArtifact codec order functionVariantId = .ok a) ↔
      ∀ b ∈ artifacts, b.identity.functionVariantId = functionVariantId →
        contextOf b = contextOf a := by
  obtain ⟨hmem, rfl⟩ := latestOf_eq_some ha
  have hfunction := (hstorable a hmem).functionVariant
  have hlatest := latestIn_of_latestOf ha
  constructor
  · intro hanswer b hb hsame
    obtain ⟨c, hc⟩ := exists_latestIn hb
    obtain ⟨hcmem, hcontext⟩ := latestIn_eq_some hc
    have hcself : latestIn artifacts (contextOf c) = some c := by rw [hcontext, hc]
    have hcfunction : c.identity.functionVariantId = a.identity.functionVariantId :=
      (congrArg PublicationContext.functionVariantId hcontext).trans hsame
    -- A query that visits the row of the other context first answers with that row.
    have hrow := (mem_functionRows_iff hsha hstorable h hfunction).mpr ⟨c, hcself, hcfunction, rfl⟩
    have hother : repository.getCurrentSummaryArtifact codec (.leading (bindingOf codec c))
        a.identity.functionVariantId = .ok c := by
      refine getCurrentSummaryArtifact_of_visit hcodec hsha hstorable h hcself ?_
      simp only [RowOrder.leading]
      rw [if_pos hrow, head?_cons]
    cases Except.ok.inj (hother.symm.trans (hanswer _))
    exact hcontext.symm
  · intro hone order
    have hself := (mem_functionRows_iff hsha hstorable h hfunction).mpr ⟨a, hlatest, rfl, rfl⟩
    have hvisited := (order.perm _).mem_iff.mpr hself
    obtain ⟨row, hrow⟩ := isSome_iff_exists.mp (isSome_head?.mpr (ne_nil_of_mem hvisited))
    have hselected := (order.perm _).mem_iff.mp (mem_of_mem_head? hrow)
    obtain ⟨b, hb, hsame, rfl⟩ := (mem_functionRows_iff hsha hstorable h hfunction).mp hselected
    rw [hone b (latestIn_eq_some hb).1 hsame, hlatest] at hb
    cases hb
    exact getCurrentSummaryArtifact_of_visit hcodec hsha hstorable h hlatest hrow

end

end Publication

def sampleSummary (revisionId : String) : V1.FunctionSummary where
  header := ⟨"summary.v1", 0⟩
  identity := ⟨"", revisionId, "debug", "f", ""⟩

/-- It serializes the two samples, and nothing else. -/
def sampleCodec : SummaryCodec where
  sha256 bytes := String.ofList (digestToHex (List.replicate 32 (bytes.length % 256)))
  serializeV1 summary :=
    if summary = sampleSummary "old" then some "1"
    else if summary = sampleSummary "new" then some "22"
    else none
  serializeV2 _ := none
  parseV1 bytes :=
    if bytes = "1" then some (sampleSummary "old")
    else if bytes = "22" then some (sampleSummary "new")
    else none
  parseV2 _ := none

theorem lawful_sampleCodec : sampleCodec.Lawful where
  parseV1 summary bytes h := by
    simp only [sampleCodec] at h ⊢
    by_cases hold : summary = sampleSummary "old"
    · rw [if_pos hold] at h
      cases h
      rw [if_pos rfl, hold]
    · rw [if_neg hold] at h
      by_cases hnew : summary = sampleSummary "new"
      · rw [if_pos hnew] at h
        cases h
        rw [if_neg (by decide), if_pos rfl, hnew]
      · rw [if_neg hnew] at h
        cases h
  parseV2 summary bytes h := by cases h
  header bytes v1 v2 h1 h2 := by cases h2

theorem isDigestHex_sampleCodec (bytes : String) : IsDigestHex (sampleCodec.sha256 bytes) :=
  isDigestHex_replicate _

def sampleCalls : List PublishCall :=
  [.publishSummary (.v1 (sampleSummary "old")) ⟨"old", "debug", "f"⟩,
    .publishProjectSummaries "new" "debug" [.v1 (sampleSummary "new")]]

theorem matchesIdentity_sampleCalls : ∀ call ∈ sampleCalls, call.MatchesIdentity := by
  intro call hcall
  simp only [sampleCalls, mem_cons, not_mem_nil, or_false] at hcall
  rcases hcall with rfl | rfl
  · rfl
  · intro artifact hartifact
    rw [mem_singleton.mp hartifact]
    exact ⟨rfl, rfl⟩

theorem storable_sampleCalls : ∀ artifact ∈ published sampleCalls, Storable artifact := by
  have hsample : ∀ revisionId, NulFree revisionId →
      Storable (.v1 (sampleSummary revisionId)) := fun revisionId h =>
    ⟨rfl, h, (by decide : '\x00' ∉ "debug".toList), (by decide : '\x00' ∉ "f".toList)⟩
  intro artifact hartifact
  simp only [published, sampleCalls, flatMap_cons, flatMap_nil, PublishCall.artifacts,
    append_nil, singleton_append, mem_cons, not_mem_nil, or_false] at hartifact
  rcases hartifact with rfl | rfl
  · exact hsample "old" (by unfold NulFree; decide)
  · exact hsample "new" (by unfold NulFree; decide)

/-- The rows in the order of their insertion. -/
def RowOrder.inserted : RowOrder := ⟨id, fun _ => .refl _⟩

end Veritas.SummaryDb

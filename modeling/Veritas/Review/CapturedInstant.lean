import Veritas.Review.SnapshotCapture

/-! The instant at which a captured snapshot existed. -/
namespace Veritas.Review

open Timed StatusOr List

/-- A path that the walk of a root comes to when nothing changes meanwhile. -/
inductive InTree (w : World) : String → String → Prop
  | root (path : String) : InTree w path path
  | step {path name child p : String} {id : FileId} :
      w.openRelative path = .file id → ¬ (w.stat id).isReg → name ∈ entryNames w id →
      normalizeReviewPath (path ++ "/" ++ name) = .ok child → InTree w child p → InTree w path p

def Leaf (w : World) (path : String) : Prop :=
  w.openRelative path = .missing ∨ ∃ id, w.openRelative path = .file id ∧ (w.stat id).isReg

/-- The path names the same file, of the same kind and with the same entries if a directory. -/
structure SameEntry (w w' : World) (path : String) : Prop where
  opened : w'.openRelative path = w.openRelative path
  mode : ∀ id, w.openRelative path = .file id → (w'.stat id).mode = (w.stat id).mode
  names : ∀ id, w.openRelative path = .file id → entryNames w' id = entryNames w id

/-- What the snapshot records was so in the world. -/
structure ExistedIn (request : SnapshotRequest) (d : ReviewSnapshot) (w : World) : Prop where
  bytes : ∀ path state bytes, d.captured.find? path = some state → state.bytes = some bytes →
    ∃ id, w.openRelative path = .file id ∧ w.content id = bytes
  missing : ∀ path state, d.captured.find? path = some state → state.issue = "missing" →
    w.openRelative path = .missing
  members : ∀ p, p ∈ d.artifactMembers ↔ ∃ raw ∈ request.selectedArtifacts, ∃ root,
    normalizeReviewPath raw = .ok root ∧ InTree w root p ∧ Leaf w p
  index : w.index = .ok d.index
  untracked : w.untracked = .ok d.untracked
  base : w.pinBase = .ok d.base

/-- A file whose stamp is the same at two instants had the same content between them. -/
def StampsTell (T : Timeline World) : Prop :=
  ∀ id u v w, u ≤ v → v ≤ w →
    stampOf id ((T.world u).stat id) = stampOf id ((T.world w).stat id) →
    (T.world v).content id = (T.world u).content id

/-- What has no stamp is not changed and changed back during the period; what the second pass
does not compare, or compares only as a whole, is not changed at all. -/
structure Undisturbed (T : Timeline World) (request : SnapshotRequest) (first last : ℕ) :
    Prop where
  opened : ∀ path, T.NotRestored (·.openRelative path) first last
  index : T.NotRestored World.index first last
  base : T.NotRestored World.pinBase first last
  untracked : ∀ u, first ≤ u → u ≤ last → (T.world u).untracked = (T.world first).untracked
  trees : ∀ raw ∈ request.selectedArtifacts, ∀ root, normalizeReviewPath raw = .ok root →
    ∀ path, InTree (T.world first) root path → ∀ u, first ≤ u → u ≤ last →
      SameEntry (T.world first) (T.world u) path

variable {T : Timeline World} {request : SnapshotRequest} {derivation : Derivation}
  {t t' : ℕ} {path : String} {id : FileId} {limit fuel : ℕ}

theorem runs_call {α : Type} {f : World → α} {a : α} (h : Runs (call T f) t a t') :
    a = f (T.world t) ∧ t ≤ t' := by
  obtain ⟨⟨failed, b⟩, mid, hlook, h⟩ := runs_bind.mp h
  obtain ⟨-, h⟩ := runs_require_bind.mp h
  obtain ⟨rfl, rfl⟩ := runs_pure.mp h
  obtain ⟨heq, hle⟩ := Timeline.runs_look hlook
  exact ⟨(Prod.mk.inj heq).2, hle⟩

theorem runs_listing {f : World → StatusOr String} {a : String} (h : Runs (listing T f) t a t') :
    f (T.world t) = .ok a ∧ t ≤ t' := by
  obtain ⟨value, mid, hlook, h⟩ := runs_bind.mp h
  obtain ⟨rfl, rfl⟩ := runs_lift.mp h
  obtain ⟨heq, hle⟩ := Timeline.runs_look hlook
  exact ⟨heq.symm, hle⟩

/-- While the content stays the same, the loop reads all of it. -/
theorem readLoop_content {c : String} {bytes out : List Char}
    (h : Runs (readLoop T id limit fuel bytes) t out t')
    (hc : ∀ u, t ≤ u → u ≤ t' → (T.world u).content id = c) (hbytes : bytes <+: c.toList) :
    out = c.toList := by
  induction fuel generalizing bytes t with
  | zero => exact absurd h not_runs_throw
  | succ fuel ih =>
    obtain ⟨chunk, mid, hcall, h⟩ := runs_bind.mp h
    obtain ⟨rfl, hle⟩ := runs_call hcall
    have hmid : mid ≤ t' := h.le
    rw [hc t le_rfl (hle.trans hmid)] at h
    obtain ⟨rest, hrest⟩ := hbytes
    rw [← hrest, drop_left] at h
    by_cases hempty : rest.take (min 65536 ((T.world t).readSize + 1)) = []
    · rw [if_pos hempty] at h
      obtain ⟨rfl, -⟩ := runs_pure.mp h
      obtain rfl : rest = [] := by
        rcases take_eq_nil_iff.mp hempty with hsize | hnil
        · omega
        · exact hnil
      rw [← hrest, append_nil]
    · rw [if_neg hempty] at h
      obtain ⟨-, h⟩ := runs_require_bind.mp h
      refine ih h (fun u hu => hc u (hle.trans hu)) ?_
      rw [← hrest]
      exact (prefix_append_right_inj bytes).mpr ( take_prefix _ _)

variable {state : FileState} {w w' : World} {p : String}

/-- A successful read: the stamp was the same before and after the loop. -/
theorem runs_readOpen (h : Runs (readOpen T id limit) t state t') (htell : StampsTell T) :
    ∃ u v, t ≤ u ∧ u ≤ v ∧ v ≤ t' ∧
      stampOf id ((T.world u).stat id) = state.stamp ∧
      stampOf id ((T.world v).stat id) = state.stamp ∧ state.issue = "" ∧
      state.bytes = some ((T.world u).content id) := by
  obtain ⟨before, t₁, hbefore, h⟩ := runs_bind.mp h
  obtain ⟨rfl, ht₁⟩ := runs_call hbefore
  obtain ⟨-, h⟩ := runs_require_bind.mp h
  obtain ⟨-, h⟩ := runs_require_bind.mp h
  obtain ⟨bytes, t₃, hloop, h⟩ := runs_bind.mp h
  obtain ⟨after, t₄, hafter, h⟩ := runs_bind.mp h
  obtain ⟨rfl, ht₄⟩ := runs_call hafter
  obtain ⟨⟨hstamp, -⟩, h⟩ := runs_require_bind.mp h
  obtain ⟨rfl, rfl⟩ := runs_pure.mp h
  have ht₃ := hloop.le
  have hcontent := readLoop_content hloop
    (fun u hu hu' => htell id t u t₃ (ht₁.trans hu) hu' hstamp) nil_prefix
  refine ⟨t, t₃, le_rfl, ht₁.trans ht₃, ht₄, hstamp, rfl, rfl, ?_⟩
  rw [hcontent, String.ofList_toList]

theorem runs_readFile (h : Runs (readFile T path limit) t state t') :
    (state = ⟨none, {}, "missing"⟩ ∧ (T.world t).openRelative path = .missing) ∨
      state = ⟨none, {}, "unreadable"⟩ ∨
      ∃ id u, t ≤ u ∧ (T.world t).openRelative path = .file id ∧
        Runs (readOpen T id limit) u state t' := by
  obtain ⟨found, mid, hlook, h⟩ := runs_bind.mp h
  obtain ⟨hfound, hle⟩ := Timeline.runs_look hlook
  cases found with
  | missing => exact .inl ⟨(runs_pure.mp h).1.symm, hfound.symm⟩
  | refused => exact absurd h not_runs_throw
  | unreadable => exact .inr (.inl (runs_pure.mp h).1.symm)
  | file id => exact .inr (.inr ⟨id, mid, hle, hfound.symm, h⟩)

/-- Two readings that agree, and what was so at an instant between them. -/
theorem readFile_twice {again : FileState} {s s' limit' first last m : ℕ} (htell : StampsTell T)
    (hopen : T.NotRestored (·.openRelative path) first last)
    (h : Runs (readFile T path limit) t state t') (h' : Runs (readFile T path limit') s again s')
    (hfirst : first ≤ t) (hm : t' ≤ m) (hm' : m ≤ s) (hlast : s' ≤ last)
    (hbytes : again.bytes = state.bytes) (hstamp : again.stamp = state.stamp)
    (hissue : again.issue = state.issue) :
    (∀ bytes, state.bytes = some bytes →
      ∃ id, (T.world m).openRelative path = .file id ∧ (T.world m).content id = bytes) ∧
    (state.issue = "missing" → (T.world m).openRelative path = .missing) := by
  have hbetween := hopen t m s hfirst (h.le.trans hm) hm' (h'.le.trans hlast)
  rcases runs_readFile h with ⟨rfl, hmissing⟩ | rfl | ⟨id, u, hu, hfile, hread⟩
  · refine ⟨fun _ h => absurd h nofun, fun _ => ?_⟩
    rcases runs_readFile h' with ⟨rfl, hmissing'⟩ | rfl | ⟨id', u', -, -, hread'⟩
    · exact (hbetween (hmissing.trans hmissing'.symm)).trans hmissing
    · exact absurd hissue (by decide)
    · obtain ⟨-, -, -, -, -, -, -, hempty, -⟩ := runs_readOpen hread' htell
      exact absurd (hempty.symm.trans hissue) (by decide)
  · exact ⟨fun _ h => absurd h nofun, fun h => absurd h (by decide : "unreadable" ≠ "missing")⟩
  · obtain ⟨a, b, ha, hab, hb, hsa, hsb, hempty, hcontent⟩ := runs_readOpen hread htell
    refine ⟨fun bytes hsome => ?_, fun h => absurd (hempty.symm.trans h) (by decide)⟩
    rcases runs_readFile h' with ⟨rfl, -⟩ | rfl | ⟨id', u', hu', hfile', hread'⟩
    · exact absurd (hbytes.trans hsome) nofun
    · exact absurd (hbytes.trans hsome) nofun
    · obtain ⟨a', b', ha', hab', hb', hsa', -, -, -⟩ := runs_readOpen hread' htell
      -- the stamp holds the file's identity, so both readings opened the same file
      obtain rfl : id' = id := stampOf_injective (hsa'.trans (hstamp.trans hsa.symm))
      refine ⟨id', (hbetween (hfile.trans hfile'.symm)).trans hfile, ?_⟩
      have hsame := htell id' a m a' (hab.trans (hb.trans hm)) (hm'.trans (hu'.trans ha'))
        (hsa.trans (hstamp.symm.trans hsa'.symm))
      rw [hsame]
      exact Option.some.inj (hcontent.symm.trans hsome)

theorem SameEntry.isReg_iff (h : SameEntry w w' path) (hfile : w.openRelative path = .file id) :
    (w'.stat id).isReg ↔ (w.stat id).isReg := by
  rw [Stat.isReg, Stat.isReg, h.mode id hfile]

theorem SameEntry.symm (h : SameEntry w w' path) : SameEntry w' w path where
  opened := h.opened.symm
  mode id hfile := (h.mode id (h.opened.symm.trans hfile)).symm
  names id hfile := (h.names id (h.opened.symm.trans hfile)).symm

theorem Leaf.congr (h : SameEntry w w' path) (hleaf : Leaf w path) : Leaf w' path := by
  rcases hleaf with hmissing | ⟨id, hfile, hreg⟩
  · exact .inl (h.opened.trans hmissing)
  · exact .inr ⟨id, h.opened.trans hfile, (h.isReg_iff hfile).mpr hreg⟩

theorem InTree.congr (h : InTree w path p) (hsame : ∀ p, InTree w path p → SameEntry w w' p) :
    InTree w' path p := by
  induction h with
  | root path => exact .root path
  | step hfile hdir hname hchild _ ih =>
    have hhere := hsame _ (.root _)
    refine .step (hhere.opened.trans hfile) (mt (hhere.isReg_iff hfile).mp hdir) ?_ hchild
      (ih fun p hp => hsame p (.step hfile hdir hname hchild hp))
    rwa [hhere.names _ hfile]

/-- Back again: the tree of the new world has no other paths. -/
theorem InTree.congr_back (h : InTree w' path p) (hsame : ∀ p, InTree w path p → SameEntry w w' p) :
    InTree w path p := by
  induction h with
  | root path => exact .root path
  | step hfile hdir hname hchild _ ih =>
    have hhere := (hsame _ (.root _)).symm
    have hfile' := hhere.opened.trans hfile
    have hdir' := mt (hhere.isReg_iff hfile).mp hdir
    have hname' := (hhere.names _ hfile) ▸ hname
    exact .step hfile' hdir' hname' hchild
      (ih fun p hp => hsame p (.step hfile' hdir' hname' hchild hp))

variable {maxFiles : ℕ} {files files' : Finset String}

theorem runs_walk (h : Runs (walk T maxFiles (fuel + 1) path files) t files' t') :
    ((T.world t).openRelative path = .missing ∧ files' = insert path files) ∨
    ∃ id u, t ≤ u ∧ u ≤ t' ∧ (T.world t).openRelative path = .file id ∧
      (((T.world u).stat id).isReg ∧ files' = insert path files ∨
        ¬ ((T.world u).stat id).isReg ∧ ∃ v s, u ≤ v ∧ v ≤ s ∧
          Runs (((entryNames (T.world v) id).insertionSort (· ≤ ·)).foldlM (fun files name => do
            let child ← Timed.lift (normalizeReviewPath (path ++ "/" ++ name))
            walk T maxFiles fuel child files) files) s files' t') := by
  obtain ⟨found, u, hlook, h⟩ := runs_bind.mp h
  obtain ⟨hfound, hu⟩ := Timeline.runs_look hlook
  cases found with
  | missing => exact .inl ⟨hfound.symm, (runs_pure.mp h).1.symm⟩
  | refused => exact absurd h not_runs_throw
  | unreadable => exact absurd h not_runs_throw
  | file id =>
    refine .inr ⟨id, u, hu, h.le, hfound.symm, ?_⟩
    obtain ⟨stat, v, hstat, h⟩ := runs_bind.mp h
    obtain ⟨rfl, hv⟩ := runs_call hstat
    by_cases hreg : ((T.world u).stat id).isReg
    · rw [if_pos hreg] at h
      obtain ⟨-, h⟩ := runs_require_bind.mp h
      exact .inl ⟨hreg, (runs_pure.mp h).1.symm⟩
    · rw [if_neg hreg] at h
      obtain ⟨-, h⟩ := runs_require_bind.mp h
      obtain ⟨names, s, hnames, h⟩ := runs_bind.mp h
      obtain ⟨rfl, hs⟩ := runs_call hnames
      obtain ⟨-, h⟩ := runs_require_bind.mp h
      exact .inr ⟨hreg, v, s, hv, hs, h⟩

/-- The tree of a leaf is the leaf. -/
theorem Leaf.inTree_iff (hleaf : Leaf w path) : InTree w path p ∧ Leaf w p ↔ p = path := by
  constructor
  · rintro ⟨hin, -⟩
    cases hin with
    | root => rfl
    | step hother hdir _ _ _ =>
      rcases hleaf with hmissing | ⟨id, hfile, hreg⟩
      · exact absurd (hother.symm.trans hmissing) nofun
      · exact absurd hreg (Opened.file.inj (hother.symm.trans hfile) ▸ hdir)
  · rintro rfl
    exact ⟨.root p, hleaf⟩

/-- A walk of a tree that stays the same adds the tree's leaves. -/
theorem walk_leaves (h : Runs (walk T maxFiles fuel path files) t files' t')
    (hsame : ∀ p, InTree w path p → ∀ u, t ≤ u → u ≤ t' → SameEntry w (T.world u) p) (p : String) :
    p ∈ files' ↔ p ∈ files ∨ InTree w path p ∧ Leaf w p := by
  induction fuel generalizing path files t files' t' p with
  | zero => exact absurd h not_runs_throw
  | succ fuel ih =>
    have hle := h.le
    have hhere := hsame path (.root path)
    rcases runs_walk h with ⟨hmissing, rfl⟩ | ⟨id, u, hu, hu', hfile, hcase⟩
    · rw [Finset.mem_insert, or_comm,
        Leaf.inTree_iff (.inl ((hhere t le_rfl hle).opened.symm.trans hmissing))]
    · have hfile' : w.openRelative path = .file id :=
        (hhere t le_rfl hle).opened.symm.trans hfile
      have hreg := (hhere u hu hu').isReg_iff hfile'
      have hid : ∀ {id'}, w.openRelative path = .file id' → id' = id :=
        fun h => Opened.file.inj (h.symm.trans hfile')
      rcases hcase with ⟨hisReg, rfl⟩ | ⟨hdir, v, s, hv, hs, hrun⟩
      · rw [Finset.mem_insert, or_comm, Leaf.inTree_iff (.inr ⟨id, hfile', hreg.mp hisReg⟩)]
      · have hdir' := mt hreg.mpr hdir
        have hs' := hrun.le
        have hnames := (hhere v (hu.trans hv) (hs.trans hs')).names id hfile'
        rw [hnames] at hrun
        have hloop := Runs.foldlM hrun
          (fun seen files' => ∀ p, p ∈ files' ↔ p ∈ files ∨ ∃ name ∈ seen, ∃ child,
            normalizeReviewPath (path ++ "/" ++ name) = .ok child ∧ InTree w child p ∧ Leaf w p)
          (fun p => by simp) (fun seen name mid mid' a b hmid hname ha hb hround p => ?_) p
        · rw [hloop]
          refine or_congr_right ⟨?_, ?_⟩
          · rintro ⟨name, hname, child, hchild, hin, hleaf⟩
            exact ⟨.step hfile' hdir' ((mem_insertionSort _).mp hname) hchild hin, hleaf⟩
          · rintro ⟨hin, hleaf⟩
            cases hin with
            | root =>
              rcases hleaf with hmissing | ⟨id', hother, hisReg⟩
              · exact absurd (hmissing.symm.trans hfile') nofun
              · exact absurd (hid hother ▸ hisReg) hdir'
            | step hother _ hname hchild hin =>
              exact ⟨_, (mem_insertionSort _).mpr (hid hother ▸ hname), _, hchild, hin, hleaf⟩
        · obtain ⟨child, a', hlift, hround⟩ := runs_bind.mp hround
          obtain ⟨hchild, rfl⟩ := runs_lift.mp hlift
          have hname' := (mem_insertionSort _).mp hname
          have hwalk := ih hround fun p hp x hx hx' =>
            hsame p (.step hfile' hdir' hname' hchild hp) x (by omega) (by omega)
          rw [hwalk p, hmid p, or_assoc]
          simp only [mem_append, mem_singleton, or_and_right, exists_or, exists_eq_left, hchild,
            Except.ok.injEq, exists_eq_left']

theorem walkArtifacts_leaves (h : Runs (walkArtifacts T request) t files t')
    (hsame : ∀ raw ∈ request.selectedArtifacts, ∀ root, normalizeReviewPath raw = .ok root →
      ∀ p, InTree w root p → ∀ u, t ≤ u → u ≤ t' → SameEntry w (T.world u) p) (p : String) :
    p ∈ files ↔ ∃ raw ∈ request.selectedArtifacts, ∃ root,
      normalizeReviewPath raw = .ok root ∧ InTree w root p ∧ Leaf w p := by
  refine Runs.foldlM h (fun seen files => ∀ p, p ∈ files ↔ ∃ raw ∈ seen, ∃ root,
    normalizeReviewPath raw = .ok root ∧ InTree w root p ∧ Leaf w p)
    (fun p => by simp) (fun seen raw mid mid' a b hmid hraw ha hb hround p => ?_) p
  obtain ⟨root, a', hlift, hround⟩ := runs_bind.mp hround
  obtain ⟨hroot, rfl⟩ := runs_lift.mp hlift
  have hwalk := walk_leaves hround fun p hp x hx hx' =>
    hsame raw hraw root hroot p hp x (ha.trans hx) (hx'.trans hb)
  rw [hwalk p, hmid p]
  simp only [mem_append, mem_singleton, or_and_right, exists_or, exists_eq_left, hroot,
    Except.ok.injEq, exists_eq_left']

/-- Every recorded state came from a reading in the period. -/
def ReadWithin (T : Timeline World) (captured : OrderedMap String FileState) (first last : ℕ) :
    Prop :=
  ∀ path state, captured.find? path = some state → ∃ limit u u', first ≤ u ∧ u' ≤ last ∧
    Runs (readFile T path limit) u state u'

theorem ReadWithin.capture {c c' : Collected} {first last : ℕ}
    (hc : ReadWithin T c.captured first last) (h : Runs (capture T request c path) t c' t')
    (hfirst : first ≤ t) (hlast : t' ≤ last) : ReadWithin T c'.captured first last := by
  by_cases hknown : (c.captured.find? path).isSome
  · rw [Review.capture, if_pos hknown] at h
    obtain ⟨rfl, -⟩ := runs_pure.mp h
    exact hc
  · rw [Review.capture, if_neg hknown] at h
    obtain ⟨-, h⟩ := runs_require_bind.mp h
    obtain ⟨state, mid, hread, h⟩ := runs_bind.mp h
    have hcaptured : c'.captured = c.captured.emplace path state := by
      cases hbytes : state.bytes with
      | none => rw [hbytes] at h; exact (congrArg Collected.captured (runs_pure.mp h).1).symm
      | some bytes => rw [hbytes] at h; exact (congrArg Collected.captured (runs_pure.mp h).1).symm
    intro other state' hstate'
    rw [hcaptured, OrderedMap.find?_emplace] at hstate'
    split_ifs at hstate' with hother
    · rw [Option.not_isSome_iff_eq_none.mp hknown] at hstate'
      obtain rfl : state = state' := Option.some.inj hstate'
      exact ⟨_, t, mid, hfirst, h.le.trans hlast, hother ▸ hread⟩
    · exact hc other state' hstate'

/-- What a finished first pass has looked at. -/
structure Collects (T : Timeline World) (request : SnapshotRequest) (d : ReviewSnapshot)
    (first last : ℕ) : Prop where
  base : ∃ u, first ≤ u ∧ u ≤ last ∧ (T.world u).pinBase = .ok d.base
  index : ∃ u, first ≤ u ∧ u ≤ last ∧ (T.world u).index = .ok d.index
  untracked : ∃ u, first ≤ u ∧ u ≤ last ∧ (T.world u).untracked = .ok d.untracked
  walked : ∃ u u', first ≤ u ∧ u' ≤ last ∧ Runs (walkArtifacts T request) u d.artifactMembers u'
  read : ReadWithin T d.captured first last

variable {d : ReviewSnapshot}

theorem runs_firstPass (h : Runs (firstPass T request derivation) t d t') :
    Collects T request d t t' := by
  obtain ⟨-, h⟩ := runs_require_bind.mp h
  obtain ⟨base, t₁, hbase, h⟩ := runs_bind.mp h
  obtain ⟨index, t₂, hindex, h⟩ := runs_bind.mp h
  obtain ⟨untracked, t₃, huntracked, h⟩ := runs_bind.mp h
  obtain ⟨tree, t₄, htree, h⟩ := runs_bind.mp h
  obtain ⟨s, t₅, hselect, h⟩ := runs_bind.mp h
  obtain ⟨artifactMembers, t₆, hwalk, h⟩ := runs_bind.mp h
  obtain ⟨special, t₇, hspecial, h⟩ := runs_bind.mp h
  obtain ⟨c, t₈, hfold, h⟩ := runs_bind.mp h
  obtain ⟨members, t₉, hdeclared, h⟩ := runs_bind.mp h
  obtain ⟨c', t₁₀, hfold', h⟩ := runs_bind.mp h
  obtain ⟨_, t₁₁, hresolve, h⟩ := runs_bind.mp h
  obtain ⟨⟨baseFiles, total⟩, t₁₂, hblobs, h⟩ := runs_bind.mp h
  obtain ⟨rfl, rfl⟩ := runs_pure.mp h
  have h₁ := runs_listing hbase
  have h₂ := runs_listing hindex
  have h₃ := runs_listing huntracked
  have h₄ := htree.le
  have h₅ := hselect.le
  have h₆ := hwalk.le
  have h₇ := hspecial.le
  have h₈ := hfold.le
  have h₉ := hdeclared.le
  have h₁₀ := hfold'.le
  have h₁₁ := hresolve.le
  have h₁₂ := hblobs.le
  have hc : ReadWithin T c.captured t t₁₂ :=
    Runs.foldlM hfold (fun _ c => ReadWithin T c.captured t t₁₂) (fun _ _ h => absurd h nofun)
      fun _ _ _ _ _ _ hc _ hu hu' hround => hc.capture hround (by omega) (by omega)
  refine ⟨⟨t, le_rfl, by omega, h₁.1⟩, ⟨t₁, by omega, by omega, h₂.1⟩,
    ⟨t₂, by omega, by omega, h₃.1⟩, ⟨t₅, t₆, by omega, by omega, hwalk⟩, ?_⟩
  refine Runs.foldlM hfold' (fun _ c => ReadWithin T c.captured t t₁₂) hc
    fun _ member b b' u u' hc _ hu hu' hround => ?_
  rw [captureMember] at hround
  split_ifs at hround with hadmitted
  · exact hc.capture hround (by omega) (by omega)
  · obtain ⟨rfl, -⟩ := runs_pure.mp hround
    exact hc

/-- What a second pass that passes has seen again. -/
structure Confirms (T : Timeline World) (d : ReviewSnapshot) (first last : ℕ) : Prop where
  base : ∃ u, first ≤ u ∧ u ≤ last ∧ (T.world u).pinBase = .ok d.base
  index : ∃ u, first ≤ u ∧ u ≤ last ∧ (T.world u).index = .ok d.index
  read : ∀ path state, d.captured.find? path = some state → ∃ limit u again u', first ≤ u ∧
    u' ≤ last ∧ Runs (readFile T path limit) u again u' ∧ again.bytes = state.bytes ∧
      again.stamp = state.stamp ∧ again.issue = state.issue

theorem runs_secondPass (h : Runs (secondPass T request d) t () t') : Confirms T d t t' := by
  obtain ⟨_, t₁, hfold, h⟩ := runs_bind.mp h
  obtain ⟨again, t₂, hwalk, h⟩ := runs_bind.mp h
  obtain ⟨-, h⟩ := runs_require_bind.mp h
  obtain ⟨index, t₃, hindex, h⟩ := runs_bind.mp h
  obtain ⟨base, t₄, hbase, h⟩ := runs_bind.mp h
  obtain ⟨untracked, t₅, huntracked, h⟩ := runs_bind.mp h
  obtain ⟨inPlace, t₆, hroot, h⟩ := runs_bind.mp h
  obtain ⟨-, h⟩ := runs_require_bind.mp h
  obtain ⟨⟨hindexEq, hbaseEq⟩, rfl⟩ := runs_require.mp h
  have h₁ := hfold.le
  have h₂ := hwalk.le
  obtain ⟨rfl, h₃⟩ := Timeline.runs_look hindex
  obtain ⟨rfl, h₄⟩ := Timeline.runs_look hbase
  have h₅ := huntracked.le
  have h₆ := hroot.le
  refine ⟨⟨t₃, by omega, by omega, toOption_eq_some.mp hbaseEq⟩,
    ⟨t₂, by omega, by omega, toOption_eq_some.mp hindexEq⟩, fun path state hstate => ?_⟩
  have hall := Runs.foldlM hfold (fun seen _ => ∀ entry ∈ seen, ∃ limit u again u', t ≤ u ∧
    u' ≤ t₁ ∧ Runs (readFile T entry.1 limit) u again u' ∧ again.bytes = entry.2.bytes ∧
      again.stamp = entry.2.stamp ∧ again.issue = entry.2.issue)
    (fun _ h => absurd h not_mem_nil)
    (fun seen entry _ _ u u' hseen _ hu hu' hround other hother => ?_)
  · obtain ⟨limit, u, again, u', hu, hu', hrest⟩ :=
      hall (path, state) (OrderedMap.find?_eq_some.mp hstate)
    exact ⟨limit, u, again, u', hu, by omega, hrest⟩
  · rcases mem_append.mp hother with hother | hother
    · exact hseen other hother
    · obtain rfl := mem_singleton.mp hother
      obtain ⟨now, v, hread, hcheck⟩ := runs_bind.mp hround
      obtain ⟨hsame, rfl⟩ := runs_require.mp hcheck
      exact ⟨_, u, now, v, hu, hu', runs_mapError.mp hread, hsame⟩

/-- A tracked file `p` with some content, and no artifact `q`. -/
def sampleWorld (untracked content : String) (ctime : ℤ) : World where
  openRelative path := if path = "p" then .file ⟨0, 1⟩ else .missing
  stat _ := ⟨content.length, 0, ctime, 0x8000⟩
  content _ := content
  names _ := []
  pinBase := .ok "c0ffee"
  index := .ok "p\x00"
  untracked := .ok untracked
  tree _ := .ok ""
  blob _ _ := .ok ""
  rootInPlace := true
  ioError := false
  readSize := 65535

def sampleRequest : SnapshotRequest where
  selectedTracked := []
  selectedUntracked := []
  selectedArtifacts := ["q"]
  compileCommandsPath := ""
  programManifestPath := ""
  maxFiles := 8
  maxBytes := 64

def sampleDerivation : Derivation where
  declaredProgramPaths _ := .ok []
  resolveProgramScope _ := .ok ()

def stillTimeline : Timeline World := ⟨fun _ => sampleWorld "" "old" 1, fun _ => 0⟩

/-- After the untracked listing is taken, a new file appears and `p` is rewritten. -/
def overlookedTimeline : Timeline World where
  world t := if t ≤ 2 then sampleWorld "" "old" 1 else sampleWorld "new\x00" "fresh" 2
  delay _ := 0

theorem overlooked_stampsTell : StampsTell overlookedTimeline := by
  intro id u v w huv hvw hstamp
  by_cases hw : w ≤ 2
  · have hv : v ≤ 2 := by omega
    have hu : u ≤ 2 := by omega
    simp only [overlookedTimeline, if_pos hv, if_pos hu]
  · by_cases hu : u ≤ 2
    · simp only [overlookedTimeline, if_pos hu, if_neg hw, stampOf, sampleWorld,
        Stamp.mk.injEq] at hstamp
      exact absurd hstamp.2.2.2.2.1 (by decide)
    · have hv : ¬ v ≤ 2 := by omega
      simp only [overlookedTimeline, if_neg hv, if_neg hu]

end Veritas.Review

import Veritas.Build.ManifestIndependence
import Veritas.Library.FieldCode

/-! What equal manifest identifiers say about the two builds. -/
namespace Veritas.Build

open List hiding concat

open Ordered StatusOr FieldCode

variable {as : List String} {sep : Char}

theorem sortedUniqueJoined_inj {bs : List String} (ha : ∀ a ∈ as, sep ∉ a.toList)
    (hb : ∀ b ∈ bs, sep ∉ b.toList) (hne : as ≠ []) (hne' : bs ≠ [])
    (h : sortedUniqueJoined as sep = sortedUniqueJoined bs sep) (x : String) : x ∈ as ↔ x ∈ bs := by
  have hsort : sortUnique as = sortUnique bs := by
    refine join_inj (by simpa using ha) (by simpa using hb) ?_ ?_ h
    · obtain ⟨a, ha⟩ := exists_mem_of_ne_nil as hne
      exact ne_nil_of_mem (mem_sortUnique.mpr ha)
    · obtain ⟨b, hb⟩ := exists_mem_of_ne_nil bs hne'
      exact ne_nil_of_mem (mem_sortUnique.mpr hb)
  rw [← mem_sortUnique, hsort, mem_sortUnique]

theorem notMem_join {c : Char} (hsep : c ≠ sep) (h : ∀ a ∈ as, c ∉ a.toList) :
    c ∉ ((String.singleton sep).intercalate as).toList := by
  induction as with
  | nil => simp
  | cons a as ih =>
    cases as with
    | nil => simpa using h
    | cons b as => simp_all

theorem joinNul_cons {part : String} {parts : List String} (h : parts ≠ []) :
    joinNul [part, joinNul parts] = joinNul (part :: parts) := by
  obtain ⟨next, rest, rfl⟩ := exists_cons_of_ne_nil h
  simp [joinNul]

/-- Paths and arguments free of the two separators, and a program to run. -/
structure NormalizedCommand.Plain (c : NormalizedCommand) : Prop where
  program : c.arguments ≠ []
  nul : ∀ text ∈ c.source.relativePath :: c.arguments, '\x00' ∉ text.toList
  newline : ∀ text ∈ c.source.relativePath :: c.arguments, '\n' ∉ text.toList

/-- The names of a path are names: no separator, not empty and not the dot. -/
def Named (path : CanonicalPath) : Prop :=
  ∀ name ∈ path, name ≠ "" ∧ '/' ∉ name.toList ∧ name ≠ "."

def Files.Canonical (files : Files) : Prop :=
  ∀ text path, files.weaklyCanonical text = some path → Named path

/-- The hash has no collision and its text holds neither separator. -/
structure HashPlain (sha256 : String → String) : Prop where
  injective : Function.Injective sha256
  nul : ∀ text, '\x00' ∉ (sha256 text).toList
  newline : ∀ text, '\n' ∉ (sha256 text).toList

variable {sha256 : String → String} {files files' : Files}
  {root root' : CanonicalPath} {normalized normalized' : List NormalizedCommand}

variable {domain : String}

theorem HashPlain.domainHash_inj (h : HashPlain sha256) {a b : String}
    (heq : domainHash sha256 domain a = domainHash sha256 domain b) : a = b :=
  String.append_right_inj _ |>.mp (h.injective heq)

theorem HashPlain.taggedIdentifier_inj (h : HashPlain sha256) {kind a b : String}
    (heq : taggedIdentifier sha256 kind domain a = taggedIdentifier sha256 kind domain b) : a = b :=
  h.domainHash_inj (String.append_right_inj _ |>.mp heq)

section Paths

variable {p q : CanonicalPath}

theorem slash_join_inj (hp : Named p) (hq : Named q)
    (h : "/".intercalate p = "/".intercalate q) : p = q := by
  have hnil : ∀ {r : CanonicalPath}, Named r → "/".intercalate r = "" → r = [] := by
    intro r hr hempty
    cases r with
    | nil => rfl
    | cons name rest => cases rest <;> simp_all [Named]
  by_cases hne : p = []
  · subst hne
    exact (hnil hq (by simpa using h.symm)).symm
  · by_cases hne' : q = []
    · subst hne'
      exact hnil hp (by simpa using h)
    · exact join_inj (fun name hname => (hp name hname).2.1) (fun name hname => (hq name hname).2.1)
        hne hne' h

theorem slash_join_ne_dot (hp : Named p) : "/".intercalate p ≠ "." := by
  intro h
  have hne : p ≠ [] := by
    rintro rfl
    exact absurd h (by decide)
  have hdot : p = ["."] := join_inj (fun name hname => (hp name hname).2.1)
    (by decide) hne (by decide) h
  exact (hp "." (hdot ▸ mem_singleton_self _)).2.2 rfl

theorem Named.drop (hp : Named p) (n : ℕ) : Named (p.drop n) :=
  fun name hname => hp name (List.mem_of_mem_drop hname)

/-- A classified path names one file. -/
theorem classifyPath_inj (hp : Named p) (hq : Named q)
    (h : classifyPath p root = classifyPath q root) : p = q := by
  simp only [classifyPath, isWithin, isPrefixOf_iff_prefix] at h
  split_ifs at h with hinp hp0 hinq hq0 hinq hq0 hinq <;> simp only [TaggedPath.mk.injEq] at h
  · exact (prefix_append_drop hinp).trans
      ((congrArg (root ++ ·) (hp0.trans hq0.symm)).trans (prefix_append_drop hinq).symm)
  · exact absurd h.2.2.symm (slash_join_ne_dot (hq.drop _))
  · exact absurd h.1 (by decide)
  · exact absurd h.2.2 (slash_join_ne_dot (hp.drop _))
  · have hrest := slash_join_inj (hp.drop _) (hq.drop _) h.2.2
    exact (prefix_append_drop hinp).trans
      ((congrArg (root ++ ·) hrest).trans (prefix_append_drop hinq).symm)
  · exact absurd h.1 (by decide)
  · exact absurd h.1 (by decide)
  · exact absurd h.1 (by decide)
  · exact slash_join_inj hp hq (String.append_right_inj _ |>.mp h.2.2)

/-- Inside the checkout a path's text does not start at the root directory. -/
theorem relativePath_head (hp : Named p) (hin : root <+: p) :
    (classifyPath p root).relativePath.toList.head? ≠ some '/' := by
  simp only [classifyPath, isWithin, isPrefixOf_iff_prefix, hin, if_true]
  split_ifs with h
  · decide
  · obtain ⟨name, rest, hrest⟩ := exists_cons_of_ne_nil h
    obtain ⟨hne, hslash, -⟩ := hp.drop root.length name (hrest ▸ mem_cons_self)
    have hchars : name.toList ≠ [] := by simpa using hne
    obtain ⟨c, cs, hcs⟩ := exists_cons_of_ne_nil hchars
    have hc : c ≠ '/' := by
      rintro rfl
      exact hslash (by simp [hcs])
    rw [hrest]
    cases rest <;> simp [hcs, hc]

theorem classifyPath_eq_of_text (hp : Named p) (hq : Named q)
    (h : (classifyPath p root).relativePath = (classifyPath q root').relativePath) :
    classifyPath p root = classifyPath q root' := by
  have hout : ∀ {r : CanonicalPath} {base : CanonicalPath}, ¬ base <+: r →
      classifyPath r base = ⟨.external, "external", genericString r⟩ := by
    intro r base hr
    simp [classifyPath, isWithin, hr]
  have hin : ∀ {r : CanonicalPath} {base : CanonicalPath}, base <+: r →
      classifyPath r base = ⟨.repository, "repository", (classifyPath r base).relativePath⟩ := by
    intro r base hr
    simp [classifyPath, isWithin, hr]
  have hhead : ∀ r, (genericString r).toList.head? = some '/' := by simp [genericString]
  by_cases hpin : root <+: p <;> by_cases hqin : root' <+: q
  · rw [hin hpin, hin hqin, h]
  · rw [hout hqin] at h
    exact absurd (h ▸ hhead q) (relativePath_head hp hpin)
  · rw [hout hpin] at h
    exact absurd (h ▸ hhead p) (relativePath_head hq hqin)
  · rw [hout hpin, hout hqin] at h ⊢
    rw [show genericString p = genericString q from h]

end Paths

/-- The file a normalised command was made from. -/
def NormalizedCommand.Sourced (c : NormalizedCommand) (sha256 : String → String) (files : Files)
    (root : CanonicalPath) : Prop :=
  ∃ source text, Named source ∧ c.source = classifyPath source root ∧
    files.readFile source = some text ∧
      c.sourceContentHash = domainHash sha256 "veritas.source_file.v1" text

variable {c : NormalizedCommand}

theorem sourced_of_normalizeCommand {command : CompileCommand} (hfiles : files.Canonical)
    (h : normalizeCommand sha256 files root command = .ok c) : c.Sourced sha256 files root := by
  simp only [normalizeCommand, guard_eq_ok, bind_eq_ok, pure_eq_ok, orFail_eq_ok] at h
  obtain ⟨-, path, -, source, hsource, -, text, htext, rfl⟩ := h
  refine ⟨source, text, ?_, rfl, htext, rfl⟩
  unfold resolveSource at hsource
  split_ifs at hsource <;> exact hfiles _ _ hsource

theorem NormalizedCommand.Sourced.contents_eq {d : NormalizedCommand}
    (hc : c.Sourced sha256 files root) (hd : d.Sourced sha256 files root) (h : c.source = d.source) :
    c.sourceContentHash = d.sourceContentHash := by
  obtain ⟨p, text, hp, hcp, htext, hhash⟩ := hc
  obtain ⟨q, text', hq, hdq, htext', hhash'⟩ := hd
  obtain rfl : p = q := classifyPath_inj hp hq (hcp.symm.trans (h.trans hdq))
  obtain rfl : text = text' := Option.some.inj (htext.symm.trans htext')
  rw [hhash, hhash']

section Identity

variable (hsha : HashPlain sha256)

include hsha

/-- Equal hashes of a set of records, whose parts are free of the separators, list the same
records. -/
theorem record_of_domainHash {parts : NormalizedCommand → List String}
    (hparts : ∀ c ∈ normalized ++ normalized', ∀ text ∈ parts c,
      '\x00' ∉ text.toList ∧ '\n' ∉ text.toList) (hone : ∀ c, parts c ≠ [])
    (hne' : normalized' ≠ [])
    (h : domainHash sha256 domain (sortedUniqueJoined (normalized.map (joinNul ∘ parts)) '\n') =
      domainHash sha256 domain (sortedUniqueJoined (normalized'.map (joinNul ∘ parts)) '\n'))
    (hc : c ∈ normalized) : ∃ d ∈ normalized', parts d = parts c := by
  have hline : ∀ line ∈ (normalized ++ normalized').map (joinNul ∘ parts), '\n' ∉ line.toList := by
    intro line hline
    obtain ⟨d, hd, rfl⟩ := mem_map.mp hline
    exact notMem_join (by decide) fun text htext => (hparts d hd text htext).2
  rw [map_append, forall_mem_append] at hline
  have hmem := (sortedUniqueJoined_inj hline.1 hline.2 (ne_nil_of_mem (mem_map_of_mem hc))
    (by simpa using hne') (hsha.domainHash_inj h) _).mp (mem_map_of_mem hc)
  obtain ⟨d, hd, heq⟩ := mem_map.mp hmem
  exact ⟨d, hd, join_inj (fun text htext => (hparts d (mem_append_right _ hd) text htext).1)
    (fun text htext => (hparts c (mem_append_left _ hc) text htext).1) (hone d) (hone c) heq⟩

/-- Every command of one build is a command of another with its repository id. -/
theorem mem_of_repositoryId (hplain : ∀ c ∈ normalized ++ normalized', c.Plain)
    (hsourced : ∀ c ∈ normalized, c.Sourced sha256 files root)
    (hsourced' : ∀ c ∈ normalized', c.Sourced sha256 files' root')
    (hdirectory : ∀ c ∈ normalized, ∀ d ∈ normalized', c.source = d.source →
      c.arguments = d.arguments → c.workingDirectory = d.workingDirectory) (hne' : normalized' ≠ [])
    {host host' : String} (h : (programContext sha256 host normalized).repositoryId =
      (programContext sha256 host' normalized').repositoryId) (hc : c ∈ normalized) :
    c ∈ normalized' := by
  have hnul : ∀ tree database, ∀ text ∈ [sha256 tree, sha256 database], '\x00' ∉ text.toList := by
    simp [hsha.nul]
  obtain ⟨htree, hdatabase⟩ : computeSourceTreeHash sha256 normalized =
      computeSourceTreeHash sha256 normalized' ∧ compilationDatabaseHash sha256 normalized =
      compilationDatabaseHash sha256 normalized' := by
    have hpair := join_inj (hnul _ _) (hnul _ _) (by simp) (by simp) (hsha.taggedIdentifier_inj h)
    exact ⟨(cons.inj hpair).1, (cons.inj (cons.inj hpair).2).1⟩
  have hlines : ∀ l : List NormalizedCommand, (∀ c ∈ l, c.Plain) →
      l.map (fun c => joinNul [c.source.relativePath, c.joinedArgs]) =
        l.map (joinNul ∘ fun c => c.source.relativePath :: c.arguments) := fun l hl =>
    map_congr_left fun c hc => joinNul_cons (hl c hc).program
  rw [forall_mem_append] at hplain
  rw [compilationDatabaseHash, compilationDatabaseHash, hlines _ hplain.1, hlines _ hplain.2]
    at hdatabase
  rw [← forall_mem_append] at hplain
  obtain ⟨d, hd, hline⟩ := record_of_domainHash hsha
    (fun c hc text htext => ⟨(hplain c hc).nul text htext, (hplain c hc).newline text htext⟩)
    (by simp) hne' hdatabase hc
  have hhash : ∀ c ∈ normalized ++ normalized', ∃ text, c.sourceContentHash = sha256 text := by
    simp only [forall_mem_append]
    exact ⟨fun c hc => (hsourced c hc).elim fun _ h => h.elim fun _ h => ⟨_, h.2.2.2⟩,
      fun c hc => (hsourced' c hc).elim fun _ h => h.elim fun _ h => ⟨_, h.2.2.2⟩⟩
  have hfields : ∀ c ∈ normalized ++ normalized', ∀ text ∈ [c.source.relativePath,
      c.sourceContentHash], '\x00' ∉ text.toList ∧ '\n' ∉ text.toList := by
    intro c hc text htext
    obtain ⟨_, hsum⟩ := hhash c hc
    simp only [mem_cons, not_mem_nil, or_false] at htext
    rcases htext with rfl | rfl
    · exact ⟨(hplain c hc).nul _ mem_cons_self, (hplain c hc).newline _ mem_cons_self⟩
    · exact hsum ▸ ⟨hsha.nul _, hsha.newline _⟩
  obtain ⟨e, he, hfile⟩ := record_of_domainHash hsha hfields (by simp) hne' htree hc
  -- the two records are of one command, since a path has one content
  have hsource : ∀ x ∈ normalized', x.source.relativePath = c.source.relativePath →
      x.source = c.source := by
    intro x hx hpath
    obtain ⟨p, _, hp, hxp, -⟩ := hsourced' x hx
    obtain ⟨q, _, hq, hcq, -⟩ := hsourced c hc
    rw [hxp, hcq] at hpath ⊢
    exact classifyPath_eq_of_text hp hq hpath
  obtain ⟨hdpath, hdargs⟩ := cons.inj hline
  obtain ⟨hepath, hehash⟩ := cons.inj hfile
  have hds := hsource d hd hdpath
  have hcontents := (hsourced' d hd).contents_eq (hsourced' e he)
    (hds.trans (hsource e he hepath).symm)
  have hsame : d = c := by
    have hwd := hdirectory c hc d hd hds.symm hdargs.symm
    have hsum : d.sourceContentHash = c.sourceContentHash := hcontents.trans (by simpa using hehash)
    cases c
    cases d
    simp_all
  exact hsame ▸ hd

theorem unit_of_translationUnitId {context : ProgramContext} {d : NormalizedCommand}
    (hrevision : '\x00' ∉ context.revisionId.toList) (hc : c.Plain) (hd : d.Plain)
    (h : (translationUnit sha256 context c).translationUnitId =
      (translationUnit sha256 context d).translationUnitId) :
    c.source.relativePath = d.source.relativePath ∧ c.arguments = d.arguments := by
  have hnul : ∀ c : NormalizedCommand, c.Plain → ∀ text ∈ [context.revisionId,
      c.source.relativePath, c.commandHash sha256], '\x00' ∉ text.toList := by
    intro c hc
    simp only [mem_cons, not_mem_nil, or_false, forall_eq_or_imp, forall_eq]
    exact ⟨hrevision, hc.nul _ mem_cons_self, hsha.nul _⟩
  have hparts := join_inj (hnul c hc) (hnul d hd) (by simp) (by simp) (hsha.taggedIdentifier_inj h)
  simp only [cons.injEq, true_and, and_true] at hparts
  refine ⟨hparts.1, join_inj (fun text htext => hc.nul text (mem_cons_of_mem _ htext))
    (fun text htext => hd.nul text (mem_cons_of_mem _ htext)) hc.program hd.program ?_⟩
  exact hsha.domainHash_inj hparts.2

end Identity

/-- Where paths and arguments are free of newlines and a source compiled with the same arguments
is compiled in the same directory, the identifiers determine the commands. -/
theorem identifiers_determine_build {commands commands' : List CompileCommand} {host host' : String}
    {m m' : AnalysisManifest} (hsha : HashPlain sha256) (hfiles : files.Canonical)
    (hfiles' : files'.Canonical) (h : loadProjectManifest sha256 host files root commands = .ok m)
    (h' : loadProjectManifest sha256 host' files' root' commands' = .ok m')
    (hnormal : commands.mapM (normalizeCommand sha256 files root) = .ok normalized)
    (hnormal' : commands'.mapM (normalizeCommand sha256 files' root') = .ok normalized')
    (hplain : ∀ c ∈ normalized ++ normalized', c.Plain)
    (hdirectory : ∀ c ∈ normalized ++ normalized', ∀ d ∈ normalized ++ normalized',
      c.source = d.source → c.arguments = d.arguments → c.workingDirectory = d.workingDirectory) :
    (m.context.repositoryId = m'.context.repositoryId →
      m.context.buildVariantId = m'.context.buildVariantId →
        ∀ c, c ∈ normalized ↔ c ∈ normalized') ∧
    ∀ u ∈ m.translationUnits, ∀ v ∈ m.translationUnits,
      u.translationUnitId = v.translationUnitId → u.sourcePath = v.sourcePath ∧
        u.workingDirectory = v.workingDirectory ∧ u.arguments = v.arguments := by
  obtain ⟨hne, n, hn, rfl⟩ := loadProjectManifest_eq_ok.mp h
  obtain rfl : normalized = n := Except.ok.inj (hnormal.symm.trans hn)
  obtain ⟨hne', n', hn', rfl⟩ := loadProjectManifest_eq_ok.mp h'
  obtain rfl : normalized' = n' := Except.ok.inj (hnormal'.symm.trans hn')
  have hsourced : ∀ c ∈ normalized, c.Sourced sha256 files root := fun c hc =>
    ((mem_of_mapM hnormal).mp hc).elim fun _ hx => sourced_of_normalizeCommand hfiles hx.2
  have hsourced' : ∀ c ∈ normalized', c.Sourced sha256 files' root' := fun c hc =>
    ((mem_of_mapM hnormal').mp hc).elim fun _ hx =>
      sourced_of_normalizeCommand hfiles' hx.2
  have hlength := (mapM_eq_ok.mp hnormal).length_eq
  have hlength' := (mapM_eq_ok.mp hnormal').length_eq
  constructor
  · intro hid _ c
    constructor
    · refine mem_of_repositoryId hsha hplain hsourced hsourced' (fun c hc d hd =>
        hdirectory c (mem_append_left _ hc) d (mem_append_right _ hd)) ?_ hid
      rwa [ne_eq, ← length_eq_zero_iff, ← hlength', length_eq_zero_iff]
    · refine mem_of_repositoryId hsha (fun c hc => hplain c ?_) hsourced' hsourced
        (fun c hc d hd => hdirectory c (mem_append_right _ hc) d (mem_append_left _ hd))
        ?_ hid.symm
      · exact mem_append.mpr (mem_append.mp hc).symm
      · rwa [ne_eq, ← length_eq_zero_iff, ← hlength, length_eq_zero_iff]
  · intro u hu v hv hid
    simp only [manifestOf, mem_map, mem_insertionSort] at hu hv
    obtain ⟨c, hc, rfl⟩ := hu
    obtain ⟨d, hd, rfl⟩ := hv
    have hc' := mem_append_left normalized' hc
    have hd' := mem_append_left normalized' hd
    have hrevision : '\x00' ∉ (programContext sha256 host normalized).revisionId.toList := by
      simp [programContext, taggedIdentifier, domainHash, hsha.nul]
    obtain ⟨hpath, hargs⟩ :=
      unit_of_translationUnitId hsha hrevision (hplain c hc') (hplain d hd') hid
    have hsource : c.source = d.source := by
      obtain ⟨p, _, hp, hcp, -⟩ := hsourced c hc
      obtain ⟨q, _, hq, hdq, -⟩ := hsourced d hd
      rw [hcp, hdq] at hpath ⊢
      exact classifyPath_eq_of_text hp hq hpath
    exact ⟨hsource, hdirectory c hc' d hd' hsource hargs, hargs⟩

/-- A collision-free stand-in for the hash: the codes of the characters, in decimal. -/
def decimalHash (text : String) : String :=
  concat (fun c => c.toNat.repr ++ String.singleton ',') text.toList

theorem decimalHash_plain : HashPlain decimalHash := by
  have hchars : ∀ c, c.isDigit = false → c ≠ ',' → ∀ l,
      c ∉ (concat (fun c : Char => c.toNat.repr ++ String.singleton ',') l).toList := by
    intro c hdigit hcomma l
    induction l with
    | nil => simp [concat]
    | cons d l ih =>
      have hrepr := notMem_repr hdigit d.toNat
      simp_all [concat]
  refine ⟨fun a b h => String.toList_inj.mp (concat_inj ?_ ?_ h),
    fun text => hchars _ (by decide) (by decide) _, fun text => hchars _ (by decide) (by decide) _⟩
  · exact terminated_prefixFree (fun c d hcd => Char.toNat_inj.mp (repr_injective hcd))
      fun c => notMem_repr (by decide) _
  · intro c hc
    simpa using congrArg String.length hc

/-- A checkout with one directory and one file. -/
def oneFile : Files where
  weaklyCanonical text := some (if text = "/p" then ["p"] else ["p", "x.c"])
  isRegularFile _ := true
  readFile _ := some ""

theorem oneFile_canonical : oneFile.Canonical := by
  intro text path h
  obtain rfl : _ = path := Option.some.inj h
  unfold Named
  split_ifs <;> decide

def oneCommand : NormalizedCommand :=
  ⟨⟨.repository, "repository", "x.c"⟩, ⟨.repository, "repository", "."⟩, ["cc", "-Iinc"],
    domainHash decimalHash "veritas.source_file.v1" ""⟩

theorem sample_build_determined : ∃ m m', loadProjectManifest decimalHash "host" oneFile ["p"]
        [compileIn "/p" "x.c" "inc"] = .ok m ∧
      loadProjectManifest decimalHash "host" oneFile ["p"]
        [compileIn "/p" "x.c" "inc", compileIn "/p" "/p/x.c" "inc"] = .ok m' ∧
      (m.context.repositoryId = m'.context.repositoryId →
        m.context.buildVariantId = m'.context.buildVariantId →
          ∀ c, c ∈ [oneCommand] ↔ c ∈ [oneCommand, oneCommand]) := by
  have hone : [compileIn "/p" "x.c" "inc"].mapM (normalizeCommand decimalHash oneFile ["p"]) =
      .ok [oneCommand] := rfl
  have htwo : [compileIn "/p" "x.c" "inc", compileIn "/p" "/p/x.c" "inc"].mapM
      (normalizeCommand decimalHash oneFile ["p"]) = .ok [oneCommand, oneCommand] := rfl
  have hload := (@loadProjectManifest_eq_ok _ "host" ..).mpr ⟨cons_ne_nil _ _, _, hone, rfl⟩
  have hload' := (@loadProjectManifest_eq_ok _ "host" ..).mpr ⟨cons_ne_nil _ _, _, htwo, rfl⟩
  refine ⟨_, _, hload, hload', (identifiers_determine_build decimalHash_plain oneFile_canonical
    oneFile_canonical hload hload' hone htwo ?_ ?_).1⟩
  · simp only [cons_append, nil_append, mem_cons, not_mem_nil, or_false, or_self, forall_eq]
    exact ⟨by decide, by decide, by decide⟩
  · simp

/-- Two units that differ only in the directory they are compiled in share their identifier. -/
theorem directories_share_unit_id :
    (loadProjectManifest id "host" plainFiles ["p"] [compileIn "/p/a" "/p/x.c" "inc",
        compileIn "/p/b" "/p/x.c" "inc"]).toOption.any (fun m => m.translationUnits.any fun u =>
      m.translationUnits.any fun v => u.translationUnitId = v.translationUnitId ∧
        u.workingDirectory ≠ v.workingDirectory) = true := by
  decide +kernel

end Veritas.Build

import Veritas.Build.ProjectManifestLoader

/-! What a manifest keeps when the entries are permuted or the checkout is moved. -/
namespace Veritas.Build

open Ordered StatusOr List

variable {sha256 : String → String} {host : String} {files files' : Files}
  {root root' : CanonicalPath} {commands commands' : List CompileCommand}
  {normalized normalized' : List NormalizedCommand} {m : AnalysisManifest}

theorem loadProjectManifest_eq_ok :
    loadProjectManifest sha256 host files root commands = .ok m ↔ commands ≠ [] ∧
      ∃ normalized, commands.mapM (normalizeCommand sha256 files root) = .ok normalized ∧
        m = manifestOf sha256 host normalized := by
  simp only [loadProjectManifest, guard_eq_ok, bind_eq_ok, pure_eq_ok, ne_eq, @eq_comm _ m]

/-- Commands that compile one source with one command hash are the same command. -/
def TiesAgree (normalized : List NormalizedCommand) (sha256 : String → String) : Prop :=
  ∀ c ∈ normalized, ∀ d ∈ normalized, c.source = d.source →
    c.commandHash sha256 = d.commandHash sha256 →
      c.workingDirectory = d.workingDirectory ∧ c.arguments = d.arguments

theorem sortedUniqueJoined_congr {records records' : List String} {sep : Char}
    (h : records.Perm records') :
    sortedUniqueJoined records sep = sortedUniqueJoined records' sep := by
  rw [sortedUniqueJoined, sortedUniqueJoined, sortUnique_congr fun a => h.mem_iff]

theorem programContext_congr (h : normalized.Perm normalized') :
    programContext sha256 host normalized = programContext sha256 host normalized' := by
  have htree : computeSourceTreeHash sha256 normalized =
      computeSourceTreeHash sha256 normalized' := by
    rw [computeSourceTreeHash, computeSourceTreeHash, sortedUniqueJoined_congr (h.map _)]
  have hoptions : computeCompileOptionsHash sha256 normalized =
      computeCompileOptionsHash sha256 normalized' := by
    rw [computeCompileOptionsHash, computeCompileOptionsHash,
      sortedUniqueJoined_congr (h.flatMap_right _)]
  have hcompiler : detectCompilerId normalized = detectCompilerId normalized' :=
    sortedUniqueJoined_congr (h.filterMap _)
  have hdatabase : compilationDatabaseHash sha256 normalized =
      compilationDatabaseHash sha256 normalized' := by
    rw [compilationDatabaseHash, compilationDatabaseHash, sortedUniqueJoined_congr (h.map _)]
  have htriple : detectTargetTriple host normalized = detectTargetTriple host normalized' := by
    have htargets := (h.map fun c => detectCommandTarget c.arguments).filter (· ≠ "")
    simp only [detectTargetTriple, sortedUniqueJoined_congr htargets]
    congr 1
    exact propext ⟨fun hnil => (hnil ▸ htargets).nil_eq.symm, fun hnil => (hnil ▸ htargets).eq_nil⟩
  simp only [programContext, htree, hoptions, hcompiler, hdatabase, htriple]

theorem PathRootKind.ordinal_injective : Function.Injective PathRootKind.ordinal := by
  intro a b h
  cases a <;> cases b <;> first | rfl | exact absurd h (by decide)

theorem source_eq_of_sortKey {a b : TranslationUnitCommand} (h : a.sortKey = b.sortKey) :
    a.sourcePath = b.sourcePath ∧ a.commandHash = b.commandHash := by
  simp only [TranslationUnitCommand.sortKey, EmbeddingLike.apply_eq_iff_eq, Prod.mk.injEq] at h
  obtain ⟨hkind, hid, hpath, hhash⟩ := h
  refine ⟨?_, hhash⟩
  cases ha : a.sourcePath
  cases hb : b.sourcePath
  simp only [ha, hb] at hkind hid hpath
  rw [PathRootKind.ordinal_injective hkind, hid, hpath]

theorem toCanonicalBytes_perm (hties : TiesAgree normalized sha256)
    (h : normalized.Perm normalized') :
    (manifestOf sha256 host normalized).toCanonicalBytes =
      (manifestOf sha256 host normalized').toCanonicalBytes := by
  have hordered : (manifestOf sha256 host normalized).orderedTranslationUnits =
      (manifestOf sha256 host normalized').orderedTranslationUnits := by
    simp only [AnalysisManifest.orderedTranslationUnits, manifestOf, programContext_congr h]
    refine insertionSort_eq_of_perm ?_ (((perm_insertionSort _ _).trans
      (h.trans (perm_insertionSort _ _).symm)).map _)
    intro a ha b hb hab
    simp only [mem_map, mem_insertionSort] at ha hb
    obtain ⟨c, hc, rfl⟩ := ha
    obtain ⟨d, hd, rfl⟩ := hb
    obtain ⟨hsource, hhash⟩ := source_eq_of_sortKey hab
    obtain ⟨hdirectory, harguments⟩ := hties c hc d hd hsource hhash
    simp only [translationUnit] at hsource hhash ⊢
    rw [hsource, hhash, hdirectory, harguments]
  have hcontext : (manifestOf sha256 host normalized).context =
      (manifestOf sha256 host normalized').context := programContext_congr h
  simp only [AnalysisManifest.toCanonicalBytes, hordered, hcontext]

/-- The path a file of the old checkout has in the new one; files outside stay. -/
def movePath (root root' path : CanonicalPath) : CanonicalPath :=
  if root <+: path then root' ++ path.drop root.length else path

/-- A command line up to the checkout: a program inside or outside it, and arguments as the
pieces of text between mentions of it. -/
structure CommandTemplate where
  programInside : Bool
  program : String
  arguments : List (List String)

def CommandTemplate.render (template : CommandTemplate) (root : String) : List String :=
  (if template.programInside then root ++ "/" ++ template.program else template.program) ::
    template.arguments.map root.intercalate

/-- The root is found at the places where the template mentions it and nowhere else. -/
def NoStray (root : List Char) : List (List Char) → Prop
  | [] => True
  | piece :: pieces => (∀ i < piece.length, ¬ root <+: (root.intercalate (piece :: pieces)).drop i) ∧
      NoStray root pieces

/-- The directory and the source file a command names. -/
def CompileCommand.Names (c : CompileCommand) (files : Files) (directory source : CanonicalPath) :
    Prop :=
  c.directory ≠ "" ∧ files.weaklyCanonical c.directory = some directory ∧
    resolveSource files directory c.filename = some source

instance {c : CompileCommand} {directory source : CanonicalPath} :
    Decidable (c.Names files directory source) := inferInstanceAs (Decidable (_ ∧ _))

/-- The same command in two checkouts of one tree. -/
structure MovedCommand (files files' : Files) (root root' : CanonicalPath)
    (c c' : CompileCommand) (template : CommandTemplate) : Prop where
  paths : ∀ directory source, c.Names files directory source →
    c'.Names files' (movePath root root' directory) (movePath root root' source) ∧
      files'.isRegularFile (movePath root root' source) = files.isRegularFile source ∧
      files'.readFile (movePath root root' source) = files.readFile source
  line : c.commandLine = template.render (genericString root)
  line' : c'.commandLine = template.render (genericString root')

/-- No path outside the old checkout is inside the new one, and no text but a path inside the
checkout holds either root. -/
structure MoveClean (files : Files) (root root' : CanonicalPath) (c : CompileCommand)
    (template : CommandTemplate) : Prop where
  outside : ∀ directory source, c.Names files directory source → ∀ path ∈ [directory, source],
    ¬ root <+: path → ¬ root' <+: path
  arguments : ∀ pieces ∈ template.arguments,
    NoStray (genericString root).toList (pieces.map String.toList) ∧
    NoStray (genericString root').toList (pieces.map String.toList)

theorem classifyPath_move {path : CanonicalPath} (hout : ¬ root <+: path → ¬ root' <+: path) :
    classifyPath (movePath root root' path) root' = classifyPath path root := by
  by_cases h : root <+: path
  · simp [classifyPath, isWithin, movePath, h]
  · simp [classifyPath, isWithin, movePath, h, hout h]

variable {r : List Char} {template : CommandTemplate}

theorem substituteFrom_piece {piece rest : List Char}
    (h : ∀ i < piece.length, ¬ r <+: (piece ++ rest).drop i) :
    substituteFrom r 0 (piece ++ rest) = piece ++ substituteFrom r 0 rest := by
  induction piece with
  | nil => rfl
  | cons c piece ih =>
    have hhead : ¬ r.isPrefixOf (c :: (piece ++ rest)) := by
      simpa using h 0 (by simp)
    rw [cons_append, substituteFrom, if_neg (lt_irrefl 0), if_neg hhead, ih]
    · rfl
    · intro i hi
      exact h (i + 1) (by simpa using hi)

theorem substituteFrom_skip {word rest : List Char} :
    substituteFrom r word.length (word ++ rest) = substituteFrom r 0 rest := by
  induction word with
  | nil => rfl
  | cons c word ih =>
    rw [cons_append, substituteFrom, if_pos (by simp), length_cons, Nat.add_sub_cancel, ih]

theorem substituteFrom_root {rest : List Char} (hr : r ≠ []) :
    substituteFrom r 0 (r ++ rest) = "<repo>".toList ++ substituteFrom r 0 rest := by
  obtain ⟨c, r', rfl⟩ := exists_cons_of_ne_nil hr
  have hprefix : (c :: r').isPrefixOf (c :: (r' ++ rest)) = true := by simp
  rw [cons_append, substituteFrom, if_neg (lt_irrefl 0), if_pos hprefix, length_cons,
    Nat.add_sub_cancel, substituteFrom_skip]

/-- Where the root is only where the template says, replacing it fills the template. -/
theorem substituteFrom_intercalate (hr : r ≠ []) {pieces : List (List Char)} (h : NoStray r pieces) :
    substituteFrom r 0 (r.intercalate pieces) = "<repo>".toList.intercalate pieces := by
  induction pieces with
  | nil => rfl
  | cons piece pieces ih =>
    cases pieces with
    | nil =>
      have hpiece : substituteFrom r 0 (piece ++ []) = piece ++ substituteFrom r 0 [] :=
        substituteFrom_piece (by simpa using h.1)
      simpa [substituteFrom] using hpiece
    | cons next pieces =>
      have hcons : ∀ s : List Char, s.intercalate (piece :: next :: pieces) =
          piece ++ (s ++ s.intercalate (next :: pieces)) := fun s => by
        simp [List.intercalate, List.intersperse]
      obtain ⟨hpiece, hrest⟩ := h
      rw [hcons] at hpiece
      rw [hcons, hcons, substituteFrom_piece hpiece, substituteFrom_root hr, ih hrest]

theorem basenameOf_append (directory program : String) :
    basenameOf (directory ++ "/" ++ program) = basenameOf program := by
  have htake : ∀ l rest : List Char, (l ++ '/' :: rest).takeWhile (· ≠ '/') =
      l.takeWhile (· ≠ '/') := by
    intro l rest
    induction l with
    | nil => simp
    | cons c l ih => by_cases h : c = '/' <;> simp_all
  have hreverse : (directory ++ "/" ++ program).toList.reverse =
      program.toList.reverse ++ '/' :: directory.toList.reverse := by simp
  rw [basenameOf, hreverse, htake, basenameOf]

theorem normalizeArguments_render (h : ∀ pieces ∈ template.arguments,
      NoStray (genericString root).toList (pieces.map String.toList)) :
    normalizeArguments (template.render (genericString root)) (genericString root) =
      basenameOf template.program :: template.arguments.map "<repo>".intercalate := by
  have hprogram : basenameOf (if template.programInside then
      genericString root ++ "/" ++ template.program else template.program) =
      basenameOf template.program := by
    split_ifs
    · exact basenameOf_append _ _
    · rfl
  have hroot : genericString root ≠ "" := by
    intro hnil
    simpa [genericString] using congrArg String.length hnil
  rw [CommandTemplate.render, normalizeArguments, hprogram, map_map]
  congr 1
  refine map_congr_left fun pieces hpieces => String.toList_inj.mp ?_
  have hchars : (genericString root).toList ≠ [] := by simpa using hroot
  rw [Function.comp_apply, substituteProjectRoot, if_neg hroot, String.toList_ofList,
    String.toList_intercalate, substituteFrom_intercalate hchars (h pieces hpieces),
    String.toList_intercalate]

theorem orFail_eq_ok {α : Type} {x : Option α} {message : String} {a : α} :
    orFail x message = .ok a ↔ x = some a := by
  cases x <;> simp [orFail]

/-- A clean move leaves what the loader makes of the command. -/
theorem normalizeCommand_move {c c' : CompileCommand} {normal : NormalizedCommand}
    (hmoved : MovedCommand files files' root root' c c' template)
    (hclean : MoveClean files root root' c template)
    (h : normalizeCommand sha256 files root c = .ok normal) :
    normalizeCommand sha256 files' root' c' = .ok normal := by
  simp only [normalizeCommand, guard_eq_ok, bind_eq_ok, pure_eq_ok, orFail_eq_ok] at h ⊢
  obtain ⟨hne, path, hpath, source, hsource, hregular, text, htext, rfl⟩ := h
  obtain ⟨⟨hne', hpath', hsource'⟩, hregular', hread⟩ :=
    hmoved.paths path source ⟨hne, hpath, hsource⟩
  have hout := hclean.outside path source ⟨hne, hpath, hsource⟩
  refine ⟨hne', _, hpath', _, hsource', hregular'.symm ▸ hregular, text, hread.trans htext, ?_⟩
  rw [classifyPath_move (hout _ (by simp)), classifyPath_move (hout _ (by simp)), hmoved.line,
    hmoved.line', normalizeArguments_render fun p hp => (hclean.arguments p hp).1,
    normalizeArguments_render fun p hp => (hclean.arguments p hp).2]

/-- A file system without links, in which every file exists and is empty. -/
def plainFiles : Files where
  weaklyCanonical text := some
    (((text.toList.splitOn '/').filter fun name => name ≠ [] ∧ name ≠ ['.']).map String.ofList)
  isRegularFile _ := true
  readFile _ := some ""

def compileIn (directory source header : String) : CompileCommand :=
  ⟨directory, source, ["cc", "-I" ++ header]⟩

theorem fieldBytes_append (fields fields' : List (String × String)) :
    fieldBytes (fields ++ fields') = fieldBytes fields ++ fieldBytes fields' := by
  simp only [fieldBytes, map_append, String.join_append]

theorem unitBytes_split (unit : TranslationUnitCommand) : ∃ common, ∀ directory,
    { unit with workingDirectory := directory }.toCanonicalBytes =
      common ++ fieldBytes (visitTaggedPath "working_directory" directory) := by
  constructor
  intro directory
  rw [TranslationUnitCommand.toCanonicalBytes, append_cons, fieldBytes_append]
  dsimp only

/-- Two units of one source and one command are kept in the order of their entries. -/
theorem toCanonicalBytes_swap_ne {c d : NormalizedCommand} (hsource : c.source = d.source)
    (harguments : c.arguments = d.arguments)
    (hlength : (fieldBytes (visitTaggedPath "working_directory" c.workingDirectory)).length =
      (fieldBytes (visitTaggedPath "working_directory" d.workingDirectory)).length)
    (hne : fieldBytes (visitTaggedPath "working_directory" c.workingDirectory) ≠
      fieldBytes (visitTaggedPath "working_directory" d.workingDirectory)) :
    (manifestOf sha256 host [c, d]).toCanonicalBytes ≠
      (manifestOf sha256 host [d, c]).toCanonicalBytes := by
  have hhash : c.commandHash sha256 = d.commandHash sha256 := by
    rw [NormalizedCommand.commandHash, NormalizedCommand.joinedArgs, harguments]
    rfl
  intro h
  have hcontext : programContext sha256 host [d, c] = programContext sha256 host [c, d] :=
    programContext_congr (.swap _ _ _)
  obtain ⟨common, hcommon⟩ :=
    unitBytes_split (translationUnit sha256 (programContext sha256 host [c, d]) d)
  have hc := hcommon c.workingDirectory
  have hd := hcommon d.workingDirectory
  generalize fieldBytes (visitTaggedPath "working_directory" c.workingDirectory) = x at *
  generalize fieldBytes (visitTaggedPath "working_directory" d.workingDirectory) = y at *
  simp only [translationUnit] at hc hd
  simp only [AnalysisManifest.toCanonicalBytes, AnalysisManifest.orderedTranslationUnits,
    manifestOf, hcontext, insertionSort_cons, insertionSort_nil, List.orderedInsert, hsource,
    le_refl, if_true, map_cons, map_nil, TranslationUnitCommand.sortKey, translationUnit, hhash,
    harguments, hc, hd, fieldBytes, appendField, String.join_cons, String.length_append,
    String.append_assoc, String.append_right_inj, length_cons, hlength] at h
  have h := congrArg String.toList h
  simp only [String.toList_append] at h
  exact hne (String.toList_inj.mp (append_inj h hlength).1)

end Veritas.Build

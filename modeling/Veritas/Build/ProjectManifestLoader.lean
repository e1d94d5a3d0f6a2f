import Veritas.Core.Ids

/-! The compilation database loaded into an analysis manifest, and the manifest's bytes. -/
namespace Veritas.Build

open Ordered

inductive PathRootKind
  | repository | generated | external | toolchain
  deriving DecidableEq

def PathRootKind.ordinal : PathRootKind → ℕ
  | .repository => 0
  | .generated => 1
  | .external => 2
  | .toolchain => 3

def rootKindToken : PathRootKind → String
  | .repository => "repository"
  | .generated => "generated"
  | .external => "external"
  | .toolchain => "toolchain"

structure TaggedPath where
  rootKind : PathRootKind
  rootId : String
  relativePath : String
  deriving DecidableEq

structure CompileCommand where
  directory : String
  filename : String
  commandLine : List String

/-- A canonical absolute path, by its components. -/
abbrev CanonicalPath := List String

def genericString (path : CanonicalPath) : String := "/" ++ "/".intercalate path

/-- What the loader asks of the file system; `none` is the error code of the call. -/
structure Files where
  weaklyCanonical : String → Option CanonicalPath
  isRegularFile : CanonicalPath → Bool
  readFile : CanonicalPath → Option String

structure NormalizedCommand where
  source : TaggedPath
  workingDirectory : TaggedPath
  arguments : List String
  sourceContentHash : String

def isWithin (child parent : CanonicalPath) : Bool := parent.isPrefixOf child

def classifyPath (absolute projectRoot : CanonicalPath) : TaggedPath :=
  if isWithin absolute projectRoot then
    let rest := absolute.drop projectRoot.length
    ⟨.repository, "repository", if rest = [] then "." else "/".intercalate rest⟩
  else ⟨.external, "external", genericString absolute⟩

def basenameOf (program : String) : String :=
  String.ofList (program.toList.reverse.takeWhile (· ≠ '/')).reverse

/-- The search resumes after each hit; `skip` counts the characters of the hit still to pass. -/
def substituteFrom (root : List Char) (skip : ℕ) : List Char → List Char
  | [] => []
  | c :: rest =>
    if 0 < skip then substituteFrom root (skip - 1) rest
    else if root.isPrefixOf (c :: rest) then
      "<repo>".toList ++ substituteFrom root (root.length - 1) rest
    else c :: substituteFrom root 0 rest

def substituteProjectRoot (argument root : String) : String :=
  if root = "" then argument else String.ofList (substituteFrom root.toList 0 argument.toList)

def normalizeArguments (raw : List String) (root : String) : List String :=
  match raw with
  | [] => []
  | program :: rest => basenameOf program :: rest.map (substituteProjectRoot · root)

def joinNul (parts : List String) : String := (String.singleton '\x00').intercalate parts

def sortedUniqueJoined (records : List String) (sep : Char) : String :=
  (String.singleton sep).intercalate (sortUnique records)

section Loader

variable (sha256 : String → String)

def domainHash (domain bytes : String) : String := sha256 (domain ++ "\x00" ++ bytes)

def taggedIdentifier (kind domain bytes : String) : String :=
  kind ++ ":sha256:" ++ domainHash sha256 domain bytes

/-- The source file of a command, taken from its directory unless it is absolute. -/
def resolveSource (files : Files) (directory : CanonicalPath) (filename : String) :
    Option CanonicalPath :=
  if filename.toList.head? = some '/' then files.weaklyCanonical filename
  else files.weaklyCanonical (genericString directory ++ "/" ++ filename)

def orFail {α : Type} (value : Option α) (message : String) : StatusOr α :=
  match value with
  | some a => .ok a
  | none => .error ⟨.failedPrecondition, message⟩

def normalizeCommand (files : Files) (projectRoot : CanonicalPath) (command : CompileCommand) :
    StatusOr NormalizedCommand := do
  if command.directory = "" then
    throw ⟨.failedPrecondition,
      "compile command has empty working directory for: " ++ command.filename⟩
  let directory ← orFail (files.weaklyCanonical command.directory)
    ("cannot canonicalize compile command directory: " ++ command.directory)
  let source ← orFail (resolveSource files directory command.filename)
    ("cannot canonicalize translation-unit source: " ++ command.filename)
  if files.isRegularFile source = false then
    throw ⟨.failedPrecondition, "translation-unit source is missing: " ++ genericString source⟩
  let contents ← orFail (files.readFile source) ("cannot read " ++ genericString source)
  return ⟨classifyPath source projectRoot, classifyPath directory projectRoot,
    normalizeArguments command.commandLine (genericString projectRoot),
    domainHash sha256 "veritas.source_file.v1" contents⟩

def NormalizedCommand.joinedArgs (command : NormalizedCommand) : String :=
  joinNul command.arguments

def NormalizedCommand.commandHash (command : NormalizedCommand) : String :=
  domainHash sha256 "veritas.command.v1" command.joinedArgs

def computeSourceTreeHash (normalized : List NormalizedCommand) : String :=
  domainHash sha256 "veritas.source_tree.v1" (sortedUniqueJoined
    (normalized.map fun c => joinNul [c.source.relativePath, c.sourceContentHash]) '\n')

def computeCompileOptionsHash (normalized : List NormalizedCommand) : String :=
  domainHash sha256 "veritas.compile_options.v1"
    (sortedUniqueJoined (normalized.flatMap (·.arguments)) '\x00')

def detectCompilerId (normalized : List NormalizedCommand) : String :=
  sortedUniqueJoined (normalized.filterMap (·.arguments.head?)) ','

def targetFlags : List String := ["--target", "-target", "-triple"]

/-- The text after the flag that one argument starts with. -/
def joinedTarget? (argument : String) : Option String :=
  targetFlags.findSome? fun flag =>
    if (flag ++ "=").toList.isPrefixOf argument.toList then
      some (String.ofList (argument.toList.drop (flag.length + 1)))
    else none

def commandTarget : List String → String
  | [] => ""
  | argument :: rest =>
    if argument ∈ targetFlags then rest.headD ""
    else (joinedTarget? argument).getD (commandTarget rest)

def detectCommandTarget (arguments : List String) : String := commandTarget arguments.tail

def detectTargetTriple (hostTriple : String) (normalized : List NormalizedCommand) : String :=
  let targets := (normalized.map (detectCommandTarget ·.arguments)).filter (· ≠ "")
  if targets = [] then hostTriple else sortedUniqueJoined targets ','

def compilationDatabaseHash (normalized : List NormalizedCommand) : String :=
  domainHash sha256 "veritas.compilation_database.v1" (sortedUniqueJoined
    (normalized.map fun c => joinNul [c.source.relativePath, c.joinedArgs]) '\n')

structure ProgramContext where
  repositoryId : String
  revisionId : String
  buildVariantId : String
  vcsKind : String := "none"
  vcsRevision : String := ""
  sourceTreeHash : String
  compilationDatabaseHash : String
  targetTriple : String
  compilerId : String
  compilerVersion : String := ""
  compileOptionsHash : String
  macroSetHash : String := ""
  includeClosureHash : String := ""
  typeLayoutHash : String

structure TranslationUnitCommand where
  translationUnitId : String
  revisionId : String
  buildVariantId : String
  sourcePath : TaggedPath
  workingDirectory : TaggedPath
  arguments : List String
  commandHash : String
  preprocessorHash : String := ""

structure AnalysisManifest where
  context : ProgramContext
  translationUnits : List TranslationUnitCommand

def programContext (hostTriple : String) (normalized : List NormalizedCommand) : ProgramContext :=
  let sourceTreeHash := computeSourceTreeHash sha256 normalized
  let compileOptionsHash := computeCompileOptionsHash sha256 normalized
  let compilerId := detectCompilerId normalized
  let targetTriple := detectTargetTriple hostTriple normalized
  let databaseHash := compilationDatabaseHash sha256 normalized
  { repositoryId := taggedIdentifier sha256 "repo" "veritas.repository.v1"
      (joinNul [sourceTreeHash, databaseHash])
    revisionId := taggedIdentifier sha256 "rev" "veritas.revision.v1" sourceTreeHash
    buildVariantId := taggedIdentifier sha256 "bv" "veritas.build_variant.v1"
      (joinNul [compilerId, compileOptionsHash])
    sourceTreeHash, compilationDatabaseHash := databaseHash, targetTriple, compilerId
    compileOptionsHash
    typeLayoutHash := taggedIdentifier sha256 "layout" "veritas.type_layout.v1"
      (joinNul [targetTriple, compilerId]) }

def translationUnit (context : ProgramContext) (command : NormalizedCommand) :
    TranslationUnitCommand :=
  { translationUnitId := taggedIdentifier sha256 "tu" "veritas.translation_unit.v1"
      (joinNul [context.revisionId, command.source.relativePath, command.commandHash sha256])
    revisionId := context.revisionId
    buildVariantId := context.buildVariantId
    sourcePath := command.source
    workingDirectory := command.workingDirectory
    arguments := command.arguments
    commandHash := command.commandHash sha256 }

/-- The manifest of a project whose commands are normalised, units in path order. -/
def manifestOf (hostTriple : String) (normalized : List NormalizedCommand) : AnalysisManifest :=
  let context := programContext sha256 hostTriple normalized
  ⟨context, (normalized.insertionSort fun a b => a.source.relativePath ≤ b.source.relativePath).map
    (translationUnit sha256 context)⟩

def loadProjectManifest (hostTriple : String) (files : Files) (projectRoot : CanonicalPath)
    (allCommands : List CompileCommand) : StatusOr AnalysisManifest := do
  if allCommands = [] then
    throw ⟨.failedPrecondition, "compile_commands.json contains no entries: " ++
      genericString (projectRoot ++ ["compile_commands.json"])⟩
  let normalized ← allCommands.mapM (normalizeCommand sha256 files projectRoot)
  return manifestOf sha256 hostTriple normalized

end Loader

def appendBigEndian (width value : ℕ) : String :=
  String.ofList ((List.range width).map fun i =>
    Char.ofNat (value / 256 ^ (width - 1 - i) % 256))

def appendField (key value : String) : String :=
  appendBigEndian 4 key.length ++ key ++ appendBigEndian 8 value.length ++ value

def fieldBytes (fields : List (String × String)) : String :=
  String.join (fields.map fun field => appendField field.1 field.2)

def visitTaggedPath (label : String) (path : TaggedPath) : List (String × String) :=
  [(label ++ "_relative_path", path.relativePath), (label ++ "_root_id", path.rootId),
    (label ++ "_root_kind", rootKindToken path.rootKind)]

def TranslationUnitCommand.toCanonicalBytes (unit : TranslationUnitCommand) : String :=
  fieldBytes ([("arguments", joinNul unit.arguments), ("build_variant_id", unit.buildVariantId),
    ("command_hash", unit.commandHash), ("preprocessor_hash", unit.preprocessorHash),
    ("revision_id", unit.revisionId)] ++ visitTaggedPath "source" unit.sourcePath ++
    ("translation_unit_id", unit.translationUnitId) ::
      visitTaggedPath "working_directory" unit.workingDirectory)

def ProgramContext.toCanonicalBytes (ctx : ProgramContext) : String :=
  fieldBytes [("build_variant_id", ctx.buildVariantId),
    ("compilation_database_hash", ctx.compilationDatabaseHash),
    ("compile_options_hash", ctx.compileOptionsHash), ("compiler_id", ctx.compilerId),
    ("compiler_version", ctx.compilerVersion), ("include_closure_hash", ctx.includeClosureHash),
    ("macro_set_hash", ctx.macroSetHash), ("repository_id", ctx.repositoryId),
    ("revision_id", ctx.revisionId), ("source_tree_hash", ctx.sourceTreeHash),
    ("target_triple", ctx.targetTriple), ("type_layout_hash", ctx.typeLayoutHash),
    ("vcs_kind", ctx.vcsKind), ("vcs_revision", ctx.vcsRevision)]

def TranslationUnitCommand.sortKey (unit : TranslationUnitCommand) :
    ℕ ×ₗ String ×ₗ String ×ₗ String :=
  toLex (unit.sourcePath.rootKind.ordinal, toLex (unit.sourcePath.rootId,
    toLex (unit.sourcePath.relativePath, unit.commandHash)))

def AnalysisManifest.orderedTranslationUnits (manifest : AnalysisManifest) :
    List TranslationUnitCommand :=
  manifest.translationUnits.insertionSort fun a b => a.sortKey ≤ b.sortKey

def AnalysisManifest.toCanonicalBytes (manifest : AnalysisManifest) : String :=
  let ordered := manifest.orderedTranslationUnits
  manifest.context.toCanonicalBytes ++ appendBigEndian 4 ordered.length ++
    fieldBytes (ordered.map fun unit => ("translation_unit", unit.toCanonicalBytes))

end Veritas.Build

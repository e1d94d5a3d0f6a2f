import Veritas.Core.Ids
import Veritas.Library.OrderedMap
import Veritas.Library.Timed

/-! Snapshot capture: the selected inputs are read twice while other processes may change them. -/
namespace Veritas.Review

open Timed

def changed : Status :=
  ⟨.failedPrecondition, "retryable: selected inputs changed during snapshot capture"⟩

def unsafeInput : Status := ⟨.invalidArgument, "unsafe or unsupported symlink/input path"⟩

def io : Status := ⟨.failedPrecondition, "unreadable snapshot input or output"⟩

def byteBudgetExceeded : Status := ⟨.failedPrecondition, "snapshot byte budget exceeded"⟩

def fileBudgetExceeded : Status := ⟨.failedPrecondition, "snapshot file budget exceeded"⟩

/-- A path relative to the project root, without empty, `.` or `..` components. -/
def normalizeReviewPath (text : String) : StatusOr String :=
  let parts := (text.toList.splitOn '/').map String.ofList
  let kept := parts.filter fun part => part ≠ "" ∧ part ≠ "."
  if text = "" ∨ '\x00' ∈ text.toList ∨ '\\' ∈ text.toList then
    throw ⟨.invalidArgument, "invalid repository-relative path"⟩
  else if text.toList.head? = some '/' then throw ⟨.invalidArgument, "absolute input path"⟩
  else if ".." ∈ parts ∨ ".git" ∈ parts then
    throw ⟨.invalidArgument, "traversal or repository metadata path"⟩
  else if kept = [] then throw ⟨.invalidArgument, "select a file or subdirectory"⟩
  else return String.intercalate "/" kept

/-- A file apart from its names. -/
structure FileId where
  device : ℕ
  inode : ℕ

structure Stamp where
  device : ℕ := 0
  inode : ℕ := 0
  size : ℕ := 0
  mtime : ℤ := 0
  ctime : ℤ := 0
  mode : ℕ := 0
  deriving DecidableEq

/-- What `fstat` tells of a file besides its identity. -/
structure Stat where
  size : ℕ
  mtime : ℤ
  ctime : ℤ
  mode : ℕ

def Stat.isReg (s : Stat) : Prop := s.mode &&& 0xF000 = 0x8000

def Stat.isDir (s : Stat) : Prop := s.mode &&& 0xF000 = 0x4000

instance (s : Stat) : Decidable s.isReg := inferInstanceAs (Decidable (_ = _))

instance (s : Stat) : Decidable s.isDir := inferInstanceAs (Decidable (_ = _))

def stampOf (id : FileId) (s : Stat) : Stamp :=
  ⟨id.device, id.inode, s.size, s.mtime, s.ctime, s.mode⟩

theorem stampOf_injective {id id' : FileId} {s s' : Stat} (h : stampOf id s = stampOf id' s') :
    id = id' := by
  cases id
  cases id'
  simp only [stampOf, Stamp.mk.injEq] at h
  rw [h.1, h.2.1]

/-- What opening a path component by component comes to. -/
inductive Opened
  | missing
  | refused
  | unreadable
  | file (id : FileId)

/-- The project root and its repository at one instant, as the capture's calls would find them. -/
structure World where
  openRelative : String → Opened
  stat : FileId → Stat
  content : FileId → String
  names : FileId → List String
  pinBase : StatusOr String
  index : StatusOr String
  untracked : StatusOr String
  tree : String → StatusOr String
  blob : String → ℕ → StatusOr String
  rootInPlace : Bool
  -- whether a call on an open file fails now, and how much a read returns at most
  ioError : Bool
  readSize : ℕ

structure FileState where
  bytes : Option String
  stamp : Stamp
  issue : String

structure SnapshotRequest where
  selectedTracked : List String
  selectedUntracked : List String
  selectedArtifacts : List String
  compileCommandsPath : String
  programManifestPath : String
  maxFiles : ℕ
  maxBytes : ℕ

/-- What the capture computes from the bytes it read, without a further look at the project. -/
structure Derivation where
  declaredProgramPaths : String → StatusOr (List String)
  resolveProgramScope : OrderedMap String FileState → StatusOr Unit

abbrev Run := Timed Status

section Calls

variable (T : Timeline World)

def call {α : Type} (f : World → α) : Run α := do
  let (failed, a) ← T.look fun w => (w.ioError, f w)
  require (failed = false) io
  return a

/-- The read loop; every round but the last takes at least one byte more. -/
def readLoop (id : FileId) (limit : ℕ) : ℕ → List Char → Run (List Char)
  | 0, _ => throw byteBudgetExceeded
  | fuel + 1, bytes => do
    let chunk ← call T fun w =>
      ((w.content id).toList.drop bytes.length).take (min 65536 (w.readSize + 1))
    if chunk = [] then return bytes
    else do
      require (bytes.length + chunk.length ≤ limit) byteBudgetExceeded
      readLoop id limit fuel (bytes ++ chunk)

def readOpen (id : FileId) (limit : ℕ) : Run FileState := do
  let before ← call T (·.stat id)
  require before.isReg unsafeInput
  require (before.size ≤ limit) byteBudgetExceeded
  let bytes ← readLoop T id limit (limit + 1) []
  let after ← call T (·.stat id)
  require (stampOf id before = stampOf id after ∧ bytes.length = after.size) changed
  return ⟨some (String.ofList bytes), stampOf id after, ""⟩

def readFile (path : String) (limit : ℕ) : Run FileState := do
  match ← T.look (·.openRelative path) with
  | .missing => return ⟨none, {}, "missing"⟩
  | .refused => throw unsafeInput
  | .unreadable => return ⟨none, {}, "unreadable"⟩
  | .file id => readOpen T id limit

/-- The names in a directory, without its own and its parent's. -/
def entryNames (w : World) (id : FileId) : List String :=
  (w.names id).filter fun name => name ≠ "." ∧ name ≠ ".."

/-- The files below a path, and the path itself when it is a file or missing. -/
def walk (maxFiles : ℕ) : ℕ → String → Finset String → Run (Finset String)
  | 0, _, _ => throw unsafeInput
  | fuel + 1, path, files => do
    match ← T.look (·.openRelative path) with
    | .missing => return insert path files
    | .refused => throw unsafeInput
    | .unreadable => throw io
    | .file id =>
      let stat ← call T (·.stat id)
      if stat.isReg then do
        require ((insert path files).card ≤ maxFiles) fileBudgetExceeded
        return insert path files
      else do
        require stat.isDir unsafeInput
        let names ← call T (entryNames · id)
        require (names.length ≤ maxFiles) fileBudgetExceeded
        (names.insertionSort (· ≤ ·)).foldlM (fun files name => do
          let child ← lift (normalizeReviewPath (path ++ "/" ++ name))
          walk maxFiles fuel child files) files

/-- The depth limit is 128, and the selected path is at depth 0. -/
def walkArtifacts (request : SnapshotRequest) : Run (Finset String) :=
  request.selectedArtifacts.foldlM (fun files raw => do
    let path ← lift (normalizeReviewPath raw)
    walk T request.maxFiles 129 path files) ∅

end Calls

/-- The entries of a listing in which each is ended by a NUL. -/
def splitNul (value : String) : List String :=
  (value.toList.splitOn '\x00').dropLast.map String.ofList

/-- An entry of the base tree. -/
structure TreeEntry where
  path : String
  object : String
  supported : Bool

def parseTreeEntry (entry : String) : StatusOr TreeEntry :=
  let chars := entry.toList
  let info := chars.takeWhile (· ≠ '\t')
  if info.length = chars.length ∨ ' ' ∉ info then throw io
  else do
    let path ← normalizeReviewPath (String.ofList (chars.drop (info.length + 1)))
    return ⟨path, String.ofList (info.reverse.takeWhile (· ≠ ' ')).reverse,
      "100644 blob ".toList.isPrefixOf chars || "100755 blob ".toList.isPrefixOf chars⟩

/-- The paths to capture. -/
structure Selection where
  tracked : Finset String
  baseObjects : OrderedMap String String
  unsupportedBase : Finset String
  selected : Finset String
  admittedUntracked : Finset String

def Selection.isBase (s : Selection) (path : String) : Prop := (s.baseObjects.find? path).isSome

instance (s : Selection) (path : String) : Decidable (s.isBase path) :=
  inferInstanceAs (Decidable (_ = true))

def Selection.admits (s : Selection) (artifacts : Finset String) (member : String) : Prop :=
  member ∈ s.tracked ∨ s.isBase member ∨ member ∈ s.admittedUntracked ∨ member ∈ artifacts

instance (s : Selection) (artifacts : Finset String) (member : String) :
    Decidable (s.admits artifacts member) := inferInstanceAs (Decidable (_ ∨ _))

def checkTracked (s : Selection) (path : String) : StatusOr String := do
  let p ← normalizeReviewPath path
  if p ∉ s.tracked ∧ ¬ s.isBase p then
    throw ⟨.invalidArgument, "selected tracked input is not tracked"⟩
  else return p

def checkUntracked (s : Selection) (path : String) : StatusOr String := do
  let p ← normalizeReviewPath path
  if p ∈ s.tracked then
    throw ⟨.invalidArgument, "tracked path supplied as untracked selection"⟩
  else return p

def selectTracked (request : SnapshotRequest) (s : Selection) : StatusOr (Finset String) :=
  if request.selectedTracked = [] then return s.tracked ∪ s.baseObjects.keys.toFinset
  else do return (← request.selectedTracked.mapM (checkTracked s)).toFinset

def select (request : SnapshotRequest) (index tree : String) : StatusOr Selection := do
  let tracked ← (splitNul index).mapM normalizeReviewPath
  let entries ← (splitNul tree).mapM parseTreeEntry
  let listed : Selection :=
    { tracked := tracked.toFinset
      baseObjects := entries.foldl (fun m entry => m.emplace entry.path entry.object) .empty
      unsupportedBase := ((entries.filter (!·.supported)).map TreeEntry.path).toFinset
      selected := ∅
      admittedUntracked := ∅ }
  let selected ← selectTracked request listed
  if ∃ path ∈ selected, path ∈ listed.unsupportedBase then throw unsafeInput
  else do
    let untracked ← request.selectedUntracked.mapM (checkUntracked listed)
    return { listed with
      selected := selected ∪ untracked.toFinset
      admittedUntracked := untracked.toFinset }

/-- The compilation database and the program manifest, where the request names them. -/
def specialPaths (request : SnapshotRequest) : StatusOr (List String) :=
  ([request.compileCommandsPath, request.programManifestPath].filter (· ≠ "")).mapM
    normalizeReviewPath

/-- What has been read so far. -/
structure Collected where
  captured : OrderedMap String FileState
  total : ℕ
  unavailable : List String

structure ReviewSnapshot where
  base : String
  index : String
  untracked : String
  artifactMembers : Finset String
  captured : OrderedMap String FileState
  baseFiles : List (String × String)
  excluded : List String
  unavailable : List String

section Capture

variable (T : Timeline World) (request : SnapshotRequest) (derivation : Derivation)

def capture (c : Collected) (path : String) : Run Collected :=
  if (c.captured.find? path).isSome then return c
  else do
    require (c.captured.entries.length < request.maxFiles) fileBudgetExceeded
    let state ← readFile T path (request.maxBytes - c.total)
    let captured := c.captured.emplace path state
    match state.bytes with
    | some bytes => return { c with captured, total := c.total + bytes.length }
    | none =>
      return { c with captured, unavailable := c.unavailable ++ [state.issue ++ ":" ++ path] }

def declaredMembers (c : Collected) : StatusOr (List String) :=
  if request.programManifestPath = "" then return []
  else do
    let path ← normalizeReviewPath request.programManifestPath
    match (c.captured.find? path).bind FileState.bytes with
    | none => throw ⟨.failedPrecondition, "selected program manifest unavailable"⟩
    | some bytes => derivation.declaredProgramPaths bytes

/-- A declared member is read only when something else already admits it. -/
def captureMember (s : Selection) (artifacts : Finset String) (c : Collected) (member : String) :
    Run Collected :=
  if s.admits artifacts member then capture T request c member
  else return { c with unavailable := c.unavailable ++ ["unselected:" ++ member] }

def baseFile (s : Selection) (acc : List (String × String) × ℕ) (entry : String × String) :
    Run (List (String × String) × ℕ) := do
  require (entry.1 ∉ s.unsupportedBase) unsafeInput
  let bytes ← T.look fun w => w.blob entry.2 (request.maxBytes - acc.2)
  let bytes ← lift bytes
  return (acc.1 ++ [(entry.1, bytes)], acc.2 + bytes.length)

/-- A Git listing, or the status it fails with. -/
def listing (f : World → StatusOr String) : Run String := do
  let value ← T.look f
  lift value

def firstPass : Run ReviewSnapshot := do
  require (request.maxFiles ≠ 0 ∧ request.maxBytes ≠ 0)
    ⟨.invalidArgument, "positive snapshot limits required"⟩
  let base ← listing T (·.pinBase)
  let index ← listing T (·.index)
  let untracked ← listing T (·.untracked)
  let tree ← listing T (·.tree base)
  let s ← lift (select request index tree)
  let artifactMembers ← walkArtifacts T request
  let special ← lift (specialPaths request)
  let artifacts := artifactMembers ∪ special.toFinset
  let selected := s.selected ∪ artifacts
  let c ← (Ordered.ascending selected).foldlM (capture T request) ⟨.empty, 0, []⟩
  let members ← lift (declaredMembers request derivation c)
  let c ← members.foldlM (captureMember T request s artifacts) c
  lift (derivation.resolveProgramScope c.captured)
  let selected := selected ∪ (members.filter (s.admits artifacts)).toFinset
  let (baseFiles, _) ← (s.baseObjects.entries.filter (·.1 ∈ selected)).foldlM
    (baseFile T request s) ([], c.total)
  let excluded := (splitNul untracked).filter (· ∉ selected) ++
    Ordered.ascending (s.tracked.filter (· ∉ selected))
  return {
    base, index, untracked, artifactMembers, baseFiles
    captured := c.captured
    excluded := excluded.insertionSort (· ≤ ·)
    unavailable := c.unavailable.insertionSort (· ≤ ·) }

/-- A second reading has to find what the first one recorded. -/
def readAgain (_ : Unit) (entry : String × FileState) : Run Unit := do
  let now ← mapError (fun s => if s.code = .invalidArgument then s else changed)
    (readFile T entry.1 request.maxBytes)
  require (now.bytes = entry.2.bytes ∧ now.stamp = entry.2.stamp ∧
    now.issue = entry.2.issue) changed

/-- The untracked listing is taken again and dropped. -/
def secondPass (d : ReviewSnapshot) : Run Unit := do
  d.captured.entries.foldlM (readAgain T request) ()
  let again ← mapError (fun _ => changed) (walkArtifacts T request)
  require (again = d.artifactMembers) changed
  let indexAfter ← T.look (·.index)
  let baseAfter ← T.look (·.pinBase)
  let _untrackedAfter ← T.look (·.untracked)
  let rootInPlace ← T.look (·.rootInPlace)
  require (rootInPlace = true) changed
  require (indexAfter.toOption = some d.index ∧ baseAfter.toOption = some d.base) changed

def captureReviewSnapshot : Run ReviewSnapshot := do
  let d ← firstPass T request derivation
  secondPass T request d
  return d

end Capture

end Veritas.Review

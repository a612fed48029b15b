import Codex.ApplyPatch.FileSystem
import Codex.ApplyPatch.FileUpdate
import Codex.PathUri.Join

/-! `apply_hunks_to_files` of `apply-patch/src/lib.rs`. Files are regular, so that `follow_symlinks`
and the sandbox only matter through the failures of calls. -/

namespace Codex.ApplyPatch
open Codex.Lib

/-- What is used of `PathUri`; two paths are equal as its `Eq` says. -/
structure Paths (Path : Type) where
  join : Path → Text → Option Path
  parent : Path → Option Path
  inferredNativePathString : Path → Text

def posixPaths (encode : PathUri.SegmentEncoding) : Paths PathUri where
  join base path :=
    if h : base.inferPathConvention = some .posix then PosixUri.join encode ⟨base, h⟩ path else none
  parent := PathUri.parent
  inferredNativePathString := PathUri.inferredNativePathString

inductive Hunk where
  | addFile (path contents : Text)
  | deleteFile (path : Text)
  | updateFile (path : Text) (movePath : Option Text) (chunks : List UpdateFileChunk)
  deriving DecidableEq, Repr

def Hunk.path : Hunk → Text
  | addFile path _ => path
  | deleteFile path => path
  | updateFile path movePath _ => movePath.getD path

def Hunk.targetPath : Hunk → Text
  | addFile path _ => path
  | deleteFile path => path
  | updateFile path _ _ => path

inductive AppliedPatchFileChange (Path : Type) where
  | add (content : Text) (overwrittenContent : Option Text)
  | delete (content : Text)
  | update (movePath : Option Path) (oldContent : Text) (overwrittenMoveContent : Option Text)
      (newContent : Text)
  deriving DecidableEq, Repr

structure AppliedPatchChange (Path : Type) where
  path : Path
  change : AppliedPatchFileChange Path
  deriving DecidableEq, Repr

structure AppliedPatchDelta (Path : Type) where
  changes : List (AppliedPatchChange Path)
  exact : Bool

structure AffectedPaths where
  added : List Text
  modified : List Text
  deleted : List Text
  deriving DecidableEq, Repr

inductive ApplyPatchError where
  | noFilesModified
  | pathUri
  | multipleOperations (message : Text)
  | io (context : Text) (kind : IoErrorKind)
  | update (error : UpdateError)
  deriving DecidableEq, Repr

structure State (Path : Type) where
  files : Files Path
  calls : Nat
  delta : AppliedPatchDelta Path

abbrev Apply (Path : Type) := Fallible ApplyPatchError (State Path)

section Calls

variable {Path : Type} [DecidableEq Path] (fs : FileSystem Path)

def nextCall (s : State Path) : State Path := { s with calls := s.calls + 1 }

def setFile (path : Path) (content : Option Text) (s : State Path) : State Path :=
  { s with files := Function.update s.files path content }

def readFileText (path : Path) : Apply Path (Except IoErrorKind Text) := do
  let s ← get
  modify nextCall
  pure (fs.readFileText s.calls s.files path)

def getMetadata (path : Path) : Apply Path (Except IoErrorKind FileMetadata) := do
  let s ← get
  modify nextCall
  pure (fs.getMetadata s.calls s.files path)

def createDirectory (path : Path) : Apply Path (Except IoErrorKind Unit) := do
  let s ← get
  modify nextCall
  match fs.createDirectoryFailure s.calls s.files path with
  | none => pure (.ok ())
  | some kind => pure (.error kind)

def writeFile (path : Path) (content : Text) : Apply Path (Except IoErrorKind Unit) := do
  let s ← get
  modify nextCall
  match fs.writeFailure s.calls s.files path with
  | none =>
    modify (setFile path (some content))
    pure (.ok ())
  | some (kind, left) =>
    modify (setFile path left)
    pure (.error kind)

def remove (path : Path) : Apply Path (Except IoErrorKind Unit) := do
  let s ← get
  modify nextCall
  match fs.removeFailure s.calls s.files path with
  | none =>
    modify (setFile path none)
    pure (.ok ())
  | some (kind, removed) =>
    if removed then modify (setFile path none)
    pure (.error kind)

def restrictExact (exact : Bool) (s : State Path) : State Path :=
  { s with delta := { s.delta with exact := s.delta.exact && exact } }

def pushChange (change : AppliedPatchChange Path) (s : State Path) : State Path :=
  { s with delta := { s.delta with changes := s.delta.changes ++ [change] } }

def setChange (index : Nat) (change : AppliedPatchChange Path) (s : State Path) : State Path :=
  { s with delta := { s.delta with changes := s.delta.changes.set index change } }

/-- Whether the metadata of a path leave the delta exact. -/
def supportsDelta : Except IoErrorKind FileMetadata → Bool
  | .ok metadata => metadata.isFile && !metadata.isSymlink
  | .error kind => kind = .notFound

def noteExistingPathDeltaSupport (path : Path) : Apply Path Unit := do
  let metadata ← getMetadata fs path
  modify (restrictExact (supportsDelta metadata))

def readOptionalFileTextForDelta (path : Path) : Apply Path (Option Text) := do
  noteExistingPathDeltaSupport fs path
  match ← readFileText fs path with
  | .ok content => pure (some content)
  | .error kind =>
    modify (restrictExact (kind = .notFound))
    pure none

def ensureNotDirectory (path : Path) (context : Text) : Apply Path Unit := do
  match ← getMetadata fs path with
  | .error kind => throw (.io context kind)
  | .ok metadata => if metadata.isDirectory then throw (.io context .invalidInput) else pure ()

def removeFailureWasSideEffectFree (path : Path) (expected : Option Text) : Apply Path Bool :=
  match expected with
  | none => pure false
  | some expected => do
    match ← readFileText fs path with
    | .ok content => pure (content = expected)
    | .error _ => pure false

def failWrite {α : Type} (error : ApplyPatchError) : Apply Path α := do
  modify (restrictExact false)
  throw error

variable (paths : Paths Path)

def contextFor (text : String) (path : Path) : Text :=
  text.toList ++ paths.inferredNativePathString path

def writeFileOrFail (path : Path) (contents : Text) : Apply Path Unit := do
  match ← writeFile fs path contents with
  | .ok _ => pure ()
  | .error kind => failWrite (.io (contextFor paths "Failed to write file " path) kind)

def createParentDirectories (path : Path) : Apply Path Unit :=
  match paths.parent path with
  | none => pure ()
  | some parent => do
    match ← createDirectory fs parent with
    | .ok _ => pure ()
    | .error kind =>
      failWrite (.io (contextFor paths "Failed to create parent directories for " path) kind)

def writeFileWithMissingParentRetry (path : Path) (contents : Text) : Apply Path Unit := do
  match ← writeFile fs path contents with
  | .ok _ => pure ()
  | .error .notFound => do
    createParentDirectories fs paths path
    writeFileOrFail fs paths path contents
  | .error kind => failWrite (.io (contextFor paths "Failed to write file " path) kind)

def removeTracked (path : Path) (expected : Option Text) (context : Text) : Apply Path Unit := do
  match ← remove fs path with
  | .ok _ => pure ()
  | .error kind =>
    let free ← removeFailureWasSideEffectFree fs path expected
    modify (restrictExact free)
    throw (.io context kind)

def deriveNewContentsFromChunks (path : Path) (chunks : List UpdateFileChunk)
    (mode : ApplyPatchFileUpdateMode) : Apply Path (Text × Text) := do
  match ← readFileText fs path with
  | .error kind => throw (.io (contextFor paths "Failed to read file to update " path) kind)
  | .ok original =>
    match newContents (paths.inferredNativePathString path) chunks mode original with
    | .error error => throw (.update error)
    | .ok updated => pure (original, updated)

def resolve (cwd : Path) (path : Text) : Apply Path Path :=
  match paths.join cwd path with
  | some path => pure path
  | none => throw .pathUri

def applyAddFile (path : Path) (contents : Text) : Apply Path Unit := do
  let overwritten ← readOptionalFileTextForDelta fs path
  writeFileWithMissingParentRetry fs paths path contents
  modify (pushChange ⟨path, .add contents overwritten⟩)

def applyDeleteFile (path : Path) : Apply Path Unit := do
  noteExistingPathDeltaSupport fs path
  let content := (← readFileText fs path).toOption
  modify (restrictExact content.isSome)
  let context := contextFor paths "Failed to delete file " path
  ensureNotDirectory fs path context
  removeTracked fs path content context
  match content with
  | some content => modify (pushChange ⟨path, .delete content⟩)
  | none => pure ()

def applyMove (path dest : Path) (original updated : Text) : Apply Path Unit := do
  let overwritten ← readOptionalFileTextForDelta fs dest
  writeFileWithMissingParentRetry fs paths dest updated
  let index := (← get).delta.changes.length
  modify (pushChange ⟨dest, .add updated overwritten⟩)
  let context := contextFor paths "Failed to remove original " path
  ensureNotDirectory fs path context
  removeTracked fs path (some original) context
  modify (setChange index ⟨path, .update (some dest) original overwritten updated⟩)

def applyUpdateInPlace (path : Path) (original updated : Text) : Apply Path Unit := do
  writeFileOrFail fs paths path updated
  modify (pushChange ⟨path, .update none original none updated⟩)

def applyUpdateFile (cwd path : Path) (movePath : Option Text) (chunks : List UpdateFileChunk)
    (mode : ApplyPatchFileUpdateMode) : Apply Path Unit := do
  noteExistingPathDeltaSupport fs path
  let (original, updated) ← deriveNewContentsFromChunks fs paths path chunks mode
  match movePath with
  | some dest =>
    let dest ← resolve paths cwd dest
    applyMove fs paths path dest original updated
  | none => applyUpdateInPlace fs paths path original updated

def applyHunk (cwd : Path) (mode : ApplyPatchFileUpdateMode) (affected : AffectedPaths)
    (hunk : Hunk) : Apply Path AffectedPaths := do
  let path ← resolve paths cwd hunk.targetPath
  match hunk with
  | .addFile _ contents =>
    applyAddFile fs paths path contents
    pure { affected with added := affected.added ++ [hunk.path] }
  | .deleteFile _ =>
    applyDeleteFile fs paths path
    pure { affected with deleted := affected.deleted ++ [hunk.path] }
  | .updateFile _ movePath chunks =>
    applyUpdateFile fs paths cwd path movePath chunks mode
    pure { affected with modified := affected.modified ++ [hunk.path] }

def applyHunksToFiles (hunks : List Hunk) (mode : ApplyPatchFileUpdateMode) (cwd : Path) :
    Apply Path AffectedPaths :=
  if hunks = [] then throw .noFilesModified
  else hunks.foldlM (applyHunk fs paths cwd mode) ⟨[], [], []⟩

def State.initial (files : Files Path) : State Path := ⟨files, 0, ⟨[], true⟩⟩

end Calls

end Codex.ApplyPatch

import Codex.Permissions.Policy

/-! `can_write_path` of `protocol/src/permissions.rs`, in POSIX contexts. -/

namespace Codex

def PathUri.basename : PathUri → Option Lib.Bytes
  | .fallback _ => none
  | .file _ segments => (segments.reverse.find? fun s => !s.isEmpty).map PathUri.decodeUriPath

def PosixUri.joinDescendant (encode : PathUri.SegmentEncoding) (self : PosixUri) (path : Lib.Text) :
    Option PathUri :=
  (self.join encode path).filter fun descendant =>
    path.head? ≠ some '/' && descendant.startsWith self.uri

namespace Permissions
open Codex.Lib

def specialPathMatchesPathUri (value : FileSystemSpecialPath) (path : PathUri) : Bool :=
  match value with
  | .root => path.lexicalDepth.isSome && path.parent.isNone
  | .slashTmp =>
    path.inferPathConvention = some .posix && path.lexicalDepth = some 1 &&
      path.basename = some (Text.bytes "tmp".toList)
  | _ => false

/-- `special_paths_share_target` compares the variants with their fields. -/
def fileSystemPathsShareTarget : FileSystemPath → FileSystemPath → Bool
  | .path left, .path right => left.eq right
  | .special left, .special right => left = right
  | .path path, .special value =>
    path.inferPathConvention = some .posix && specialPathMatchesPathUri value path
  | .special value, .path path =>
    path.inferPathConvention = some .posix && specialPathMatchesPathUri value path
  | .globPattern left, .globPattern right => left = right
  | _, _ => false

namespace FileSystemSandboxPolicy

def hasRootAccess (self : FileSystemSandboxPolicy) (predicate : FileSystemAccessMode → Bool) :
    Bool :=
  self.kind = .restricted && self.entries.any fun entry =>
    entry.path = .special .root && predicate entry.access

def hasSameTargetWriteOverride (self : FileSystemSandboxPolicy) (entry : FileSystemSandboxEntry) :
    Bool :=
  self.entries.any fun candidate =>
    candidate.access.canWrite && entry.access.precedence < candidate.access.precedence &&
      fileSystemPathsShareTarget candidate.path entry.path

def hasWriteNarrowingEntries (self : FileSystemSandboxPolicy) : Bool :=
  self.kind = .restricted && self.entries.any fun entry =>
    !entry.access.canWrite &&
      match entry.path with
      | .path _ => !self.hasSameTargetWriteOverride entry
      | .globPattern _ => true
      | .special .root => entry.access = .deny
      | .special .minimal => false
      | .special (.unknown _ _) => false
      | .special _ => !self.hasSameTargetWriteOverride entry

def hasFullDiskWriteAccess (self : FileSystemSandboxPolicy) : Bool :=
  self.kind ≠ .restricted ||
    (self.hasRootAccess FileSystemAccessMode.canWrite && !self.hasWriteNarrowingEntries)

def protectedMetadataPathNames : List Text :=
  [".git".toList, ".agents".toList, ".codex".toList, ".aws".toList]

def protectedDirectory (context : Context) (path root : PathUri) : Option (PathUri × Text) :=
  protectedMetadataPathNames.findSome? fun name =>
    if h : root.inferPathConvention = some .posix then
      (((⟨root, h⟩ : PosixUri).joinDescendant context.crates.encode name).filter
        (path.startsWith ·)).map (·, name)
    else none

def reopens (path directory : PathUri) (entries : List (PathUri × FileSystemAccessMode)) : Bool :=
  entries.any fun (root, access) =>
    access.canWrite && path.startsWith root && root.startsWith directory

/-- Only the first protected directory that is found is judged. -/
def metadataWriteDenial (self : FileSystemSandboxPolicy) (path : PathUri) (context : Context) :
    Option Text :=
  if self.kind ≠ .restricted then none
  else
    let entries := self.resolvedEntries context
    match (entries.filter (·.2.canWrite)).findSome? (protectedDirectory context path ·.1) with
    | none => none
    | some (directory, name) => if reopens path directory entries then none else some name

def canWritePath (self : FileSystemSandboxPolicy) (path : PathUri) (context : Context) : Bool :=
  (self.resolveAccess path context).canWrite &&
    (self.hasFullDiskWriteAccess || (self.metadataWriteDenial path context).isNone)

end FileSystemSandboxPolicy

end Permissions

end Codex

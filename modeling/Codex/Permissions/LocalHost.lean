import Codex.Lib.Trim
import Codex.PathUri.Native
import Codex.Permissions.WriteAccess

/-! What `protocol/src/permissions.rs` reads of the machine it runs on. The build is one for Linux,
where `prepare_local_matching` borrows the policy as it is. -/

namespace Codex.Permissions
open Codex.Lib Codex.Lib.Percent List

/-- `encodeComponent` is what `Url::from_file_path` makes of a component. `tmpdir` is `TMPDIR` as
`from_absolute_path` reads it, unless it is unset or empty. `symlinkMetadata` is whether the path
is a symlink, and `none` where it cannot be read. -/
structure LocalHost where
  crates : Crates
  encodeComponent : Bytes → Bytes
  decode_encodeComponent : ∀ c, decode (encodeComponent c) = c
  home : Option Bytes
  userHomeDir : Option PosixUri
  tmpdir : Option AbsolutePathBuf
  symlinkMetadata : AbsolutePathBuf → Option Bool
  canonicalize : AbsolutePathBuf → Option AbsolutePathBuf
  isDir : AbsolutePathBuf → Bool
  isFile : AbsolutePathBuf → Bool
  pathExists : AbsolutePathBuf → Bool
  readToString : AbsolutePathBuf → Option Text

namespace LocalHost

def uri (host : LocalHost) (path : AbsolutePathBuf) : PathUri :=
  PathUri.fromAbsPath host.encodeComponent path

theorem lexical_uri {host : LocalHost} {path : AbsolutePathBuf}
    (h : path.IsOrdinary host.encodeComponent) : (host.uri path).lexical = some path.components :=
  h.lexical host.decode_encodeComponent

def context (host : LocalHost) (cwd : AbsolutePathBuf) : Context :=
  let cwd : PosixUri :=
    ⟨host.uri cwd, AbsolutePathBuf.fromAbsPath_posix host.decode_encodeComponent cwd⟩
  ⟨host.crates, cwd, [cwd], host.userHomeDir, some (host.tmpdir.map host.uri).toList⟩

def join (host : LocalHost) (base : AbsolutePathBuf) (path : Bytes) : AbsolutePathBuf :=
  AbsolutePathBuf.resolvePathAgainstBase host.home path base

def joinSuffix (base path ancestor : AbsolutePathBuf) : AbsolutePathBuf where
  components := base.components ++ path.components.drop ancestor.components.length
  normal := by
    intro c hc
    rcases mem_append.mp hc with hc | hc
    · exact base.normal c hc
    · exact path.normal c (mem_of_mem_drop hc)

def shouldPreserveLogicalPath (host : LocalHost) (logical : AbsolutePathBuf) : Bool :=
  logical.ancestors.any fun ancestor =>
    host.symlinkMetadata ancestor = some true &&
      (ancestor.parent.bind AbsolutePathBuf.parent).isSome

def canonicalizePreservingSymlinks (host : LocalHost) (path : AbsolutePathBuf) : AbsolutePathBuf :=
  match host.canonicalize path with
  | some canonical =>
    if host.shouldPreserveLogicalPath path && canonical ≠ path then path else canonical
  | none => path

/-- The nearest ancestor that exists is canonicalized. -/
def normalizeEffectiveAbsolutePath (host : LocalHost) (path : AbsolutePathBuf) : AbsolutePathBuf :=
  match path.ancestors.find? fun ancestor => (host.symlinkMetadata ancestor).isSome with
  | some ancestor => joinSuffix (host.canonicalizePreservingSymlinks ancestor) path ancestor
  | none => path

def SymlinkFree (host : LocalHost) : Prop :=
  ∀ path canonical, host.canonicalize path = some canonical → canonical = path

theorem canonicalizePreservingSymlinks_eq {host : LocalHost} (h : host.SymlinkFree)
    (path : AbsolutePathBuf) : host.canonicalizePreservingSymlinks path = path := by
  unfold canonicalizePreservingSymlinks
  cases hcanonical : host.canonicalize path with
  | none => rfl
  | some canonical =>
    have hsame := h path canonical hcanonical
    simp only [hsame, ite_self]

theorem normalizeEffectiveAbsolutePath_eq {host : LocalHost} (h : host.SymlinkFree)
    (path : AbsolutePathBuf) : host.normalizeEffectiveAbsolutePath path = path := by
  unfold normalizeEffectiveAbsolutePath
  split
  · next ancestor hfind =>
    rw [canonicalizePreservingSymlinks_eq h]
    obtain ⟨n, _, rfl⟩ := mem_map.mp (mem_of_find?_eq_some hfind)
    apply AbsolutePathBuf.ext_components
    simp only [joinSuffix, length_take]
    rw [Nat.min_eq_left (Nat.sub_le _ _), take_append_drop]
  · rfl

def gitName : Bytes := Text.bytes ".git".toList

def isGitPointerFile (host : LocalHost) (path : AbsolutePathBuf) : Bool :=
  host.isFile path && path.components.getLast? = some gitName

def resolveGitdirFromFile (host : LocalHost) (dotGit : AbsolutePathBuf) : Option AbsolutePathBuf :=
  (host.readToString dotGit).bind fun contents =>
    match Text.splitOnce [':'] (Text.trim contents) with
    | none => none
    | some (before, gitdirRaw) =>
      if Text.trim before ≠ "gitdir".toList ∨ Text.trim gitdirRaw = [] then none
      else
        dotGit.parent.bind fun base =>
          let gitdirPath := host.join base (Text.trim gitdirRaw).bytes
          if host.pathExists gitdirPath then some gitdirPath else none

def NoGitPointerFiles (host : LocalHost) : Prop := ∀ path, host.isGitPointerFile path = false

def slashTmp : AbsolutePathBuf := ⟨[Text.bytes "tmp".toList], by decide⟩

/-- `:slash_tmp` is left out while it is not a directory. -/
def resolveFileSystemSpecialPath (host : LocalHost) (value : FileSystemSpecialPath)
    (cwd : AbsolutePathBuf) : Option AbsolutePathBuf :=
  match value with
  | .root => none
  | .minimal => none
  | .unknown _ _ => none
  | .projectRoots (some subpath) => some (host.join cwd subpath.bytes)
  | .projectRoots none => some cwd
  | .tmpdir => host.tmpdir
  | .slashTmp => if host.isDir slashTmp then some slashTmp else none

def resolveFileSystemPath (host : LocalHost) (path : FileSystemPath) (cwd : AbsolutePathBuf) :
    Option AbsolutePathBuf :=
  match path with
  | .path path => path.toAbsPath host.encodeComponent
  | .globPattern _ => none
  | .special value => host.resolveFileSystemSpecialPath value cwd

def resolveEntryPath (host : LocalHost) (path : FileSystemPath) (cwd : AbsolutePathBuf) :
    Option AbsolutePathBuf :=
  match path with
  | .special .root => some AbsolutePathBuf.root
  | _ => host.resolveFileSystemPath path cwd

end LocalHost

structure ResolvedFileSystemEntry where
  path : AbsolutePathBuf
  access : FileSystemAccessMode
  deriving DecidableEq

def FileSystemSandboxPolicy.resolvedEntriesWithCwd (self : FileSystemSandboxPolicy)
    (host : LocalHost) (cwd : AbsolutePathBuf) : List ResolvedFileSystemEntry :=
  self.entries.filterMap fun entry =>
    (host.resolveEntryPath entry.path cwd).map fun path => ⟨path, entry.access⟩

end Codex.Permissions

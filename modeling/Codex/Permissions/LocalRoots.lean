import Codex.Permissions.LocalHost
import Mathlib.Data.Char
import Mathlib.Data.List.Lex

/-! The projection of a policy in `protocol/src/permissions.rs` to roots, `WritableRoot` of
`protocol/src/protocol.rs`, and the comparison of policies by these roots. Writable roots are the
ones of `get_writable_roots_with_cwd`, with effective paths and separate metadata mounts. -/

namespace Codex.Permissions
open Codex.Lib

structure WritableRoot where
  root : AbsolutePathBuf
  readOnlySubpaths : List AbsolutePathBuf
  protectedMetadataNames : List Text
  deriving DecidableEq

namespace WritableRoot

def pathContainsProtectedMetadataName (self : WritableRoot) (path : AbsolutePathBuf) : Bool :=
  path.startsWith self.root &&
    (path.components.drop self.root.components.length).head?.any fun firstComponent =>
      self.protectedMetadataNames.any fun name => firstComponent = name.bytes

def isPathWritable (self : WritableRoot) (path : AbsolutePathBuf) : Bool :=
  if !path.startsWith self.root then false
  else if self.readOnlySubpaths.any (path.startsWith ·) then false
  else if self.pathContainsProtectedMetadataName path then false
  else true

end WritableRoot

namespace LocalHost

def dedupAbsolutePaths (host : LocalHost) (paths : List AbsolutePathBuf)
    (normalizeEffectivePaths : Bool) : List AbsolutePathBuf :=
  (if normalizeEffectivePaths then paths.map host.normalizeEffectiveAbsolutePath
    else paths).eraseDups

def joinName (host : LocalHost) (root : AbsolutePathBuf) (name : String) : AbsolutePathBuf :=
  host.join root (Text.bytes name.toList)

def defaultReadOnlySubpathsForWritableRoot (host : LocalHost) (writableRoot : AbsolutePathBuf)
    (protectMissingDotCodex : Bool) : List AbsolutePathBuf :=
  let topLevelGit := host.joinName writableRoot ".git"
  let topLevelGitIsFile := host.isFile topLevelGit
  let git :=
    if host.isDir topLevelGit || topLevelGitIsFile then
      (if topLevelGitIsFile && host.isGitPointerFile topLevelGit then
        (host.resolveGitdirFromFile topLevelGit).toList else []) ++ [topLevelGit]
    else []
  let topLevelAgents := host.joinName writableRoot ".agents"
  let agents := if host.isDir topLevelAgents then [topLevelAgents] else []
  let topLevelCodex := host.joinName writableRoot ".codex"
  let codex := if protectMissingDotCodex || host.isDir topLevelCodex then [topLevelCodex] else []
  let topLevelAws := host.joinName writableRoot ".aws"
  let aws := if host.isDir topLevelAws then [topLevelAws] else []
  host.dedupAbsolutePaths (git ++ agents ++ codex ++ aws) false

def hasExplicitResolvedPathEntry (entries : List ResolvedFileSystemEntry) (path : AbsolutePathBuf) :
    Bool :=
  entries.any fun entry => entry.path = path

structure PreparedFileSystemEntry where
  entry : ResolvedFileSystemEntry
  effectivePath : AbsolutePathBuf

/-- The place of an entry below a root: as it is spelled, or as it is spelled below one of the
spellings of the root, or else its effective path. Below `/` only effective paths are used. -/
def carveout (host : LocalHost) (root : AbsolutePathBuf) (rawWritableRoots : List AbsolutePathBuf)
    (prepared : PreparedFileSystemEntry) : Option AbsolutePathBuf :=
  let path := prepared.entry.path
  let rawCarveoutPath :=
    if root.parent.isSome then
      if path = root then none
      else if path.startsWith root then some path
      else
        rawWritableRoots.findSome? fun rawRoot =>
          let suffix := path.components.drop rawRoot.components.length
          if path.startsWith rawRoot && !suffix.isEmpty then
            some (host.join root ([Percent.slash].intercalate suffix))
          else none
    else none
  match rawCarveoutPath with
  | some path => some path
  | none =>
    if prepared.effectivePath = root || !prepared.effectivePath.startsWith root then none
    else some prepared.effectivePath

end LocalHost

namespace FileSystemSandboxPolicy
open LocalHost

def hasDeniedReadRestrictions (self : FileSystemSandboxPolicy) : Bool :=
  self.kind = .restricted && self.entries.any fun entry => entry.access = .deny

def hasFullDiskReadAccess (self : FileSystemSandboxPolicy) : Bool :=
  self.kind ≠ .restricted ||
    (self.hasRootAccess FileSystemAccessMode.canRead && !self.hasDeniedReadRestrictions)

def includePlatformDefaults (self : FileSystemSandboxPolicy) : Bool :=
  !self.hasFullDiskReadAccess && self.kind = .restricted && self.entries.any fun entry =>
    entry.path = .special .minimal && entry.access.canRead

variable (self : FileSystemSandboxPolicy) (host : LocalHost) (cwd : AbsolutePathBuf)

def localAccess (path : AbsolutePathBuf) : FileSystemAccessMode :=
  self.resolveAccess (host.uri path) (host.context cwd)

def canWriteLocalPath (path : AbsolutePathBuf) : Bool :=
  self.canWritePath (host.uri path) (host.context cwd)

def getReadableRootsWithCwd : List AbsolutePathBuf :=
  if self.hasFullDiskReadAccess then []
  else
    host.dedupAbsolutePaths
      (((self.resolvedEntriesWithCwd host cwd).filter fun entry =>
        entry.access.canRead && (self.localAccess host cwd entry.path).canRead).map (·.path)) true

def getUnreadableRootsWithCwd : List AbsolutePathBuf :=
  if self.kind ≠ .restricted then []
  else
    host.dedupAbsolutePaths
      (((self.resolvedEntriesWithCwd host cwd).filter fun entry =>
        entry.access = .deny && !(self.localAccess host cwd entry.path).canRead &&
          entry.path ≠ AbsolutePathBuf.root).map (·.path)) true

def protectedMetadataNamesForWritableRoot (root : AbsolutePathBuf)
    (rawWritableRoots : List AbsolutePathBuf) : List Text :=
  protectedMetadataPathNames.filter fun name =>
    ((root :: rawWritableRoots).map (host.join · name.bytes)).all fun metadataPath =>
      !self.canWriteLocalPath host cwd metadataPath

def effectiveEntries : List ResolvedFileSystemEntry :=
  (self.resolvedEntriesWithCwd host cwd).filter fun entry =>
    entry.access.canWrite = self.canWriteLocalPath host cwd entry.path

def resolvedGitdirEntries : List ResolvedFileSystemEntry :=
  ((((self.effectiveEntries host cwd).filter (·.access.canWrite)).filterMap fun entry =>
    let dotGit := host.joinName (host.normalizeEffectiveAbsolutePath entry.path) ".git"
    if host.isGitPointerFile dotGit then host.resolveGitdirFromFile dotGit else none).filter
      fun path => !hasExplicitResolvedPathEntry (self.resolvedEntriesWithCwd host cwd) path).map
        fun path => ⟨path, .read⟩

def preparedEntries : List PreparedFileSystemEntry :=
  ((self.effectiveEntries host cwd).map fun entry =>
    ⟨entry, host.normalizeEffectiveAbsolutePath entry.path⟩) ++
  ((self.resolvedGitdirEntries host cwd).map fun entry =>
    ⟨entry, (host.canonicalize entry.path).getD
      (host.normalizeEffectiveAbsolutePath entry.path)⟩)

def rawWritableRoots (root : AbsolutePathBuf) : List AbsolutePathBuf :=
  ((self.preparedEntries host cwd).filter fun prepared =>
    prepared.entry.access.canWrite && prepared.effectivePath = root).map (·.entry.path)

def writableRootAt (root : AbsolutePathBuf) : WritableRoot :=
  let rawWritableRoots := self.rawWritableRoots host cwd root
  let protectMissingDotCodex : Bool := host.normalizeEffectiveAbsolutePath cwd = root
  let readOnlySubpaths :=
    (host.defaultReadOnlySubpathsForWritableRoot root protectMissingDotCodex).filter
      fun path => !hasExplicitResolvedPathEntry (self.resolvedEntriesWithCwd host cwd) path
  let carveouts := ((self.preparedEntries host cwd).filter fun prepared =>
    !prepared.entry.access.canWrite).filterMap (host.carveout root rawWritableRoots)
  { root
    readOnlySubpaths := host.dedupAbsolutePaths (readOnlySubpaths ++ carveouts) false
    protectedMetadataNames :=
      self.protectedMetadataNamesForWritableRoot host cwd root rawWritableRoots }

/-- The two early returns for policies without writable entries return what the rest would. -/
def getWritableRootsWithCwd : List WritableRoot :=
  if self.hasFullDiskWriteAccess then []
  else
    (host.dedupAbsolutePaths (((self.preparedEntries host cwd).filter
      (·.entry.access.canWrite)).map (·.effectivePath)) false).map (self.writableRootAt host cwd)

def dedupRuns {α : Type} [DecidableEq α] : List α → List α
  | [] => []
  | [a] => [a]
  | a :: b :: rest => if a = b then dedupRuns (b :: rest) else a :: dedupRuns (b :: rest)

def getUnreadableGlobsWithCwd : List Text :=
  if self.kind ≠ .restricted then []
  else
    dedupRuns (((self.entries.filterMap denyGlobPattern).map fun pattern =>
      Text.ofBytesLossy (host.join cwd pattern.bytes).bytes).mergeSort fun a b => a ≤ b)

end FileSystemSandboxPolicy

def sortedAbsolutePaths (paths : List AbsolutePathBuf) : List AbsolutePathBuf :=
  paths.mergeSort fun left right => left.components ≤ right.components

def sortedWritableRoots (roots : List WritableRoot) : List WritableRoot :=
  (roots.map fun root =>
    { root with
      readOnlySubpaths := sortedAbsolutePaths root.readOnlySubpaths
      protectedMetadataNames := FileSystemSandboxPolicy.dedupRuns
        (root.protectedMetadataNames.mergeSort fun a b => a ≤ b) }).mergeSort
    fun left right => left.root.components ≤ right.root.components

structure FileSystemSemanticSignature where
  hasFullDiskReadAccess : Bool
  hasFullDiskWriteAccess : Bool
  includePlatformDefaults : Bool
  readableRoots : List AbsolutePathBuf
  writableRoots : List WritableRoot
  unreadableRoots : List AbsolutePathBuf
  unreadableGlobs : List Text
  deriving DecidableEq

namespace FileSystemSandboxPolicy

def semanticSignature (self : FileSystemSandboxPolicy) (host : LocalHost) (cwd : AbsolutePathBuf) :
    FileSystemSemanticSignature where
  hasFullDiskReadAccess := self.hasFullDiskReadAccess
  hasFullDiskWriteAccess := self.hasFullDiskWriteAccess
  includePlatformDefaults := self.includePlatformDefaults
  readableRoots := sortedAbsolutePaths (self.getReadableRootsWithCwd host cwd)
  writableRoots := sortedWritableRoots (self.getWritableRootsWithCwd host cwd)
  unreadableRoots := sortedAbsolutePaths (self.getUnreadableRootsWithCwd host cwd)
  unreadableGlobs := self.getUnreadableGlobsWithCwd host cwd

def isSemanticallyEquivalentTo (self other : FileSystemSandboxPolicy) (host : LocalHost)
    (cwd : AbsolutePathBuf) : Bool :=
  self.semanticSignature host cwd = other.semanticSignature host cwd

end FileSystemSandboxPolicy

end Codex.Permissions

import Codex.Permissions.Policy

/-! `intersect_permission_profiles_with_context` of `sandboxing/src/policy_transforms.rs`, in POSIX
contexts. -/

namespace Codex.Sandboxing
open Codex.Lib Codex.Permissions

structure FileSystemPermissions where
  entries : List FileSystemSandboxEntry
  globScanMaxDepth : Option Nat
  deriving DecidableEq

/-- `network` is an optional `NetworkPermissions`, whose one field is `enabled: Option<bool>`. -/
structure AdditionalPermissionProfile where
  network : Option (Option Bool)
  fileSystem : Option FileSystemPermissions
  deriving DecidableEq

def AdditionalPermissionProfile.entries (profile : AdditionalPermissionProfile) :
    List FileSystemSandboxEntry :=
  (profile.fileSystem.map FileSystemPermissions.entries).getD []

def resolvePermissionPath (context : Context) : FileSystemPath → Option PathUri
  | .path path => some path
  | .globPattern _ => none
  | .special .root => fileSystemRoot context
  | .special (.projectRoots subpath) =>
    context.workspaceRoots.head?.bind fun root => joinSubpath context root subpath
  | .special .tmpdir => context.temporaryDirectories.bind List.head?
  | .special .slashTmp => context.join context.cwd "/tmp".toList
  | .special .minimal => none
  | .special (.unknown _ _) => none

/-- The glob branch of `materialize_cwd_dependent_entry`; `~` alone is the home directory too. -/
def materializeGlob (context : Context) (pattern : Text) : Option Text :=
  let homeRelative :=
    (homeRelativePattern pattern).orElse fun _ => if pattern = ['~'] then some [] else none
  match homeRelative with
  | some suffix =>
    context.userHomeDir.bind fun home =>
      (context.join home suffix).map PathUri.inferredNativePathString
  | none => (context.join context.cwd pattern).map PathUri.inferredNativePathString

def materializeCwdDependentEntry (context : Context) (entry : FileSystemSandboxEntry) :
    Option FileSystemSandboxEntry :=
  match entry.path with
  | .globPattern pattern =>
    (materializeGlob context pattern).map fun pattern =>
      { entry with path := .globPattern pattern }
  | _ => some entry

def materializedPathEntry (entry : FileSystemSandboxEntry) (path : PathUri) :
    FileSystemSandboxEntry :=
  { entry with path := .path path }

/-- One round of `materialize_context_dependent_entries`: what an entry becomes. A deny entry
that does not resolve fails the whole. -/
def materializeEntry (context : Context) (entry : FileSystemSandboxEntry) :
    Option (List FileSystemSandboxEntry) :=
  match entry.path with
  | .special (.projectRoots subpath) =>
    let joined := context.workspaceRoots.map fun root => joinSubpath context root subpath
    if entry.access = .deny ∧ (joined.any Option.isNone ∨ joined = []) then none
    else some ((joined.filterMap id).map (materializedPathEntry entry))
  | .special .tmpdir =>
    match context.temporaryDirectories with
    | none => if entry.access = .deny then none else some [entry]
    | some directories => some (directories.map (materializedPathEntry entry))
  | .special .root => (fileSystemRoot context).map fun _ => [entry]
  | _ =>
    match materializeCwdDependentEntry context entry with
    | none => if entry.access = .deny then none else some []
    | some entry => some [entry]

def materializeContextDependentEntries (context : Context) :
    List FileSystemSandboxEntry → Option (List FileSystemSandboxEntry)
  | [] => some []
  | entry :: rest =>
    (materializeEntry context entry).bind fun materialized =>
      (materializeContextDependentEntries context rest).map (materialized ++ ·)

def accessCovers (requested granted : FileSystemAccessMode) : Bool :=
  match granted with
  | .read => requested.canRead
  | .write => requested.canWrite
  | .deny => false

def isRootEntry (entry : FileSystemSandboxEntry) : Bool := entry.path = .special .root

/-- The two branches for Windows contexts are never taken in a POSIX one. -/
def grantedFileSystemEntryWithinRequest (requested : FileSystemPermissions)
    (requestedPolicy : FileSystemSandboxPolicy)
    (requestedReadDenyMatcher : Option FileSystemSandboxPolicy.PreparedReadDenyMatcher)
    (grantedEntry : FileSystemSandboxEntry) (context : Context) : Bool :=
  if grantedEntry.access.canRead = false then false
  else
    match resolvePermissionPath context grantedEntry.path with
    | some path =>
      if FileSystemSandboxPolicy.isPosix path = false ∨
          requestedReadDenyMatcher.any
            (FileSystemSandboxPolicy.matchesPreparedReadDeny path context) then false
      else accessCovers (requestedPolicy.resolveAccess path context) grantedEntry.access
    | none =>
      requested.entries.any fun requestedEntry =>
        accessCovers requestedEntry.access grantedEntry.access &&
          requestedEntry.path.eq grantedEntry.path

def globStaticPrefixPath (context : Context) (pattern : Text) : Option PathUri :=
  let isWildcard := fun c : Char => c = '*' || c = '?' || c = '[' || c = ']'
  let static := pattern.takeWhile fun c => !isWildcard c
  if static = pattern then context.join context.cwd pattern
  else if static = [] then none
  else
    (context.join context.cwd static).bind fun path =>
      if static.getLast? = some '/' then some path else path.parent

def pathsOverlap (left right : PathUri) : Bool := (left.overlaps right).getD true

def denyEntryConstrains (context : Context) (denyEntry entry : FileSystemSandboxEntry) : Bool :=
  if isRootEntry entry then true
  else
    match resolvePermissionPath context entry.path with
    | none => true
    | some grantPath =>
      match denyEntry.path with
      | .globPattern pattern =>
        (globStaticPrefixPath context pattern).all fun pre => pathsOverlap pre grantPath
      | path =>
        (resolvePermissionPath context path).all fun denyPath => pathsOverlap denyPath grantPath

def denyEntryConstrainsAcceptedGrant (context : Context) (denyEntry : FileSystemSandboxEntry)
    (acceptedEntries : List FileSystemSandboxEntry) : Bool :=
  (acceptedEntries.filter fun entry => entry.access.canRead).any
    (denyEntryConstrains context denyEntry)

/-- The deny entries of the source that constrain an accepted grant: the returned vector of
`retain_constraining_deny_entries`. -/
def retainedDenyEntries (context : Context) (source accepted : List FileSystemSandboxEntry) :
    List FileSystemSandboxEntry :=
  source.filter fun entry =>
    entry.access = .deny && denyEntryConstrainsAcceptedGrant context entry accepted

/-- What `retain_constraining_deny_entries` leaves in its output vector. -/
def retainConstrainingDenyEntries (context : Context)
    (source accepted output : List FileSystemSandboxEntry) : List FileSystemSandboxEntry :=
  (retainedDenyEntries context source accepted).foldl pushNew output

inductive GlobScanDepth where
  | bounded (depth : Nat)
  | unbounded
  deriving DecidableEq, Repr

def isDenyGlob (entry : FileSystemSandboxEntry) : Bool :=
  entry.access = .deny && match entry.path with | .globPattern _ => true | _ => false

def effectiveGlobScanDepth (entries : List FileSystemSandboxEntry) (depth : Option Nat) :
    Option GlobScanDepth :=
  if entries.any isDenyGlob then
    some (match depth with | some depth => .bounded depth | none => .unbounded)
  else none

def mergeGlobScanMaxDepth (leftEntries : List FileSystemSandboxEntry) (leftDepth : Option Nat)
    (rightEntries : List FileSystemSandboxEntry) (rightDepth : Option Nat) : Option Nat :=
  match effectiveGlobScanDepth leftEntries leftDepth,
    effectiveGlobScanDepth rightEntries rightDepth with
  | some .unbounded, _ => none
  | _, some .unbounded => none
  | some (.bounded left), some (.bounded right) => some (max left right)
  | some (.bounded depth), none => some depth
  | none, some (.bounded depth) => some depth
  | none, none => none

def acceptedEntries (context : Context) (requested : FileSystemPermissions)
    (requestedEntries grantedEntries : List FileSystemSandboxEntry) :
    List FileSystemSandboxEntry :=
  let requestedPolicy := FileSystemSandboxPolicy.restricted requestedEntries
  let matcher := requestedPolicy.readDenyMatcher context
  (grantedEntries.filter fun entry =>
    grantedFileSystemEntryWithinRequest requested requestedPolicy matcher entry context).foldl
      pushNew []

def intersectFileSystem (context : Context) (requested granted : FileSystemPermissions) :
    Option FileSystemPermissions :=
  (materializeContextDependentEntries context requested.entries).bind fun requestedEntries =>
    (materializeContextDependentEntries context granted.entries).map fun grantedEntries =>
      let accepted := acceptedEntries context requested requestedEntries grantedEntries
      let entries := retainConstrainingDenyEntries context grantedEntries accepted
        (retainConstrainingDenyEntries context requestedEntries accepted accepted)
      { entries
        globScanMaxDepth :=
          mergeGlobScanMaxDepth (retainedDenyEntries context requestedEntries accepted)
            requested.globScanMaxDepth (retainedDenyEntries context grantedEntries accepted)
            granted.globScanMaxDepth }

def intersectNetwork (requested granted : Option (Option Bool)) : Option (Option Bool) :=
  if requested = some (some true) ∧ granted = some (some true) then some (some true) else none

def intersectPermissionProfilesWithContext (requested granted : AdditionalPermissionProfile)
    (context : Context) : AdditionalPermissionProfile where
  network := intersectNetwork requested.network granted.network
  fileSystem :=
    (requested.fileSystem.bind fun requestedFileSystem =>
      intersectFileSystem context requestedFileSystem (granted.fileSystem.getD ⟨[], none⟩)).filter
        fun fileSystem => !fileSystem.entries.isEmpty

end Codex.Sandboxing

import Codex.Permissions.Policy

/-! `relative_subpath` of `core/src/config/permission_path.rs` and
`materialize_project_roots_with_path_uris` of `protocol/src/permissions.rs`, with the POSIX
convention. -/

namespace Codex.Permissions
open Codex.Lib

/-- Interior `.` components and repeated separators pass. -/
def relativeSubpath (subpath : Text) : Except Text Text :=
  let components := subpath.splitOn '/'
  let first := components.head?
  if subpath ≠ [] ∧ first ≠ some [] ∧ first ≠ some ['.'] ∧ first ≠ some ['.', '.'] ∧
      ['.', '.'] ∉ components.tail then .ok subpath
  else .error ("filesystem subpath `".toList ++ subpath ++
    "` must be a descendant path without `.` or `..` components".toList)

def homeRelativeSuffix : Text → Option Text
  | '~' :: suffix => if suffix = [] ∨ suffix.head? = some '/' then some suffix else none
  | _ => none

def resolveScopedWorkspacePath (encode : PathUri.SegmentEncoding) (root : PosixUri)
    (subpath : Text) : Option PathUri :=
  if subpath.head? = some '/' ∨
      (subpath.splitOn '/').any (fun segment => segment = ['.'] || segment = ['.', '.']) then none
  else (root.join encode subpath).filter (·.startsWith root.uri)

def projectRootsGlobPatternPrefix : Text := "codex-project-roots://".toList

def workspaceSubpath : FileSystemPath → Option (Option Text × Bool)
  | .special (.projectRoots subpath) => some (subpath, false)
  | .globPattern pattern =>
    (pattern.dropPrefix? projectRootsGlobPatternPrefix).map fun subpath =>
      (some subpath, true)
  | _ => none

namespace FileSystemSandboxPolicy

/-- The entry for one root. A rule that cannot be resolved denies the root, unless it would only
permit more. -/
def materializeForRoot (crates : Crates) (entry : FileSystemSandboxEntry) (subpath : Option Text)
    (isGlob : Bool) (root : PosixUri) : Option FileSystemSandboxEntry :=
  let path :=
    if isGlob && !validateGlobDirectory root then none
    else match subpath with
      | none => some root.uri
      | some subpath => resolveScopedWorkspacePath crates.encode root subpath
  match path with
  | some path =>
    if isGlob then some { entry with path := .globPattern path.inferredNativePathString }
    else some { entry with path := .path path }
  | none =>
    if entry.access.canWrite then none
    else some ⟨.path root.uri, .deny, entry.skipMissing⟩

/-- The entries in the place of one; `none` stands for a deny below the home directory. -/
def materializeProjectRootsEntry (crates : Crates) (workspaceRoots : List PosixUri)
    (entry : FileSystemSandboxEntry) : Option (List FileSystemSandboxEntry) :=
  match workspaceSubpath entry.path with
  | none => some [entry]
  | some (subpath, isGlob) =>
    if entry.access = .deny ∧ subpath.any (fun s => (homeRelativeSuffix s).isSome) ∧
        workspaceRoots ≠ [] then none
    else some (workspaceRoots.filterMap (materializeForRoot crates entry subpath isGlob))

def tryMaterializeProjectRoots (self : FileSystemSandboxPolicy) (crates : Crates)
    (workspaceRoots : List PosixUri) : Option FileSystemSandboxPolicy :=
  (self.entries.mapM (materializeProjectRootsEntry crates workspaceRoots)).map fun entries =>
    { self with entries := entries.flatten }

def materializeProjectRoots (self : FileSystemSandboxPolicy) (crates : Crates)
    (workspaceRoots : List PosixUri) : FileSystemSandboxPolicy :=
  (self.tryMaterializeProjectRoots crates workspaceRoots).getD (restricted [])

end FileSystemSandboxPolicy

end Codex.Permissions

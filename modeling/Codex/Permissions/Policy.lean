import Codex.Lib.MaxByKey
import Codex.PathUri.Join

/-! The entries of `protocol/src/permissions.rs` and how they are resolved. Contexts are POSIX: the
convention of their paths is a field of `PosixUri`. -/

namespace Codex.Permissions
open Codex.Lib

/-- The order of the variants is their precedence in a conflict. -/
inductive FileSystemAccessMode where
  | read
  | write
  | deny
  deriving DecidableEq, Repr

namespace FileSystemAccessMode

def precedence : FileSystemAccessMode → Nat
  | read => 0
  | write => 1
  | deny => 2

def level : FileSystemAccessMode → Nat
  | deny => 0
  | read => 1
  | write => 2

def canRead (self : FileSystemAccessMode) : Bool := self ≠ deny

def canWrite (self : FileSystemAccessMode) : Bool := self = write

end FileSystemAccessMode

inductive FileSystemSpecialPath where
  | root
  | minimal
  | projectRoots (subpath : Option Text)
  | tmpdir
  | slashTmp
  | unknown (path : Text) (subpath : Option Text)
  deriving DecidableEq, Repr

inductive FileSystemPath where
  | path (path : PathUri)
  | globPattern (pattern : Text)
  | special (value : FileSystemSpecialPath)
  deriving DecidableEq, Repr

def FileSystemPath.eq : FileSystemPath → FileSystemPath → Bool
  | path p, path q => p.eq q
  | globPattern p, globPattern q => p = q
  | special p, special q => p = q
  | _, _ => false

/-- `skipMissing` is `missing_path_behavior == Some(Skip)`. -/
structure FileSystemSandboxEntry where
  path : FileSystemPath
  access : FileSystemAccessMode
  skipMissing : Bool
  deriving DecidableEq, Repr

def FileSystemSandboxEntry.eq (self other : FileSystemSandboxEntry) : Bool :=
  self.path.eq other.path && self.access = other.access && self.skipMissing = other.skipMissing

def pushNew (output : List FileSystemSandboxEntry) (entry : FileSystemSandboxEntry) :
    List FileSystemSandboxEntry :=
  if output.any (·.eq entry) then output else output ++ [entry]

inductive FileSystemSandboxKind where
  | restricted
  | unrestricted
  | externalSandbox
  deriving DecidableEq, Repr

structure FileSystemSandboxPolicy where
  kind : FileSystemSandboxKind
  globScanMaxDepth : Option Nat
  entries : List FileSystemSandboxEntry

def FileSystemSandboxPolicy.restricted (entries : List FileSystemSandboxEntry) :
    FileSystemSandboxPolicy :=
  ⟨.restricted, none, entries⟩

def NoGlobs (entries : List FileSystemSandboxEntry) : Prop :=
  ∀ entry ∈ entries, ∀ pattern, entry.path ≠ .globPattern pattern

/-- What is used of other crates: how `url` encodes a pushed segment, and the matcher that
`globset` builds from a pattern with the options of `build_glob_matcher` for POSIX paths
(permissions.rs:2240); `none` is a pattern that it rejects. -/
structure Crates where
  encode : PathUri.SegmentEncoding
  buildGlobMatcher : Text → Option (Bytes → Bool)

structure Context where
  crates : Crates
  cwd : PosixUri
  workspaceRoots : List PosixUri
  userHomeDir : Option PosixUri
  temporaryDirectories : Option (List PathUri)

def Context.join (context : Context) (base : PosixUri) (path : Text) : Option PathUri :=
  base.join context.crates.encode path

def fileSystemRoot (context : Context) : Option PathUri :=
  if context.cwd.uri.lexicalDepth.isNone then none else some context.cwd.uri.root

def joinSubpath (context : Context) (root : PosixUri) (subpath : Option Text) : Option PathUri :=
  match subpath with
  | some subpath => context.join root subpath
  | none => some root.uri

namespace FileSystemSandboxPolicy

def entryPaths (context : Context) : FileSystemPath → List PathUri
  | .path path => [path]
  | .globPattern _ => []
  | .special .root => (fileSystemRoot context).toList
  | .special (.projectRoots subpath) =>
    context.workspaceRoots.filterMap fun root => joinSubpath context root subpath
  | .special .tmpdir => context.temporaryDirectories.getD []
  | .special .slashTmp => (context.join context.cwd "/tmp".toList).toList
  | .special .minimal => []
  | .special (.unknown _ _) => []

def isPosix (path : PathUri) : Bool := path.inferPathConvention = some .posix

def resolvedEntries (self : FileSystemSandboxPolicy) (context : Context) :
    List (PathUri × FileSystemAccessMode) :=
  self.entries.flatMap fun entry =>
    ((entryPaths context entry.path).filter isPosix).map fun path => (path, entry.access)

/-- The `try_fold` of `resolve_access` (permissions.rs:1029): entries with their depth, without
the opaque ones; an entry whose components are ambiguous fails the whole. -/
def lexicalEntries : List (PathUri × FileSystemAccessMode) →
    Option (List (PathUri × FileSystemAccessMode × Nat))
  | [] => some []
  | (root, access) :: rest =>
    match root.lexicalDepth with
    | some depth => (lexicalEntries rest).map ((root, access, depth) :: ·)
    | none => if root.isOpaque then lexicalEntries rest else none

def entryKey (entry : PathUri × FileSystemAccessMode × Nat) : Nat ×ₗ Nat :=
  toLex (entry.2.2, entry.2.1.precedence)

def resolveAccess (self : FileSystemSandboxPolicy) (path : PathUri) (context : Context) :
    FileSystemAccessMode :=
  if self.kind ≠ .restricted then .write
  else if isPosix path = false ∨ path.lexicalDepth.isNone ∨ context.cwd.uri.lexicalDepth.isNone
  then .deny
  else
    match lexicalEntries (self.resolvedEntries context) with
    | none => .deny
    | some entries =>
      ((MaxByKey.maxByKey entryKey (entries.filter fun e => path.startsWith e.1)).map
        fun e => e.2.1).getD .deny

end FileSystemSandboxPolicy

def containsGlobMetacharacter (path : Text) : Bool :=
  path.any fun c => c = '*' || c = '?' || c = '[' || c = ']' || c = '\x7b' || c = '\x7d'

def validateGlobDirectory (root : PosixUri) : Bool :=
  match root.uri with
  | .fallback _ => false
  | .file _ segments =>
    let bytes := PathUri.decodedPathBytes segments
    let path := PathUri.renderPosixPath segments
    root.uri.lexicalDepth.isSome && !bytes.contains 0 && (Text.ofBytes? bytes).isSome &&
      !path.contains '\x00' && !containsGlobMetacharacter path && !path.contains '\\'

/-- A pattern that starts with `~/`, without that and the separators after it. -/
def homeRelativePattern (pattern : Text) : Option Text :=
  (pattern.dropPrefix? "~/".toList).map fun suffix => suffix.dropWhile (· = '/')

namespace FileSystemSandboxPolicy

def denyReadGlob (context : Context) (pattern : Text) : Option Text :=
  match homeRelativePattern pattern, context.userHomeDir with
  | some _, none => none
  | some suffix, some home => resolveGlob home suffix
  | none, _ => resolveGlob context.cwd pattern
where
  resolveGlob (root : PosixUri) (pattern : Text) : Option Text :=
    if PathUri.fromAbsoluteNativePath context.crates.encode pattern = none ∧
        validateGlobDirectory root = false then none
    else (context.join root pattern).map PathUri.inferredNativePathString

def denyGlobPattern (entry : FileSystemSandboxEntry) : Option Text :=
  match entry.path with
  | .globPattern pattern => if entry.access = .deny then some pattern else none
  | _ => none

/-- The deny globs of a policy as native patterns; an error in one is an error of the whole. -/
def denyReadGlobs (self : FileSystemSandboxPolicy) (context : Context) : Option (List Text) :=
  (self.entries.filterMap denyGlobPattern).mapM (denyReadGlob context)

structure PreparedReadDenyMatcher where
  deniedRoots : List PathUri
  denyReadMatchers : List (Bytes → Bool)
  invalidPattern : Bool

def isFileSystemRoot (context : Context) (root : PathUri) : Bool :=
  (fileSystemRoot context).any fun r => root.startsWith r && r.startsWith root

def deniedRoots (self : FileSystemSandboxPolicy) (context : Context) : List PathUri :=
  ((self.resolvedEntries context).filter fun e =>
    e.2 = .deny && !isFileSystemRoot context e.1).map Prod.fst

/-- `prepare_deny_read_matcher` with `FailClosed`: an invalid pattern is noted and denies all. -/
def prepareDenyReadMatcher (self : FileSystemSandboxPolicy) (context : Context) :
    PreparedReadDenyMatcher :=
  match self.denyReadGlobs context with
  | none => ⟨self.deniedRoots context, [], true⟩
  | some patterns =>
    let built := patterns.map context.crates.buildGlobMatcher
    ⟨self.deniedRoots context, built.filterMap id, built.any Option.isNone⟩

def readDenyMatcher (self : FileSystemSandboxPolicy) (context : Context) :
    Option PreparedReadDenyMatcher :=
  if self.entries.any fun entry => entry.access = .deny then
    some (self.prepareDenyReadMatcher context)
  else none

/-- Only ordinary URIs come this far: a fallback URI has no lexical depth. -/
def matchesAnyGlob (matchers : List (Bytes → Bool)) : PathUri → Bool
  | .fallback _ => false
  | .file _ segments => matchers.any fun matcher => matcher (PathUri.decodedPathBytes segments)

def matchesPreparedReadDeny (path : PathUri) (context : Context)
    (prepared : PreparedReadDenyMatcher) : Bool :=
  if isPosix path = false ∨ path.lexicalDepth.isNone ∨ context.cwd.uri.lexicalDepth.isNone then
    true
  else if prepared.invalidPattern then true
  else
    prepared.deniedRoots.any (path.startsWith ·) || matchesAnyGlob prepared.denyReadMatchers path

end FileSystemSandboxPolicy

def literalCrates : Crates where
  encode _ text := text.bytes
  buildGlobMatcher pattern := some fun bytes => bytes = pattern.bytes

def rootContext : Context := ⟨literalCrates, ⟨.file none [[]], rfl⟩, [], none, none⟩

def localFile (segments : List String) : PathUri :=
  .file none (segments.map fun segment => Text.bytes segment.toList)

def pathEntry (segments : List String) (access : FileSystemAccessMode) : FileSystemSandboxEntry :=
  ⟨.path (localFile segments), access, false⟩

end Codex.Permissions

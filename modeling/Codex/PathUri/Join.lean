import Codex.PathUri.Basic

/-! `parent`, `ancestors`, `join` and `inferred_native_path_string` of `utils/path-uri`. The
percent-encoding that the `url` crate applies to a pushed segment is a parameter. -/

namespace Codex
open Codex.Lib Codex.Lib.Percent

namespace PathUri

def rootSegments : List Bytes := [[]]

def popSegments (segments : List Bytes) : List Bytes :=
  if segments.length ≤ 1 then rootSegments else segments.dropLast

def popIfEmpty (segments : List Bytes) : List Bytes :=
  if 2 ≤ segments.length ∧ segments.getLast? = some [] then segments.dropLast else segments

def pushEncoded (segments : List Bytes) (encoded : Bytes) : List Bytes :=
  if segments = rootSegments then [encoded] else segments ++ [encoded]

abbrev SegmentEncoding := List Bytes → Text → Bytes

def pushSegment (encode : SegmentEncoding) (segments : List Bytes) (segment : Text) : List Bytes :=
  pushEncoded segments (encode segments segment)

def nonemptyCount (segments : List Bytes) : Nat := (segments.filter fun s => !s.isEmpty).length

def parent (self : PathUri) : Option PathUri :=
  match self with
  | fallback _ => none
  | file host segments =>
    self.inferPathConvention.bind fun convention =>
      let anchorDepth := if convention = .windows then 1 else 0
      if nonemptyCount segments ≤ anchorDepth then none
      else some (file host (popSegments (popIfEmpty segments)))

def lastAncestor : Nat → PathUri → PathUri
  | 0, self => self
  | fuel + 1, self =>
    match self.parent with
    | none => self
    | some parent => lastAncestor fuel parent

/-- Each parent has fewer segments, so their number is fuel enough. -/
def root (self : PathUri) : PathUri :=
  match self with
  | fallback payload => fallback payload
  | file host segments => lastAncestor segments.length (file host segments)

def normalizeDriveLetter : List Bytes → List Bytes
  | [] => []
  | segment :: rest =>
    if segment.isEmpty then segment :: normalizeDriveLetter rest
    else if isWindowsDriveUriSegment segment then
      (segment.modifyHead fun b => if 97 ≤ b && b ≤ 122 then b - 32 else b) :: rest
    else segment :: rest

/-- One round of the loop of `path_uri_from_segments` for a POSIX path: the normalized segments
and whether the path so far ends with a separator. -/
def normalizeStep (state : List Text × Bool) (segment : Text) : List Text × Bool :=
  if segment = [] then (state.1, true)
  else if segment = ['.'] then (state.1, false)
  else if segment = ['.', '.'] then (state.1.dropLast, false)
  else (state.1 ++ [segment], false)

def pathUriFromSegments (encode : SegmentEncoding) (segments : List Text) : PathUri :=
  let (normalized, hasTrailingSeparator) := segments.foldl normalizeStep ([], false)
  let pushed := normalized.foldl (pushSegment encode) rootSegments
  file none (normalizeDriveLetter (if hasTrailingSeparator then pushEncoded pushed [] else pushed))

/-- `from_absolute_native_path` with the POSIX convention: `none` for relative paths, a fallback
URI when the URL would be read as a Windows path. -/
def fromAbsoluteNativePath (encode : SegmentEncoding) (path : Text) : Option PathUri :=
  match path with
  | '/' :: rest =>
    if '\x00' ∈ rest then some (fallback path.bytes)
    else
      let uri := pathUriFromSegments encode (rest.splitOn '/')
      some (if uri.inferPathConvention = some .posix then uri else fallback path.bytes)
  | _ => none

/-- One round of the loop of `join` for a POSIX base (lib.rs:516): the URL's segments and the
number of non-empty ones. -/
def joinStep (encode : SegmentEncoding) (state : List Bytes × Nat) (component : Text) :
    List Bytes × Nat :=
  if component = [] ∨ component = ['.'] then state
  else if component = ['.', '.'] then
    if 0 < state.2 then (popSegments state.1, state.2 - 1) else state
  else (pushSegment encode state.1 component, state.2 + 1)

end PathUri

structure PosixUri where
  uri : PathUri
  posix : uri.inferPathConvention = some .posix
  deriving DecidableEq, Repr

namespace PosixUri
open PathUri

def join (encode : SegmentEncoding) (self : PosixUri) (path : Text) : Option PathUri :=
  if '\x00' ∈ path then none
  else if path = [] then some self.uri
  else
    match fromAbsoluteNativePath encode path, self.uri with
    | some absolute, _ => some absolute
    | none, fallback _ => none
    | none, file host segments =>
      let joined := (path.splitOn '/').foldl (joinStep encode)
        (popIfEmpty segments, nonemptyCount segments)
      some (file host (normalizeDriveLetter joined.1))

end PosixUri

namespace PathUri

def toUrlText (host : Option Text) (segments : List Bytes) : Text :=
  "file://".toList ++ host.getD [] ++ Text.ofBytesLossy (encodedPath segments)

def decodeNativeSegment (segment : Bytes) : Text := Text.ofBytesLossy (decode segment)

def renderPosixPath (segments : List Bytes) : Text :=
  segments.flatMap fun s => '/' :: decodeNativeSegment s

def renderWindowsDrivePath : List Bytes → Option Text
  | [] => none
  | drive :: rest =>
    match decodeNativeSegment drive with
    | [d, ':'] =>
      if d.isAlpha then
        some (if rest.isEmpty then [d, ':', '\\']
          else d :: ':' :: rest.flatMap fun s => '\\' :: decodeNativeSegment s)
      else none
    | _ => none

/-- `inferred_native_path_string` of the URIs that joins to a POSIX base produce: these have no
host, and their fallback payloads are POSIX paths. -/
def inferredNativePathString (self : PathUri) : Text :=
  match self with
  | fallback payload => Text.ofBytesLossy payload
  | file host segments =>
    match self.inferPathConvention with
    | some .windows => (renderWindowsDrivePath segments).getD (toUrlText host segments)
    | _ => renderPosixPath segments

end PathUri

end Codex

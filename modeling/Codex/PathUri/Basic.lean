import Codex.Lib.Percent

/-! The lexical part of `utils/path-uri/src/lib.rs`. The fallback URLs
`file:///%00/bad/path/<base64>` correspond one to one to non-empty byte strings, and no other URL
has an encoded null; so a URI is either a fallback with its payload or a host with the
percent-encoded segments of the path. -/

namespace Codex
open Codex.Lib Codex.Lib.Percent

inductive PathConvention where
  | posix
  | windows
  deriving DecidableEq, Repr

/-- `segments` is `url.path_segments()`: the path after its leading slash, split at slashes. -/
inductive PathUri where
  | fallback (payload : Bytes)
  | file (host : Option Text) (segments : List Bytes)
  deriving DecidableEq, Repr

def isAsciiAlphabetic (b : UInt8) : Bool := (65 ≤ b && b ≤ 90) || (97 ≤ b && b ≤ 122)

def toAsciiLowercase (b : UInt8) : UInt8 := if 65 ≤ b && b ≤ 90 then b + 32 else b

def eqIgnoreAsciiCase (a b : Bytes) : Bool := a.map toAsciiLowercase = b.map toAsciiLowercase

def isWindowsDriveUriSegment : Bytes → Bool
  | [drive, c] => isAsciiAlphabetic drive && c = 58
  | [drive, p, t, a] => isAsciiAlphabetic drive && p = 37 && t = 51 && (a = 65 || a = 97)
  | _ => false

def codeUnit (low high : UInt8) : Nat := low.toNat + 256 * high.toNat

def inferOpaquePathConvention (pathBytes : Bytes) : Option PathConvention :=
  if pathBytes.take 1 = [slash] ∧ pathBytes.take 2 ≠ [slash, 0] then some .posix
  else if pathBytes.length % 2 ≠ 0 then none
  else
    match pathBytes with
    | l0 :: h0 :: l1 :: h1 :: _ =>
      let first := codeUnit l0 h0
      let second := codeUnit l1 h1
      let isSeparator := fun c : Nat => c = 92 || c = 47
      if (h0 = 0 && isAsciiAlphabetic l0 && second = 58) ||
          (isSeparator first && isSeparator second) then some .windows
      else none
    | _ => none

namespace PathUri

def isOpaque : PathUri → Bool
  | fallback _ => true
  | file _ _ => false

def inferPathConvention : PathUri → Option PathConvention
  | fallback payload => inferOpaquePathConvention payload
  | file host segments =>
    if host.isSome then some .windows
    else if (segments.find? fun s => !s.isEmpty).any isWindowsDriveUriSegment then some .windows
    else some .posix

def encodedPath (segments : List Bytes) : Bytes := segments.flatMap fun s => slash :: s

def decodedPathBytes (segments : List Bytes) : Bytes := decode (encodedPath segments)

def hasNativeSeparator (convention : PathConvention) (segment : Bytes) : Bool :=
  (decode segment).any fun byte => byte = slash || (convention = .windows && byte = backslash)

/-- The non-empty segments, unless one holds an encoded native separator. -/
def containmentPathSegments (segments : List Bytes) (convention : PathConvention) :
    Option (List Bytes) :=
  let segments := segments.filter fun s => !s.isEmpty
  if segments.any (hasNativeSeparator convention) then none else some segments

def lexicalDepth (self : PathUri) : Option Nat :=
  match self with
  | fallback _ => none
  | file _ segments =>
    self.inferPathConvention.bind fun convention =>
      (containmentPathSegments segments convention).map List.length

def windowsIdentity (self : PathUri) : Option (Option Text × Bytes) :=
  match self with
  | fallback _ => none
  | file host segments =>
    if self.inferPathConvention = some .windows ∧
        segments.any (hasNativeSeparator .windows) = false then
      some (host, decodedPathBytes segments)
    else none

/-- `PartialEq`: URL equality, or equality of the Windows identities up to ASCII case. -/
def eq (self other : PathUri) : Bool :=
  self = other ||
    match self.windowsIdentity, other.windowsIdentity with
    | some (host, path), some (otherHost, otherPath) =>
      host = otherHost && eqIgnoreAsciiCase path otherPath
    | _, _ => false

/-- `decode_uri_path`: the decoded text when it is valid UTF-8, else the encoded spelling. -/
def decodeUriPath (segment : Bytes) : Bytes :=
  if (Text.ofBytes? (decode segment)).isSome then decode segment else segment

def nativeSegmentEq (convention : PathConvention) (path base : Bytes) : Bool :=
  match convention with
  | .posix => decode path = decode base
  | .windows =>
    eqIgnoreAsciiCase path base || eqIgnoreAsciiCase (decodeUriPath path) (decodeUriPath base)

def nativePathSegmentsStartWith (pathSegments baseSegments : List Bytes)
    (convention : PathConvention) : Bool :=
  baseSegments.length ≤ pathSegments.length &&
    (pathSegments.zip baseSegments).all fun p => nativeSegmentEq convention p.1 p.2

def startsWith (self base : PathUri) : Bool :=
  if self.eq base then true
  else
    match self, base with
    | file host segments, file baseHost baseSegments =>
      if host ≠ baseHost ∨ self.inferPathConvention ≠ base.inferPathConvention then false
      else
        let convention := self.inferPathConvention.getD .posix
        match containmentPathSegments segments convention,
          containmentPathSegments baseSegments convention with
        | some path, some base => nativePathSegmentsStartWith path base convention
        | _, _ => false
    | _, _ => false

def overlaps (self other : PathUri) : Option Bool :=
  if self.eq other then some true
  else if self.lexicalDepth.isNone || other.lexicalDepth.isNone then none
  else some (self.startsWith other || other.startsWith self)

end PathUri

end Codex

import Codex.NetworkProxy.AuthorizationPath

/-! `matches_host` and `matches_request` of `network-proxy/src/credential_broker/destination.rs`. -/

namespace Codex.NetworkProxy
open Codex.Lib Codex.Lib.Percent Codex.NetworkProxy.AuthorizationPath List

inductive CredentialDestinationScheme where
  | http
  | https
  deriving DecidableEq, Repr

def CredentialDestinationScheme.asStr : CredentialDestinationScheme → Text
  | http => "http".toList
  | https => "https".toList

def CredentialDestinationScheme.defaultPort : CredentialDestinationScheme → UInt16
  | http => 80
  | https => 443

structure CredentialDestination where
  scheme : CredentialDestinationScheme
  host : Text
  wildcard : Bool
  port : UInt16
  pathPrefix : Bytes
  deriving DecidableEq, Repr

/-- The parts of a `url::Url` that `matches_request` reads; `port` is the explicit one. -/
structure RequestUrl where
  scheme : Text
  port : Option UInt16
  path : Bytes
  deriving DecidableEq, Repr

def RequestUrl.portOrKnownDefault (request : RequestUrl) : Option UInt16 :=
  request.port.orElse fun _ =>
    if request.scheme = "http".toList ∨ request.scheme = "ws".toList then some 80
    else if request.scheme = "https".toList ∨ request.scheme = "wss".toList then some 443
    else if request.scheme = "ftp".toList then some 21
    else none

def CredentialDestination.matchesHost (self : CredentialDestination) (host : Text)
    (port : UInt16) : Bool :=
  if self.port ≠ port then false
  else if self.wildcard then
    (host.dropSuffix? self.host).any fun pre => pre.getLast? = some '.'
  else host = self.host

def CredentialDestination.matchesPath (self : CredentialDestination) (path : Bytes) : Bool :=
  self.pathPrefix = [slash] || path = self.pathPrefix ||
    (path.dropPrefix? self.pathPrefix).any fun suffix =>
      self.pathPrefix.getLast? = some slash || suffix.head? = some slash

def CredentialDestination.matchesRequest (self : CredentialDestination) (host : Text)
    (request : Option RequestUrl) : Bool :=
  match request with
  | none => false
  | some request =>
    if request.scheme ≠ self.scheme.asStr ∨
        self.matchesHost host
          (request.portOrKnownDefault.getD self.scheme.defaultPort) = false then false
    else if isSafeForAuthorization request.path = false then false
    else self.matchesPath request.path

theorem CredentialDestination.matchesRequest_some {self : CredentialDestination} {host : Text}
    {request : RequestUrl}
    (h : self.matchesRequest host (some request)) :
    isSafeForAuthorization request.path ∧ self.matchesPath request.path := by
  simp only [CredentialDestination.matchesRequest] at h
  split at h
  · exact absurd h Bool.false_ne_true
  · split at h
    · exact absurd h Bool.false_ne_true
    · next hs => exact ⟨by simpa using hs, h⟩

def scopeSegments (pathPrefix : Bytes) : List Bytes :=
  let segments := pathPrefix.splitOn slash
  if segments.getLast? = some [] then segments.dropLast else segments

theorem scopeSegments_of_trailing_slash (p : Bytes) :
    scopeSegments (p ++ [slash]) = p.splitOn slash := by
  have hs : (p ++ [slash]).splitOn slash = p.splitOn slash ++ [[]] := by
    rw [splitOn_append_cons_self, splitOn_nil]
  simp only [scopeSegments, hs, getLast?_concat, if_true, dropLast_concat]

theorem scopeSegments_isPrefix_splitOn (p : Bytes) : scopeSegments p <+: p.splitOn slash := by
  simp only [scopeSegments]
  split
  · exact List.dropLast_prefix _
  · exact prefix_rfl

theorem CredentialDestination.scopeSegments_isPrefix (self : CredentialDestination)
    (path : Bytes) (hroot : path.head? = some slash) (h : self.matchesPath path) :
    scopeSegments self.pathPrefix <+: path.splitOn slash := by
  simp only [matchesPath, Bool.or_eq_true, decide_eq_true_eq, Option.any_eq_true] at h
  rcases h with (hp | hp) | ⟨suffix, hdrop, hboundary⟩
  · -- The scope `/` has the root segment only.
    obtain ⟨rest, rfl⟩ : ∃ rest, path = slash :: rest := by
      cases path with
      | nil => simp at hroot
      | cons b rest => exact ⟨rest, by simpa using hroot⟩
    rw [hp, Split.splitOn_cons_self]
    exact ⟨rest.splitOn slash, rfl⟩
  · rw [hp]
    exact scopeSegments_isPrefix_splitOn self.pathPrefix
  · obtain ⟨p, rfl, hp⟩ := dropPrefix?_eq_some_iff.mp hdrop
    obtain rfl : p = self.pathPrefix := by simpa using hp
    rcases hboundary with hlast | hhead
    · obtain ⟨p, hp⟩ : ∃ p, self.pathPrefix = p ++ [slash] :=
        ⟨_, (dropLast_append_getLast? slash hlast).symm⟩
      rw [hp, scopeSegments_of_trailing_slash, append_assoc, singleton_append,
        splitOn_append_cons_self]
      exact prefix_append _ _
    · obtain ⟨rest, rfl⟩ : ∃ rest, suffix = slash :: rest := by
        cases suffix with
        | nil => simp at hhead
        | cons b rest => exact ⟨rest, by simpa using hhead⟩
      rw [splitOn_append_cons_self]
      exact (scopeSegments_isPrefix_splitOn _).trans (prefix_append _ _)

/-- A path accepted for a destination stays in its scope under every later reading, and all
readings after the first decoding pass agree. -/
theorem CredentialDestination.matchesRequest_scope (self : CredentialDestination) (host : Text)
    (request : RequestUrl) (hroot : request.path.head? = some slash)
    (h : self.matchesRequest host (some request) = true) :
    (∀ k, (scopeSegments self.pathPrefix).map decode^[k] <+: reinterpret k request.path) ∧
      ∀ k, 1 ≤ k → reinterpret k request.path = reinterpret 1 request.path := by
  obtain ⟨hsafe, hpath⟩ := matchesRequest_some h
  constructor
  · intro k
    rw [reinterpret_of_safe request.path hsafe k]
    exact (self.scopeSegments_isPrefix request.path hroot hpath).map decode^[k]
  · intro k hk
    obtain ⟨k, rfl⟩ := Nat.exists_eq_add_of_le' hk
    exact reinterpret_succ_of_safe request.path hsafe k

theorem CredentialDestination.matchesRequest_scope_api :
    (∀ k, (scopeSegments (Text.bytes "/v1/".toList)).map decode^[k] <+:
      reinterpret k (Text.bytes "/v1/a%20b".toList)) ∧
    ∀ k, 1 ≤ k → reinterpret k (Text.bytes "/v1/a%20b".toList) =
      reinterpret 1 (Text.bytes "/v1/a%20b".toList) :=
  matchesRequest_scope
    ⟨.https, "api.test".toList, false, 443, Text.bytes "/v1/".toList⟩ "api.test".toList
    ⟨"https".toList, none, Text.bytes "/v1/a%20b".toList⟩ (by decide +kernel) (by decide +kernel)

end Codex.NetworkProxy

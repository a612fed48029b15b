import Codex.Lib.Fallible
import Codex.Lib.Wildcard
import Codex.NetworkProxy.Host

/-! The patterns of `network-proxy/src/policy.rs`: how they are compiled into a set of globs and how
managed patterns are compared with configured ones. -/

namespace Codex.NetworkProxy
open Codex.Lib List

def normalizePattern (pattern : Text) : Text :=
  let pattern := Text.trim pattern
  if pattern = "*".toList then "*".toList
  else
    match pattern.dropPrefix? "**.".toList, pattern.dropPrefix? "*.".toList with
    | some domain, _ => "**.".toList ++ normalizeHost domain
    | none, some domain => "*.".toList ++ normalizeHost domain
    | none, none => normalizeHost pattern

inductive DomainPattern where
  | apexAndSubdomains (domain : Text)
  | subdomainsOnly (domain : Text)
  | exact (domain : Text)
  deriving DecidableEq, Repr

namespace DomainPattern

def parseDomain (domain : Text) (build : Text → DomainPattern) : DomainPattern :=
  if Text.trim domain = [] then exact [] else build (Text.trim domain)

def parse (input : Text) : DomainPattern :=
  let input := Text.trim input
  match input.dropPrefix? "**.".toList, input.dropPrefix? "*.".toList with
  | some domain, _ => parseDomain domain apexAndSubdomains
  | none, some domain => parseDomain domain subdomainsOnly
  | none, none => exact input

def candidates : DomainPattern → List Text
  | exact domain => [domain]
  | subdomainsOnly domain => ["?*.".toList ++ domain]
  | apexAndSubdomains domain => [domain, "?*.".toList ++ domain]

end DomainPattern

def expandDomainPattern (pattern : Text) : List Text := (DomainPattern.parse pattern).candidates

def isGlobalWildcardDomainPattern (pattern : Text) : Bool :=
  (expandDomainPattern (normalizePattern pattern)).any (· = "*".toList)

/-- What is used of other crates: the matcher that `globset` builds with `case_insensitive(true)`,
or none for a pattern that it rejects, and the text of the host that `url::Host::parse` returns. -/
structure HostCrates where
  buildGlob : Text → Option (Text → Bool)
  parseUrlHost : Text → Option Text

abbrev GlobSet := List (Text × (Text → Bool))

def GlobSet.isMatch (set : GlobSet) (host : Text) : Bool := set.any fun glob => glob.2 host

inductive GlobalWildcard where
  | allow
  | reject
  deriving DecidableEq, Repr

section Compile

variable (crates : HostCrates)

def addCandidate (set : GlobSet) (candidate : Text) : Except Text GlobSet :=
  if candidate ∈ set.map Prod.fst then .ok set
  else
    match crates.buildGlob candidate with
    | some glob => .ok (set ++ [(candidate, glob)])
    | none => .error ("invalid glob pattern: ".toList ++ candidate)

def addPattern (globalWildcard : GlobalWildcard) (set : GlobSet) (pattern : Text) :
    Except Text GlobSet :=
  if globalWildcard = .reject ∧ isGlobalWildcardDomainPattern pattern then
    .error ("unsupported global wildcard domain pattern \"*\"; use exact hosts or scoped wildcards "
      ++ "like *.example.com or **.example.com").toList
  else (expandDomainPattern (normalizePattern pattern)).foldlM (addCandidate crates) set

def compileGlobsetWithPolicy (patterns : List Text) (globalWildcard : GlobalWildcard) :
    Except Text GlobSet :=
  patterns.foldlM (addPattern crates globalWildcard) []

def compileAllowlistGlobset (patterns : List Text) : Except Text GlobSet :=
  compileGlobsetWithPolicy crates patterns .allow

def compileDenylistGlobset (patterns : List Text) : Except Text GlobSet :=
  compileGlobsetWithPolicy crates patterns .reject

def parseDomainForConstraints (domain : Text) : Text :=
  let domain := trimEndDots (Text.trim domain)
  if domain = [] then []
  else
    let host :=
      if domain.head? = some '[' ∧ domain.getLast? = some ']' then domain.tail.dropLast else domain
    if '*' ∈ host ∨ '?' ∈ host ∨ '%' ∈ host then domain
    else (crates.parseUrlHost host).getD []

def DomainPattern.parseForConstraints (input : Text) : DomainPattern :=
  let input := Text.trim input
  if input = [] then exact []
  else
    match input.dropPrefix? "**.".toList, input.dropPrefix? "*.".toList with
    | some domain, _ => apexAndSubdomains (parseDomainForConstraints crates domain)
    | none, some domain => subdomainsOnly (parseDomainForConstraints crates domain)
    | none, none => exact (parseDomainForConstraints crates input)

end Compile

def normalizeDomain (domain : Text) : Text := toAsciiLowercase (trimEndDots domain)

def domainEq (left right : Text) : Bool := normalizeDomain left = normalizeDomain right

def isSubdomainOrEqual (child parent : Text) : Bool :=
  normalizeDomain child = normalizeDomain parent ||
    ('.' :: normalizeDomain parent).isSuffixOf (normalizeDomain child)

def isStrictSubdomain (child parent : Text) : Bool :=
  normalizeDomain child ≠ normalizeDomain parent &&
    ('.' :: normalizeDomain parent).isSuffixOf (normalizeDomain child)

def DomainPattern.allows : DomainPattern → DomainPattern → Bool
  | exact domain, exact candidate => domainEq candidate domain
  | exact _, _ => false
  | subdomainsOnly domain, exact candidate => isStrictSubdomain candidate domain
  | subdomainsOnly domain, subdomainsOnly candidate => isSubdomainOrEqual candidate domain
  | subdomainsOnly domain, apexAndSubdomains candidate => isStrictSubdomain candidate domain
  | apexAndSubdomains domain, exact candidate => isSubdomainOrEqual candidate domain
  | apexAndSubdomains domain, subdomainsOnly candidate => isSubdomainOrEqual candidate domain
  | apexAndSubdomains domain, apexAndSubdomains candidate => isSubdomainOrEqual candidate domain

section Sets

variable {crates : HostCrates}

def BuiltSet (crates : HostCrates) (set : GlobSet) : Prop :=
  ∀ glob ∈ set, crates.buildGlob glob.1 = some glob.2

theorem addCandidate_spec {set set' : GlobSet} {candidate : Text} (hset : BuiltSet crates set)
    (h : addCandidate crates set candidate = .ok set') :
    BuiltSet crates set' ∧
      ∀ text, text ∈ set'.map Prod.fst ↔ text ∈ set.map Prod.fst ∨ text = candidate := by
  unfold addCandidate at h
  split at h
  · next hmem =>
    obtain rfl := Except.ok.inj h
    refine ⟨hset, fun text => ⟨.inl, ?_⟩⟩
    rintro (ht | rfl)
    · exact ht
    · exact hmem
  · split at h
    · next glob hglob =>
      obtain rfl := Except.ok.inj h
      refine ⟨fun g hg => ?_, fun text => by simp⟩
      rcases mem_append.mp hg with hg | hg
      · exact hset g hg
      · rw [mem_singleton.mp hg]
        exact hglob
    · exact absurd h (by simp)

theorem addCandidates_spec {set set' : GlobSet} {texts : List Text} (hset : BuiltSet crates set)
    (h : texts.foldlM (addCandidate crates) set = .ok set') :
    BuiltSet crates set' ∧
      ∀ text, text ∈ set'.map Prod.fst ↔ text ∈ set.map Prod.fst ∨ text ∈ texts := by
  induction texts generalizing set with
  | nil =>
    obtain rfl := Except.ok.inj h
    exact ⟨hset, by simp⟩
  | cons t texts ih =>
    rw [foldlM_cons] at h
    obtain ⟨mid, ht, h⟩ := exists_of_bind_eq_ok h
    obtain ⟨hmid, hkeys⟩ := addCandidate_spec hset ht
    obtain ⟨hset', hkeys'⟩ := ih hmid h
    refine ⟨hset', fun text => ?_⟩
    rw [hkeys', hkeys, mem_cons, or_assoc]

theorem addPatterns_spec {policy : GlobalWildcard} {set set' : GlobSet} {patterns : List Text}
    (hset : BuiltSet crates set)
    (h : patterns.foldlM (addPattern crates policy) set = .ok set') :
    BuiltSet crates set' ∧ ∀ text, text ∈ set'.map Prod.fst ↔
      text ∈ set.map Prod.fst ∨
        ∃ pattern ∈ patterns, text ∈ expandDomainPattern (normalizePattern pattern) := by
  induction patterns generalizing set with
  | nil =>
    obtain rfl := Except.ok.inj h
    exact ⟨hset, by simp⟩
  | cons p patterns ih =>
    rw [foldlM_cons] at h
    obtain ⟨mid, hp, h⟩ := exists_of_bind_eq_ok h
    unfold addPattern at hp
    split at hp
    · exact absurd hp (by simp)
    · obtain ⟨hmid, hkeys⟩ := addCandidates_spec hset hp
      obtain ⟨hset', hkeys'⟩ := ih hmid h
      refine ⟨hset', fun text => ?_⟩
      rw [hkeys', hkeys, or_assoc]
      simp [mem_cons]

def PatternMatches (crates : HostCrates) (pattern host : Text) : Prop :=
  ∃ text ∈ expandDomainPattern (normalizePattern pattern), ∃ glob,
    crates.buildGlob text = some glob ∧ glob host = true

theorem isMatch_compiled {policy : GlobalWildcard} {patterns : List Text} {set : GlobSet}
    (h : compileGlobsetWithPolicy crates patterns policy = .ok set) (host : Text) :
    set.isMatch host ↔ ∃ pattern ∈ patterns, PatternMatches crates pattern host := by
  obtain ⟨hset, hkeys⟩ := addPatterns_spec (fun _ hg => absurd hg not_mem_nil) h
  simp only [GlobSet.isMatch, any_eq_true]
  constructor
  · rintro ⟨⟨text, glob⟩, hg, hm⟩
    have hkey := (hkeys text).mp (mem_map.mpr ⟨_, hg, rfl⟩)
    obtain ⟨pattern, hp, ht⟩ := hkey.resolve_left not_mem_nil
    exact ⟨pattern, hp, text, ht, glob, hset _ hg, hm⟩
  · rintro ⟨pattern, hp, text, ht, glob, hb, hm⟩
    obtain ⟨⟨t, g⟩, hg, rfl⟩ := mem_map.mp ((hkeys text).mpr (.inr ⟨pattern, hp, ht⟩))
    have heq := hset _ hg
    rw [hb] at heq
    exact ⟨_, hg, (Option.some.inj heq) ▸ hm⟩

end Sets

/-- The globs without classes, alternatives and escapes, and without the separators that give two
stars a meaning of their own. -/
def WildcardGlob (pattern : Text) : Prop :=
  (∀ c ∈ pattern, c ∉ ['[', ']', '\x7b', '\x7d', '\\']) ∧ ('*' ∈ pattern → '/' ∉ pattern)

instance (pattern : Text) : Decidable (WildcardGlob pattern) :=
  @instDecidableAnd _ _ (List.decidableBAll _ pattern) inferInstance

def globTokens (pattern : Text) : List (Wildcard UInt8) :=
  pattern.flatMap fun c =>
    if c = '*' then [.many] else if c = '?' then [.any] else (String.utf8EncodeChar c).map .lit

/-- The documented syntax of `globset`, with `case_insensitive(true)` and without
`literal_separator(true)`. -/
def GlobWildcards (crates : HostCrates) : Prop :=
  ∀ pattern, WildcardGlob pattern → ∃ glob, crates.buildGlob pattern = some glob ∧
    ∀ host, glob host = true ↔
      Wildcard.Matches (globTokens (toAsciiLowercase pattern)) (toAsciiLowercase host).bytes

def wildcardCrates (parseUrlHost : Text → Option Text) : HostCrates where
  buildGlob pattern :=
    if WildcardGlob pattern then
      some fun host =>
        Wildcard.matchesBool (globTokens (toAsciiLowercase pattern)) (toAsciiLowercase host).bytes
    else none
  parseUrlHost := parseUrlHost

theorem globWildcards_wildcardCrates (parseUrlHost : Text → Option Text) :
    GlobWildcards (wildcardCrates parseUrlHost) :=
  fun _ hp => ⟨_, if_pos hp, fun _ => Wildcard.matchesBool_iff _ _⟩

theorem globTokens_of_literal {pattern : Text} (h : ∀ c ∈ pattern, c ≠ '*' ∧ c ≠ '?') :
    globTokens pattern = pattern.bytes.map .lit := by
  rw [globTokens, Text.bytes, map_flatMap]
  refine flatMap_congr fun c hc => ?_
  rw [if_neg (h c hc).1, if_neg (h c hc).2]

end Codex.NetworkProxy

import Codex.NetworkProxy.Config

/-! When a configured allowlist that passes `validate_policy_against_constraints` opens no host that
the managed one keeps closed. The patterns are compared in one normal form and compiled in another.
-/

namespace Codex.NetworkProxy
open Codex.Lib List DomainPattern

theorem globTokens_append (s t : Text) : globTokens (s ++ t) = globTokens s ++ globTokens t :=
  flatMap_append

theorem toAsciiLowercase_append (s t : Text) :
    toAsciiLowercase (s ++ t) = toAsciiLowercase s ++ toAsciiLowercase t :=
  map_append

def GlobLanguage (pattern : Text) (w : Bytes) : Prop :=
  Wildcard.Matches (globTokens (toAsciiLowercase pattern)) w

def dot : UInt8 := 46

theorem globLanguage_dot (x domain : Text) (w : Bytes) :
    GlobLanguage (x ++ '.' :: domain) w ↔
      ∃ u v, w = u ++ dot :: v ∧ GlobLanguage x u ∧ GlobLanguage domain v := by
  have htokens : globTokens (toAsciiLowercase (x ++ '.' :: domain)) =
      globTokens (toAsciiLowercase x) ++
        Wildcard.lit dot :: globTokens (toAsciiLowercase domain) := by
    rw [toAsciiLowercase_append, globTokens_append]
    rfl
  rw [GlobLanguage, htokens, Wildcard.matches_append]
  constructor
  · rintro ⟨u, _, rfl, hu, v, rfl, hv⟩
    exact ⟨u, v, rfl, hu, hv⟩
  · rintro ⟨u, v, rfl, hu, hv⟩
    exact ⟨u, dot :: v, rfl, hu, v, rfl, hv⟩

theorem globLanguage_subdomains (domain : Text) (w : Bytes) :
    GlobLanguage ("?*.".toList ++ domain) w ↔
      ∃ u v, w = u ++ dot :: v ∧ u ≠ [] ∧ GlobLanguage domain v := by
  have hsplit : "?*.".toList ++ domain = "?*".toList ++ '.' :: domain := rfl
  rw [hsplit, globLanguage_dot]
  have hwild : ∀ u, GlobLanguage "?*".toList u ↔ u ≠ [] := Wildcard.matches_any_many
  simp only [hwild]

theorem exists_globToken {x : Text} {c : Char} (hc : c ∈ x) (hne : c ≠ '*') :
    ∃ token ∈ globTokens (toAsciiLowercase x), token ≠ Wildcard.many := by
  have hlower : c.toLower ∈ toAsciiLowercase x := mem_map_of_mem hc
  have hstar : c.toLower ≠ '*' := fun h => hne ((toLower_eq_iff (by decide)).mp h)
  simp only [globTokens, mem_flatMap]
  by_cases hq : c.toLower = '?'
  · refine ⟨.any, ⟨_, hlower, ?_⟩, fun h => by cases h⟩
    rw [if_neg hstar, if_pos hq]
    exact mem_singleton_self _
  · obtain ⟨b, hb⟩ := exists_mem_of_length_pos (l := String.utf8EncodeChar c.toLower) (by
      rw [String.length_utf8EncodeChar]
      exact Char.utf8Size_pos _)
    refine ⟨.lit b, ⟨_, hlower, ?_⟩, fun h => by cases h⟩
    rw [if_neg hstar, if_neg hq]
    exact mem_map_of_mem hb

namespace DomainPattern

def Language (self : DomainPattern) (w : Bytes) : Prop :=
  ∃ text ∈ self.candidates, GlobLanguage text w

variable (domain : Text) (w : Bytes)

theorem language_exact : (exact domain).Language w ↔ GlobLanguage domain w := by
  simp [Language, candidates]

theorem language_subdomainsOnly :
    (subdomainsOnly domain).Language w ↔ ∃ u v, w = u ++ dot :: v ∧ u ≠ [] ∧
      GlobLanguage domain v := by
  rw [← globLanguage_subdomains]
  simp [Language, candidates]

theorem language_apexAndSubdomains : (apexAndSubdomains domain).Language w ↔
      GlobLanguage domain w ∨ (subdomainsOnly domain).Language w := by
  simp [Language, candidates]

def normalized : DomainPattern → DomainPattern
  | apexAndSubdomains domain => apexAndSubdomains (normalizeDomain domain)
  | subdomainsOnly domain => subdomainsOnly (normalizeDomain domain)
  | exact domain => exact (normalizeDomain domain)

def NamesHost : DomainPattern → Prop
  | exact domain => ∃ c ∈ domain.takeWhile (· ≠ '.'), c ≠ '*'
  | apexAndSubdomains domain => ∃ c ∈ domain.takeWhile (· ≠ '.'), c ≠ '*'
  | subdomainsOnly _ => True

instance (self : DomainPattern) : Decidable self.NamesHost :=
  match self with
  | exact _ => List.decidableBEx _ _
  | apexAndSubdomains _ => List.decidableBEx _ _
  | subdomainsOnly _ => isTrue trivial

end DomainPattern

theorem subdomain_language {child parent : Text} {w : Bytes}
    (hsub : '.' :: parent <:+ child) (hname : ∃ c ∈ child.takeWhile (· ≠ '.'), c ≠ '*')
    (h : GlobLanguage child w) : (subdomainsOnly parent).Language w := by
  obtain ⟨x, rfl⟩ := hsub
  obtain ⟨c, hc, hne⟩ := hname
  have hcx : c ∈ x := by
    rw [takeWhile_append] at hc
    split at hc
    · simpa using hc
    · exact (List.takeWhile_prefix _).subset hc
  obtain ⟨u, v, rfl, hu, hv⟩ := (globLanguage_dot x parent w).mp h
  obtain ⟨token, htoken, hmany⟩ := exists_globToken hcx hne
  rw [language_subdomainsOnly]
  exact ⟨u, v, rfl, Wildcard.ne_nil_of_matches hu htoken hmany, hv⟩

theorem subdomains_language {child parent : Text} {w : Bytes} (hsub : '.' :: parent <:+ child)
    (h : (subdomainsOnly child).Language w) :
    (subdomainsOnly parent).Language w := by
  obtain ⟨x, rfl⟩ := hsub
  rw [language_subdomainsOnly] at h ⊢
  obtain ⟨u, v, rfl, hu, hv⟩ := h
  obtain ⟨u', v', rfl, _, hv'⟩ := (globLanguage_dot x parent v).mp hv
  exact ⟨u ++ dot :: u', v', by simp, by simp, hv'⟩

theorem isSubdomainOrEqual_iff (child parent : Text) :
    isSubdomainOrEqual child parent ↔ normalizeDomain child = normalizeDomain parent ∨
      '.' :: normalizeDomain parent <:+ normalizeDomain child := by
  simp [isSubdomainOrEqual]

theorem suffix_of_isStrictSubdomain {child parent : Text} (h : isStrictSubdomain child parent) :
    '.' :: normalizeDomain parent <:+ normalizeDomain child := by
  simp only [isStrictSubdomain, Bool.and_eq_true, isSuffixOf_iff_suffix] at h
  exact h.2

theorem language_of_allows {pattern candidate : DomainPattern}
    (hallows : pattern.allows candidate) (hname : candidate.normalized.NamesHost)
    {w : Bytes} (h : candidate.normalized.Language w) : pattern.normalized.Language w := by
  cases pattern with
  | exact domain =>
    cases candidate with
    | exact child =>
      have heq : normalizeDomain child = normalizeDomain domain := of_decide_eq_true hallows
      rw [normalized, heq] at h
      exact h
    | subdomainsOnly child => exact absurd hallows Bool.false_ne_true
    | apexAndSubdomains child => exact absurd hallows Bool.false_ne_true
  | subdomainsOnly domain =>
    cases candidate with
    | exact child =>
      have hsub := suffix_of_isStrictSubdomain hallows
      exact subdomain_language hsub hname ((language_exact _ _).mp h)
    | subdomainsOnly child =>
      rcases (isSubdomainOrEqual_iff child domain).mp hallows with heq | hsub
      · rw [normalized, heq] at h
        exact h
      · exact subdomains_language hsub h
    | apexAndSubdomains child =>
      have hsub := suffix_of_isStrictSubdomain hallows
      rcases (language_apexAndSubdomains _ _).mp h with h | h
      · exact subdomain_language hsub hname h
      · exact subdomains_language hsub h
  | apexAndSubdomains domain =>
    refine (language_apexAndSubdomains _ _).mpr ?_
    cases candidate with
    | exact child =>
      rw [normalized, language_exact] at h
      rcases (isSubdomainOrEqual_iff child domain).mp hallows with heq | hsub
      · exact .inl (heq ▸ h)
      · exact .inr (subdomain_language hsub hname h)
    | subdomainsOnly child =>
      rcases (isSubdomainOrEqual_iff child domain).mp hallows with heq | hsub
      · rw [normalized, heq] at h
        exact .inr h
      · exact .inr (subdomains_language hsub h)
    | apexAndSubdomains child =>
      rcases (isSubdomainOrEqual_iff child domain).mp hallows with heq | hsub
      · rw [normalized, heq] at h
        exact (language_apexAndSubdomains _ _).mp h
      · rcases (language_apexAndSubdomains _ _).mp h with h | h
        · exact .inr (subdomain_language hsub hname h)
        · exact .inr (subdomains_language hsub h)

section Accepted

variable {Hook : Type} {crates : HostCrates} {peripherals : Peripherals Hook}
  {config : NetworkProxyConfig Hook} {constraints : NetworkProxyConstraints}
  {managed configured : List Text}

theorem validateAllowedDomains_of_validatePolicy
    (hmanaged : constraints.allowedDomains = some managed)
    (h : validatePolicyAgainstConstraints crates peripherals config constraints = .ok ()) :
    validateAllowedDomains crates managed (config.allowedDomains.getD [])
      (config.deniedDomains.getD []) constraints.allowlistExpansionEnabled = .ok () := by
  unfold validatePolicyAgainstConstraints at h
  simp only [hmanaged] at h
  obtain ⟨_, _, h⟩ := exists_of_bind_eq_ok h
  obtain ⟨_, hallowed, _⟩ := exists_of_bind_eq_ok h
  exact hallowed

theorem exists_allows_of_validateAllowedDomains {denied : List Text}
    (h : validateAllowedDomains crates managed configured denied none = .ok ()) {entry : Text}
    (hentry : entry ∈ configured) :
    ∃ pattern ∈ managed, (parseForConstraints crates pattern).allows
      (parseForConstraints crates entry) := by
  obtain ⟨_, _, h⟩ := exists_of_bind_eq_ok h
  have hnone : entriesNotAllowed crates managed configured = [] := by
    by_contra hne
    simp only [ensure, decide_eq_true_eq, if_neg hne] at h
    exact nomatch h
  have hkept := filter_eq_nil_iff.mp hnone entry hentry
  simpa using hkept

def enforced (entry : Text) : DomainPattern := DomainPattern.parse (normalizePattern entry)

/-- An entry whose compiled form ends in no dot and uses no glob syntax besides stars and question
marks. -/
def Ordinary (entry : Text) : Prop :=
  (enforced entry).normalized = enforced entry ∧
    ∀ text ∈ (enforced entry).candidates, WildcardGlob text

instance (entry : Text) : Decidable (Ordinary entry) :=
  @instDecidableAnd _ _ inferInstance (List.decidableBAll _ _)

/-- A configured entry that the managed list also admits as compiled: its compiled form is listed,
or names its host and is allowed by that of a managed entry. -/
def AdmittedAsCompiled (managed : List Text) (entry : Text) : Prop :=
  enforced entry ∈ managed.map enforced ∨
    (Ordinary entry ∧ (enforced entry).NamesHost ∧
      ∃ pattern ∈ managed, Ordinary pattern ∧ (enforced pattern).allows (enforced entry))

instance (managed : List Text) (entry : Text) : Decidable (AdmittedAsCompiled managed entry) :=
  inferInstanceAs (Decidable (_ ∨ _ ∧ _ ∧ _))

theorem patternMatches_iff (laws : GlobWildcards crates) {entry : Text}
    (hentry : Ordinary entry) (host : Text) :
    PatternMatches crates entry host ↔ (enforced entry).Language (toAsciiLowercase host).bytes := by
  constructor
  · rintro ⟨text, htext, glob, hbuild, hmatch⟩
    obtain ⟨glob', hbuild', hiff⟩ := laws text (hentry.2 text htext)
    rw [hbuild] at hbuild'
    obtain rfl := Option.some.inj hbuild'
    exact ⟨text, htext, (hiff host).mp hmatch⟩
  · rintro ⟨text, htext, hlang⟩
    obtain ⟨glob, hbuild, hiff⟩ := laws text (hentry.2 text htext)
    exact ⟨text, htext, glob, hbuild, (hiff host).mpr hlang⟩

theorem patternMatches_of_admittedAsCompiled (laws : GlobWildcards crates) {entry : Text}
    (h : AdmittedAsCompiled managed entry) {host : Text}
    (hmatch : PatternMatches crates entry host) :
    ∃ pattern ∈ managed, PatternMatches crates pattern host := by
  rcases h with hlisted | ⟨hentry, hname, pattern, hpattern, hordinary, hallows⟩
  · obtain ⟨pattern, hpattern, heq⟩ := mem_map.mp hlisted
    refine ⟨pattern, hpattern, ?_⟩
    have hsame : expandDomainPattern (normalizePattern pattern) =
        expandDomainPattern (normalizePattern entry) := congrArg candidates heq
    rw [PatternMatches, hsame]
    exact hmatch
  · refine ⟨pattern, hpattern, ?_⟩
    rw [patternMatches_iff laws hentry, ← hentry.1] at hmatch
    rw [patternMatches_iff laws hordinary, ← hordinary.1]
    exact language_of_allows hallows (by rwa [hentry.1]) hmatch

end Accepted

/-- `url::Host::parse` on names of letters, digits and dashes, which it returns in lower case. -/
def parseDnsName (name : Text) : Option Text :=
  if name.all fun c => c.isAlphanum || c = '-' || c = '.' then some (toAsciiLowercase name)
  else none

def dnsCrates : HostCrates := wildcardCrates parseDnsName

def configWith (allowed : List String) : NetworkProxyConfig Empty :=
  { NetworkProxyConfig.default Empty with
    domains := some (allowed.map fun pattern => ⟨pattern.toList, .allow⟩) }

def managedBy (allowed : List String) : NetworkProxyConstraints :=
  { NetworkProxyConstraints.default with allowedDomains := some (allowed.map String.toList) }

end Codex.NetworkProxy

import Codex.NetworkProxy.Config

/-! Which hosts the allow set matches after `add_allowed_domain`. -/

namespace Codex.NetworkProxy
open Codex.Lib List Text NetworkProxyConfig

theorem effectiveEntries_concat (entries : List DomainEntry) (entry : DomainEntry) :
    effectiveEntries (entries ++ [entry]) = noteEntry (effectiveEntries entries) entry := by
  simp [effectiveEntries]

open DomainEntry

theorem mem_patterns_noteEntry (effective : List DomainEntry) (entry : DomainEntry) (p : Text) :
    p ∈ (noteEntry effective entry).map pattern ↔
      p ∈ effective.map pattern ∨ p = entry.pattern := by
  unfold noteEntry
  split
  · next hmem =>
    have hkeep : (effective.map fun known => if known.pattern = entry.pattern then
        { known with permission := max known.permission entry.permission } else known).map
          pattern = effective.map pattern := by
      rw [map_map]
      refine map_congr_left fun known _ => ?_
      simp only [Function.comp]
      split <;> rfl
    rw [hkeep]
    constructor
    · exact .inl
    · rintro (h | rfl)
      · exact h
      · exact hmem
  · simp

theorem mem_patterns_effectiveEntries (entries : List DomainEntry) (p : Text) :
    p ∈ (effectiveEntries entries).map pattern ↔ p ∈ entries.map pattern := by
  induction entries using List.reverseRecOn with
  | nil => rfl
  | append_singleton entries entry ih =>
    rw [effectiveEntries_concat, mem_patterns_noteEntry, ih]
    simp

def Strongest (entries : List DomainEntry) (e : DomainEntry) : Prop :=
  e ∈ entries ∧ ∀ d ∈ entries, d.pattern = e.pattern → d.permission ≤ e.permission

section strongest
variable {entries : List DomainEntry} {e k x : DomainEntry}

theorem strongest_concat : Strongest (entries ++ [x]) e ↔
    (e ∈ entries ∨ e = x) ∧ (∀ d ∈ entries, d.pattern = e.pattern → d.permission ≤ e.permission) ∧
      (x.pattern = e.pattern → x.permission ≤ e.permission) := by
  simp only [Strongest, mem_append, mem_singleton, or_imp, forall_and, forall_eq]

theorem strongest_concat_of_ne (h : e.pattern ≠ x.pattern) :
    Strongest (entries ++ [x]) e ↔ Strongest entries e := by
  rw [strongest_concat]
  constructor
  · rintro ⟨he | rfl, hmax, -⟩
    · exact ⟨he, hmax⟩
    · exact absurd rfl h
  · rintro ⟨he, hmax⟩
    exact ⟨.inl he, hmax, fun hx => absurd hx.symm h⟩

theorem strongest_concat_of_eq (hk : Strongest entries k) (hkp : k.pattern = x.pattern) :
    Strongest (entries ++ [x]) e ∧ e.pattern = x.pattern ↔
      e = { k with permission := max k.permission x.permission } := by
  rw [strongest_concat]
  constructor
  · rintro ⟨⟨he, hmax, hx⟩, hp⟩
    have hle : max k.permission x.permission ≤ e.permission :=
      max_le (hmax k hk.1 (hkp.trans hp.symm)) (hx hp.symm)
    have hge : e.permission ≤ max k.permission x.permission := by
      rcases he with he | rfl
      · exact (hk.2 e he (hp.trans hkp.symm)).trans (le_max_left _ _)
      · exact le_max_right _ _
    rw [le_antisymm hle hge, hkp, ← hp]
  · rintro rfl
    refine ⟨⟨?_, fun d hd hdp => (hk.2 d hd hdp).trans (le_max_left _ _),
      fun _ => le_max_right _ _⟩, hkp⟩
    rcases le_total k.permission x.permission with hle | hle
    · rw [max_eq_right hle, hkp]
      exact .inr rfl
    · rw [max_eq_left hle]
      exact .inl hk.1

theorem Strongest.unique (h : Strongest entries e) (hk : Strongest entries k)
    (hp : e.pattern = k.pattern) : e = k := by
  obtain ⟨pattern, permission⟩ := e
  obtain ⟨pattern', permission'⟩ := k
  obtain rfl : pattern = pattern' := hp
  obtain rfl : permission = permission' := le_antisymm (hk.2 _ h.1 rfl) (h.2 _ hk.1 rfl)
  rfl

end strongest

theorem mem_effectiveEntries (entries : List DomainEntry) (e : DomainEntry) :
    e ∈ effectiveEntries entries ↔
      e ∈ entries ∧ ∀ d ∈ entries, d.pattern = e.pattern → d.permission ≤ e.permission := by
  change _ ↔ Strongest entries e
  induction entries using List.reverseRecOn generalizing e with
  | nil => simp [effectiveEntries, Strongest]
  | append_singleton entries x ih =>
    have ih : ∀ e, e ∈ effectiveEntries entries ↔ Strongest entries e := ih
    rw [effectiveEntries_concat, noteEntry]
    by_cases hmem : x.pattern ∈ (effectiveEntries entries).map pattern
    · obtain ⟨k, hk, hkp⟩ := mem_map.mp hmem
      rw [if_pos hmem, mem_map]
      by_cases hp : e.pattern = x.pattern
      · rw [← and_iff_left (a := Strongest (entries ++ [x]) e) hp,
          strongest_concat_of_eq ((ih k).mp hk) hkp]
        constructor
        · rintro ⟨known, hknown, rfl⟩
          split_ifs at hp ⊢ with hsame
          · rw [((ih known).mp hknown).unique ((ih k).mp hk) (hsame.trans hkp.symm)]
          · exact absurd hp hsame
        · rintro rfl
          exact ⟨k, hk, if_pos hkp⟩
      · rw [strongest_concat_of_ne hp, ← ih]
        constructor
        · rintro ⟨known, hknown, rfl⟩
          split_ifs at hp ⊢ with hsame
          · exact absurd hsame hp
          · exact hknown
        · exact fun he => ⟨e, he, if_neg hp⟩
    · have hnew : ∀ d ∈ entries, d.pattern ≠ x.pattern := by
        intro d hd hdp
        rw [mem_patterns_effectiveEntries] at hmem
        exact hmem (hdp ▸ mem_map_of_mem hd)
      rw [if_neg hmem, mem_append, ih, mem_singleton, strongest_concat]
      constructor
      · rintro (⟨he, hmax⟩ | rfl)
        · exact ⟨.inl he, hmax, fun hx => absurd hx.symm (hnew e he)⟩
        · exact ⟨.inr rfl, fun d hd hdp => absurd hdp (hnew d hd), fun _ => le_rfl⟩
      · rintro ⟨he | rfl, hmax, -⟩
        · exact .inl ⟨he, hmax⟩
        · exact .inr rfl

theorem mem_entriesWith (permission : NetworkDomainPermission) (entries : List DomainEntry)
    (p : Text) :
    p ∈ entriesWith permission entries ↔ ⟨p, permission⟩ ∈ entries ∧
      ∀ d ∈ entries, d.pattern = p → d.permission ≤ permission := by
  simp only [entriesWith, mem_map, mem_filter, decide_eq_true_eq]
  constructor
  · rintro ⟨⟨q, perm⟩, ⟨he, rfl⟩, rfl⟩
    exact (mem_effectiveEntries entries _).mp he
  · intro h
    exact ⟨⟨p, permission⟩, ⟨(mem_effectiveEntries entries _).mpr h, rfl⟩, rfl⟩

theorem getD_domainEntries {Hook : Type} (config : NetworkProxyConfig Hook)
    (permission : NetworkDomainPermission) :
    (config.domainEntries permission).getD [] =
      entriesWith permission (config.domains.getD []) := by
  unfold domainEntries
  cases config.domains with
  | none => rfl
  | some entries =>
    simp only [Option.map_some, Option.filter, Option.getD_some]
    split
    · rfl
    · next h =>
      have hnil : entriesWith permission entries = [] := by simpa using h
      rw [hnil]
      rfl

theorem mem_entriesWith_upsert (permission target : NetworkDomainPermission)
    (entries : List DomainEntry) (host p : Text) (normalize : Text → Text) :
    p ∈ entriesWith permission
        (entries.filter (fun entry => normalize entry.pattern ≠ normalize host) ++
          [⟨host, target⟩]) ↔
      (p = host ∧ permission = target) ∨
        (normalize p ≠ normalize host ∧ p ∈ entriesWith permission entries) := by
  simp only [mem_entriesWith, mem_append, mem_filter, mem_singleton,
    DomainEntry.mk.injEq, ne_eq, decide_not, Bool.not_eq_true', decide_eq_false_iff_not]
  constructor
  · rintro ⟨⟨hmem, hne⟩ | ⟨rfl, rfl⟩, hmax⟩
    · refine .inr ⟨hne, hmem, fun d hd hdp => hmax d (.inl ⟨hd, ?_⟩) hdp⟩
      rw [hdp]
      exact hne
    · exact .inl ⟨rfl, rfl⟩
  · rintro (⟨rfl, rfl⟩ | ⟨hne, hmem, hmax⟩)
    · refine ⟨.inr ⟨rfl, rfl⟩, ?_⟩
      rintro d (⟨hd, hdn⟩ | rfl) hdp
      · rw [hdp] at hdn
        exact absurd rfl hdn
      · exact le_rfl
    · refine ⟨.inl ⟨hmem, hne⟩, ?_⟩
      rintro d (⟨hd, _⟩ | rfl) hdp
      · exact hmax d hd hdp
      · rw [← hdp] at hne
        exact absurd rfl hne

section Update

variable {Hook : Type} {crates : HostCrates} {peripherals : Peripherals Hook}
  {policy : LocalBindingPolicy} {state state' : ConfigState Hook crates} {host : Text}

theorem domains_withBrokerage (config : NetworkProxyConfig Hook)
    (constraints : NetworkProxyConstraints) (h : config.allowedDomains.getD [] ≠ []) :
    (withBrokerage config constraints).domains = config.domains := by
  have hsome : config.allowedDomains.isNone = false := by
    cases hc : config.allowedDomains with
    | none => exact absurd (by rw [hc]; rfl) h
    | some patterns => rfl
  unfold withBrokerage
  by_cases hoff : constraints.enabled = some false
  · simp [hoff]
  · simp [hoff, hsome]

theorem config_of_compileState {config : NetworkProxyConfig Hook}
    {constraints : NetworkProxyConstraints}
    (h : compileState crates peripherals config constraints = .ok state') :
    state'.config = config := by
  unfold compileState at h
  split at h
  · exact absurd h (by simp)
  · split at h
    · exact absurd h (by simp)
    · split at h
      · exact absurd h (by simp)
      · obtain rfl := Except.ok.inj h
        rfl

theorem config_of_buildConfigState {config : NetworkProxyConfig Hook}
    {constraints : NetworkProxyConstraints}
    (h : buildConfigState crates peripherals config constraints = .ok state') :
    state'.config = withBrokerage config constraints := by
  unfold buildConfigState at h
  split at h
  · exact absurd h (by simp)
  · exact config_of_compileState h

theorem getD_domains_upsert (config : NetworkProxyConfig Hook)
    (permission : NetworkDomainPermission) (normalize : Text → Text) :
    (config.upsertDomainPermission host permission normalize).domains.getD [] =
      (config.domains.getD []).filter (fun entry => normalize entry.pattern ≠ normalize host) ++
        [⟨host, permission⟩] := by
  simp [upsertDomainPermission, nonEmptyDomains]

/-- The early return of `update_domain_list`. -/
def alreadyAllowed (state : ConfigState Hook crates) (form : Text) : Bool :=
  DomainListKind.allow.contains state.config form &&
    !DomainListKind.deny.contains state.config form

theorem alreadyAllowed_iff (state : ConfigState Hook crates) (form : Text) :
    alreadyAllowed state form = true ↔
      (∃ entry ∈ (state.config.domainEntries .allow).getD [], normalizeHost entry = form) ∧
        ∀ entry ∈ (state.config.domainEntries .deny).getD [], normalizeHost entry ≠ form := by
  rw [alreadyAllowed, Bool.and_eq_true, Bool.not_eq_true', DomainListKind.contains,
    DomainListKind.contains, any_eq_true, any_eq_false]
  simp only [decide_eq_true_eq]
  rfl

/-- An entry of either list that the approval of a host with this normal form does not replace. -/
def Stays (state : ConfigState Hook crates) (form entry : Text) : Prop :=
  alreadyAllowed state form = true ∨ normalizeHost entry ≠ normalizeHost form

theorem addAllowedDomain_entries
    (h : addAllowedDomain crates peripherals policy state host = .ok state') (permission p) :
    p ∈ (state'.config.domainEntries permission).getD [] ↔
      (alreadyAllowed state (normalizeHost host) = false ∧ p = normalizeHost host ∧
        permission = .allow) ∨
      (Stays state (normalizeHost host) p ∧
        p ∈ (state.config.domainEntries permission).getD []) := by
  unfold addAllowedDomain updateDomainList at h
  simp only [] at h
  split at h
  · exact absurd h (by simp)
  · split at h
    · next hlisted =>
      have hallowed : alreadyAllowed state (normalizeHost host) = true := hlisted
      obtain rfl := Except.ok.inj h
      simp [Stays, hallowed]
    · next hlisted =>
      have hallowed : alreadyAllowed state (normalizeHost host) = false :=
        Bool.eq_false_iff.mpr hlisted
      split at h
      · exact absurd h (by simp)
      · split at h
        · exact absurd h (by simp)
        · next built hbuild =>
          obtain rfl := Except.ok.inj h
          set candidate := state.config.upsertDomainPermission (normalizeHost host)
            DomainListKind.allow.permission normalizeHost with hcandidate
          have hentries : ∀ permission p,
              p ∈ (candidate.domainEntries permission).getD [] ↔
                (p = normalizeHost host ∧ permission = .allow) ∨
                  (normalizeHost p ≠ normalizeHost (normalizeHost host) ∧
                    p ∈ (state.config.domainEntries permission).getD []) := by
            intro permission p
            rw [getD_domainEntries, getD_domainEntries, hcandidate, getD_domains_upsert]
            exact mem_entriesWith_upsert permission .allow _ _ p normalizeHost
          have hne : candidate.allowedDomains.getD [] ≠ [] :=
            ne_nil_of_mem ((hentries .allow _).mpr (.inl ⟨rfl, rfl⟩))
          have hdomains : built.config.domains = candidate.domains := by
            rw [config_of_buildConfigState hbuild, domains_withBrokerage candidate _ hne]
          have hsame : built.config.domainEntries permission =
              candidate.domainEntries permission := by
            rw [domainEntries, domainEntries, hdomains]
          rw [hsame]
          simpa [Stays, hallowed] using hentries permission p

theorem isMatch_allowSet (state : ConfigState Hook crates) (g : Text) :
    state.allowSet.isMatch g ↔
      ∃ pattern ∈ (state.config.domainEntries .allow).getD [], PatternMatches crates pattern g :=
  isMatch_compiled state.allow_compiled g

end Update

def Plain (s : Text) : Prop := ∀ c ∈ s, c ∉ ['*', '?', '[', ']', '\x7b', '\x7d', '\\']

instance (s : Text) : Decidable (Plain s) := List.decidableBAll _ s

theorem Plain.star_notMem {s : Text} (h : Plain s) : '*' ∉ s := fun hmem => h _ hmem (by decide)

theorem Plain.trim {s : Text} (h : Plain s) : Plain (trim s) :=
  fun c hc => h c ((trim_isInfix s).subset hc)

theorem dropWildcards_eq_none {s : Text} (h : ∀ rest, s ≠ '*' :: rest) :
    s.dropPrefix? "**.".toList = none ∧ s.dropPrefix? "*.".toList = none := by
  have hdrop : ∀ rest, s.dropPrefix? ('*' :: rest) = none := by
    intro rest
    cases s with
    | nil => rfl
    | cons c s =>
      have hne : (c == '*') = false := beq_false_of_ne fun heq => h s (heq ▸ rfl)
      rw [List.dropPrefix?, hne]
      rfl
  exact ⟨hdrop ['*', '.'], hdrop ['.']⟩

theorem normalizePattern_of_star_notMem {pattern : Text} (h : '*' ∉ normalizeHost pattern) :
    normalizePattern pattern = normalizeHost pattern := by
  have hhead : ∀ rest, trim pattern ≠ '*' :: rest := fun rest heq => h (star_mem_normalizeHost heq)
  have hstar : trim pattern ≠ "*".toList := hhead []
  rw [normalizePattern, if_neg hstar, (dropWildcards_eq_none hhead).1,
    (dropWildcards_eq_none hhead).2]
  exact normalizeHost_trim pattern

theorem star_notMem_of_plain {pattern : Text} (h : Plain (normalizePattern pattern)) :
    '*' ∉ normalizeHost pattern := by
  intro hmem
  refine h.star_notMem ?_
  unfold normalizePattern
  simp only []
  split
  · decide
  · split
    · exact mem_append_left _ (by decide)
    · exact mem_append_left _ (by decide)
    · rw [normalizeHost_trim]
      exact hmem

theorem plain_normalizePattern_iff (pattern : Text) :
    Plain (normalizePattern pattern) ↔ Plain (normalizeHost pattern) := by
  constructor
  · intro h
    rw [← normalizePattern_of_star_notMem (star_notMem_of_plain h)]
    exact h
  · intro h
    rw [normalizePattern_of_star_notMem h.star_notMem]
    exact h

theorem expandDomainPattern_of_star_notMem {s : Text} (h : '*' ∉ s) :
    expandDomainPattern s = [trim s] := by
  have htrim : '*' ∉ trim s := fun hmem => h ((trim_isInfix s).subset hmem)
  have hhead : ∀ rest, trim s ≠ '*' :: rest := fun rest heq => htrim (heq ▸ mem_cons_self)
  rw [expandDomainPattern, DomainPattern.parse, (dropWildcards_eq_none hhead).1,
    (dropWildcards_eq_none hhead).2]
  rfl

section Literals

variable {crates : HostCrates} (laws : GlobWildcards crates)
include laws

theorem exists_glob_of_plain {pattern : Text} (hp : Plain (normalizeHost pattern)) :
    ∃ glob, crates.buildGlob (trim (normalizeHost pattern)) = some glob ∧
      ∀ g, glob g ↔ toAsciiLowercase g = trim (normalizeHost pattern) := by
  set text := trim (normalizeHost pattern) with htext
  have hlower : toAsciiLowercase text = text := by
    refine (map_congr_left fun c hc => ?_).trans (map_id _)
    exact normalizeDns_lower _ c ((trim_isInfix _).subset hc)
  have hplain : Plain text := hp.trim
  have hglob : WildcardGlob text :=
    ⟨fun c hc hmem => hplain c hc (mem_cons_of_mem _ (mem_cons_of_mem _ hmem)),
      fun h => absurd h hplain.star_notMem⟩
  have hliteral : ∀ c ∈ text, c ≠ '*' ∧ c ≠ '?' := by
    intro c hc
    constructor
    · rintro rfl
      exact hplain _ hc (by decide)
    · rintro rfl
      exact hplain _ hc (by decide)
  obtain ⟨glob, hbuild, hmatch⟩ := laws text hglob
  refine ⟨glob, hbuild, fun g => ?_⟩
  rw [hmatch, hlower, globTokens_of_literal hliteral, Wildcard.matches_map_lit]
  exact bytes_injective.eq_iff

theorem patternMatches_plain {pattern : Text} (hp : Plain (normalizeHost pattern)) (g : Text) :
    PatternMatches crates pattern g ↔ toAsciiLowercase g = trim (normalizeHost pattern) := by
  obtain ⟨glob, hbuild, hglob⟩ := exists_glob_of_plain laws hp
  rw [PatternMatches, normalizePattern_of_star_notMem hp.star_notMem,
    expandDomainPattern_of_star_notMem hp.star_notMem]
  constructor
  · rintro ⟨text, ht, glob', hb, hm⟩
    rw [mem_singleton.mp ht, hbuild] at hb
    obtain rfl := Option.some.inj hb
    exact (hglob g).mp hm
  · intro heq
    exact ⟨_, mem_singleton_self _, glob, hbuild, (hglob g).mpr heq⟩

theorem patternMatches_plain_normalized {pattern : Text} (hp : Plain (normalizeHost pattern))
    (g : Text) :
    PatternMatches crates pattern (normalizeHost g) ↔
      normalizeHost g = trim (normalizeHost pattern) := by
  rw [patternMatches_plain laws hp, toAsciiLowercase_normalizeHost]

end Literals

section Approval

variable {Hook : Type} {crates : HostCrates}

structure OpensOnly (host : Text) (state state' : ConfigState Hook crates) : Prop where
  opens_no_other : ∀ g, normalizeHost g ≠ normalizeHost host →
    state'.allowSet.isMatch (normalizeHost g) = true →
      state.allowSet.isMatch (normalizeHost g) = true
  opens : state'.allowSet.isMatch (normalizeHost host) = true
  not_denied : ∀ entry ∈ (state'.config.domainEntries .deny).getD [],
    Plain (normalizePattern entry) → ¬ PatternMatches crates entry (normalizeHost host)

/-- What a state must say of the normal form of a host for its approval to open that host only. The
form is compiled as an entry, so it may be a glob, or be normalised once more. -/
structure AdmitsApproval (state : ConfigState Hook crates) (form : Text) : Prop where
  covered : alreadyAllowed state form = true ∨ ∀ g, normalizeHost g ≠ form →
    PatternMatches crates form (normalizeHost g) → state.allowSet.isMatch (normalizeHost g) = true
  opened : (alreadyAllowed state form = false ∧ PatternMatches crates form form) ∨
    ∃ entry ∈ (state.config.domainEntries .allow).getD [], Stays state form entry ∧
      PatternMatches crates entry form
  not_denied : ∀ entry ∈ (state.config.domainEntries .deny).getD [], Stays state form entry →
    Plain (normalizePattern entry) → ¬ PatternMatches crates entry form

/-- No exact entry of the deny list has a normal form that is the host in white space. Such an
entry, as `[ a ]` for `a`, is compiled without the white space and compared with it. -/
def NoPaddedDeny (state : ConfigState Hook crates) (host : Text) : Prop :=
  ∀ entry ∈ (state.config.domainEntries .deny).getD [], Plain (normalizePattern entry) →
    Text.trim (normalizeHost entry) = host → normalizeHost entry = host

variable {peripherals : Peripherals Hook} {policy : LocalBindingPolicy}
  {state state' : ConfigState Hook crates} {host : Text}

theorem opensOnly_iff_admitsApproval
    (h : addAllowedDomain crates peripherals policy state host = .ok state') :
    OpensOnly host state state' ↔ AdmitsApproval state (normalizeHost host) := by
  have hentries := addAllowedDomain_entries h
  have hopen : ∀ g, state'.allowSet.isMatch g = true ↔
      (alreadyAllowed state (normalizeHost host) = false ∧
        PatternMatches crates (normalizeHost host) g) ∨
      ∃ entry ∈ (state.config.domainEntries .allow).getD [],
        Stays state (normalizeHost host) entry ∧ PatternMatches crates entry g := by
    intro g
    simp only [isMatch_allowSet, hentries]
    constructor
    · rintro ⟨entry, ⟨hnew, rfl, -⟩ | ⟨hstays, hold⟩, hmatch⟩
      · exact .inl ⟨hnew, hmatch⟩
      · exact .inr ⟨entry, hold, hstays, hmatch⟩
    · rintro (⟨hnew, hmatch⟩ | ⟨entry, hold, hstays, hmatch⟩)
      · exact ⟨_, .inl ⟨hnew, rfl, trivial⟩, hmatch⟩
      · exact ⟨entry, .inr ⟨hstays, hold⟩, hmatch⟩
  constructor
  · intro hopens
    refine ⟨?_, (hopen _).mp hopens.opens, fun entry hentry hstays => ?_⟩
    · cases hallowed : alreadyAllowed state (normalizeHost host) with
      | true => exact .inl rfl
      | false =>
        exact .inr fun g hg hmatch =>
          hopens.opens_no_other g hg ((hopen _).mpr (.inl ⟨hallowed, hmatch⟩))
    · exact hopens.not_denied entry ((hentries .deny entry).mpr (.inr ⟨hstays, hentry⟩))
  · intro hadmits
    refine ⟨fun g hg hmatch => ?_, (hopen _).mpr hadmits.opened, fun entry hentry => ?_⟩
    · rcases (hopen _).mp hmatch with ⟨hnew, hmatch⟩ | ⟨entry, hold, -, hmatch⟩
      · rcases hadmits.covered with hallowed | hcovered
        · exact absurd (hnew.symm.trans hallowed) Bool.false_ne_true
        · exact hcovered g hg hmatch
      · exact (isMatch_allowSet state _).mpr ⟨entry, hold, hmatch⟩
    · rcases (hentries .deny entry).mp hentry with ⟨-, -, hallow⟩ | ⟨hstays, hold⟩
      · exact absurd hallow (by decide)
      · exact hadmits.not_denied entry hold hstays

section Fixed
variable (laws : GlobWildcards crates) (hplain : Plain (normalizeHost host))
  (hfixed : normalizeHost (normalizeHost host) = normalizeHost host)
include laws hplain hfixed

/-- For plain text that `normalize_host` keeps, only padded denials stand in the way. -/
theorem admitsApproval_iff_noPaddedDeny :
    AdmitsApproval state (normalizeHost host) ↔ NoPaddedDeny state (normalizeHost host) := by
  have htrim : trim (normalizeHost host) = normalizeHost host := trim_of_normalizeHost_eq hfixed
  have hself : Plain (normalizeHost (normalizeHost host)) := by rwa [hfixed]
  constructor
  · intro hadmits entry hentry hp heq
    by_contra hne
    refine hadmits.not_denied entry hentry (.inr (by rwa [hfixed])) hp ?_
    rw [patternMatches_plain_normalized laws ((plain_normalizePattern_iff entry).mp hp)]
    exact heq.symm
  · intro hdeny
    refine ⟨.inr fun g hg hmatch => ?_, ?_, fun entry hentry hstays hp hmatch => ?_⟩
    · rw [patternMatches_plain_normalized laws hself, hfixed, htrim] at hmatch
      exact absurd hmatch hg
    · cases hallowed : alreadyAllowed state (normalizeHost host) with
      | false =>
        refine .inl ⟨rfl, ?_⟩
        rw [patternMatches_plain_normalized laws hself, hfixed, htrim]
      | true =>
        obtain ⟨⟨entry, hentry, hnorm⟩, -⟩ := (alreadyAllowed_iff state _).mp hallowed
        refine .inr ⟨entry, hentry, .inl hallowed, ?_⟩
        have hp : Plain (normalizeHost entry) := hnorm ▸ hplain
        rw [patternMatches_plain_normalized laws hp, hnorm, htrim]
    · rw [patternMatches_plain_normalized laws ((plain_normalizePattern_iff entry).mp hp)] at hmatch
      have hnorm := hdeny entry hentry hp hmatch.symm
      rcases hstays with hallowed | hne
      · exact ((alreadyAllowed_iff state _).mp hallowed).2 entry hentry hnorm
      · exact hne (hnorm.trans hfixed.symm)

end Fixed

/-- In every state the approval of a host opens that host only exactly when the state admits it; for
plain text that `normalize_host` keeps, this is when no denial is padded. -/
theorem addAllowedDomain_opensOnly_iff (laws : GlobWildcards crates)
    (h : addAllowedDomain crates peripherals policy state host = .ok state') :
    (OpensOnly host state state' ↔ AdmitsApproval state (normalizeHost host)) ∧
      (Plain (normalizeHost host) → normalizeHost (normalizeHost host) = normalizeHost host →
        (AdmitsApproval state (normalizeHost host) ↔ NoPaddedDeny state (normalizeHost host))) :=
  ⟨opensOnly_iff_admitsApproval h, admitsApproval_iff_noPaddedDeny laws⟩

end Approval

def allowsAll : ConfigState Empty (wildcardCrates some) where
  config := { default Empty with domains := some [⟨"*".toList, .allow⟩] }
  constraints := NetworkProxyConstraints.default
  allowSet := [("*".toList, _)]
  denySet := []
  allow_compiled := rfl
  deny_compiled := rfl

/-- A host that is added, and the global wildcard where it is listed already. -/
theorem addAllowedDomain_opensOnly_iff_added_or_listed :
    let crates := wildcardCrates some
    let state := ConfigState.default Empty crates
    let host := "Example.COM.:443".toList
    (∃ state', addAllowedDomain crates .accepting .defaultFalse state host = .ok state' ∧
        OpensOnly host state state') ∧
      addAllowedDomain crates .accepting .defaultFalse allowsAll "*".toList = .ok allowsAll ∧
        OpensOnly "*".toList allowsAll allowsAll := by
  intro crates state host
  have laws : GlobWildcards crates := globWildcards_wildcardCrates some
  have hsome : (addAllowedDomain crates .accepting .defaultFalse state host).toOption.isSome := by
    decide +kernel
  obtain ⟨state', hstate⟩ := Option.isSome_iff_exists.mp hsome
  have h := toOption_eq_some_iff.mp hstate
  have hlisted : addAllowedDomain crates .accepting .defaultFalse allowsAll "*".toList =
      .ok allowsAll := rfl
  refine ⟨⟨state', h, ?_⟩, hlisted, ?_⟩
  · have hiff := addAllowedDomain_opensOnly_iff laws h
    refine hiff.1.mpr ((hiff.2 (by decide +kernel) (by decide +kernel)).mpr ?_)
    exact fun _ hentry => absurd hentry not_mem_nil
  · refine (addAllowedDomain_opensOnly_iff laws hlisted).1.mpr ⟨.inl (by decide +kernel), ?_, ?_⟩
    · exact .inr ⟨"*".toList, by decide +kernel, .inl (by decide +kernel),
        "*".toList, by decide +kernel, _, rfl, by decide +kernel⟩
    · have hnone : (allowsAll.config.domainEntries .deny).getD [] = [] := by decide +kernel
      rw [hnone]
      exact fun _ hentry => absurd hentry not_mem_nil

/-- The approval of `*` opens every host. -/
theorem addAllowedDomain_star_opens_others :
    let crates := wildcardCrates some
    let state := ConfigState.default Empty crates
    ∃ state', addAllowedDomain crates .accepting .defaultFalse state "*".toList = .ok state' ∧
      normalizeHost "evil.com".toList ≠ normalizeHost "*".toList ∧
        state.allowSet.isMatch (normalizeHost "evil.com".toList) = false ∧
          state'.allowSet.isMatch (normalizeHost "evil.com".toList) = true := by
  refine ⟨_, rfl, by decide +kernel, rfl, by decide +kernel⟩

end Codex.NetworkProxy

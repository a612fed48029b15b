import Codex.Permissions.FullDisk

/-! `DenyReadValidator` of `protocol/src/permissions/deny_read_validator.rs` in POSIX contexts. -/

namespace Codex.Permissions
open Codex.Lib FileSystemSandboxPolicy Rule List PathUri

namespace FileSystemSandboxPolicy

/-- `has_context_read_denials`; the exemption of `/tmp` is for other conventions. -/
def hasContextReadDenials (self : FileSystemSandboxPolicy) : Bool :=
  self.kind = .restricted && self.entries.any fun entry => entry.access = .deny

/-- `prepare_deny_read_matcher` with `ReturnError`; `none` is the error of an invalid pattern. -/
def tryPrepareDenyReadMatcher (self : FileSystemSandboxPolicy) (context : Context) :
    Option PreparedReadDenyMatcher :=
  (self.denyReadGlobs context).bind fun patterns =>
    (patterns.mapM context.crates.buildGlobMatcher).map fun matchers =>
      ⟨self.deniedRoots context, matchers, false⟩

end FileSystemSandboxPolicy

structure DenyReadValidator where
  requiredEntries : List FileSystemSandboxEntry
  matcher : Option PreparedReadDenyMatcher

inductive DenyReadViolation where
  | missingRequiredDeny
  | readablePath (path : PathUri)
  deriving DecidableEq

namespace DenyReadValidator

def new (required : FileSystemSandboxPolicy) (context : Context) : Option DenyReadValidator :=
  if required.hasContextReadDenials then
    (required.tryPrepareDenyReadMatcher context).map fun matcher => ⟨required.entries, some matcher⟩
  else some ⟨required.entries, none⟩

def violatingRoot (self : DenyReadValidator) (context : Context)
    (entry : FileSystemSandboxEntry) : Option PathUri :=
  match entry.path with
  | .path path =>
    if isPosix path && self.matcher.any (matchesPreparedReadDeny path context) then some path
    else none
  | _ => none

def validate (self : DenyReadValidator) (selected : FileSystemSandboxPolicy) (context : Context) :
    Except DenyReadViolation Unit :=
  match (selected.entries.filter fun entry => entry.access.canRead).findSome?
      (self.violatingRoot context) with
  | some path => .error (.readablePath path)
  | none =>
    if self.requiredEntries.any fun entry => !selected.entries.any (·.eq entry) then
      .error .missingRequiredDeny
    else .ok ()

variable {self : DenyReadValidator} {required selected : FileSystemSandboxPolicy}
  {context : Context}

theorem validate_eq_ok (h : self.validate selected context = .ok ()) :
    (∀ entry ∈ self.requiredEntries, ∃ other ∈ selected.entries, other.eq entry) ∧
      ∀ entry ∈ selected.entries, entry.access ≠ .deny →
        self.violatingRoot context entry = none := by
  rw [validate] at h
  split at h
  · cases h
  · next hnone =>
    split at h
    · cases h
    · next hmissing =>
      refine ⟨fun entry hentry => ?_, fun entry hentry haccess => ?_⟩
      · by_contra hnot
        refine hmissing (any_eq_true.mpr ⟨entry, hentry, ?_⟩)
        rw [Bool.not_eq_true', any_eq_false]
        exact fun other hother heq => hnot ⟨other, hother, heq⟩
      · refine findSome?_eq_none_iff.mp hnone entry (mem_filter.mpr ⟨hentry, ?_⟩)
        exact decide_eq_true haccess

theorem matcher_of_new (h : new required context = some self)
    (hdenials : required.hasContextReadDenials) :
    self.requiredEntries = required.entries ∧ ∃ matcher, self.matcher = some matcher ∧
      matcher.deniedRoots = required.deniedRoots context := by
  rw [new, if_pos hdenials, Option.map_eq_some_iff] at h
  obtain ⟨matcher, hmatcher, rfl⟩ := h
  refine ⟨rfl, matcher, rfl, ?_⟩
  obtain ⟨patterns, -, hbuilt⟩ := Option.bind_eq_some_iff.mp hmatcher
  obtain ⟨matchers, -, rfl⟩ := Option.map_eq_some_iff.mp hbuilt
  rfl

theorem mem_deniedRoots {u : PathUri} : u ∈ required.deniedRoots context ↔
    (u, FileSystemAccessMode.deny) ∈ required.resolvedEntries context ∧
      isFileSystemRoot context u = false := by
  simp only [deniedRoots, mem_map, mem_filter, Bool.and_eq_true, decide_eq_true_eq,
    Bool.not_eq_true', Prod.exists, exists_and_right, exists_eq_right]
  constructor
  · rintro ⟨access, hmem, rfl, hroot⟩
    exact ⟨hmem, hroot⟩
  · rintro ⟨hmem, hroot⟩
    exact ⟨.deny, hmem, rfl, hroot⟩

theorem matches_of_startsWith {matcher : PreparedReadDenyMatcher} {u v : PathUri}
    (hu : u ∈ matcher.deniedRoots) (hstarts : v.startsWith u) :
    matchesPreparedReadDeny v context matcher := by
  rw [matchesPreparedReadDeny]
  split
  · rfl
  · split
    · rfl
    · rw [Bool.or_eq_true]
      exact .inl (any_eq_true.mpr ⟨u, hu, hstarts⟩)

theorem deny_mem_rulesOf {entry other : FileSystemSandboxEntry} {u : PathUri} {rs : List Bytes}
    (hother : other ∈ selected.entries) (heq : other.eq entry)
    (hdeny : entry.access = .deny) (hu : u ∈ entryPaths context entry.path)
    (hlexical : u.lexical = some rs) :
    ⟨rs, .deny⟩ ∈ rulesOf context selected.entries := by
  obtain rfl := eq_of_entry_eq_of_mem heq hu (lexical_posix hlexical)
  exact mem_rulesOf.mpr ⟨other, hother, hdeny, u, hu, hlexical⟩

theorem deny_of_below {w : Rule Bytes} {u : PathUri} {rs : List Bytes}
    (hreadable : ∀ entry ∈ selected.entries, entry.access ≠ .deny →
      (∃ path, entry.path = .path path) ∨ entry.path = .special .root)
    (hsafe : ∀ entry ∈ selected.entries, entry.access ≠ .deny →
      self.violatingRoot context entry = none)
    {matcher : PreparedReadDenyMatcher} (hmatcher : self.matcher = some matcher)
    (hu : u ∈ matcher.deniedRoots) (hlexical : u.lexical = some rs)
    {cs : List Bytes} (hcwd : context.cwd.uri.lexical = some cs)
    (hw : w ∈ rulesOf context selected.entries) (hbelow : rs <+: w.root)
    (hlength : rs.length < w.root.length) : w.access = .deny := by
  by_contra haccess
  obtain ⟨entry, hentry, hentryAccess, v, hv, hvlexical⟩ := mem_rulesOf.mp hw
  rw [← hentryAccess] at haccess
  rcases hreadable entry hentry haccess with ⟨path, hpath⟩ | hpath
  · rw [hpath, entryPaths, mem_singleton] at hv
    subst hv
    have hnone := hsafe entry hentry haccess
    have hmatches : matchesPreparedReadDeny v context matcher :=
      matches_of_startsWith hu ((startsWith_iff hvlexical).mpr ⟨rs, hlexical, hbelow⟩)
    have hposix : isPosix v := decide_eq_true (lexical_posix hvlexical)
    rw [violatingRoot, hpath] at hnone
    simp only [hposix, hmatcher, Option.any_some, hmatches, Bool.and_self, if_true] at hnone
    cases hnone
  · rw [hpath, entryPaths_root hcwd, mem_singleton] at hv
    rw [hv, root_lexical hcwd, Option.some.injEq] at hvlexical
    rw [← hvlexical] at hlength
    exact absurd hlength (Nat.not_lt_zero _)

theorem validated_policy_denies (required selected : FileSystemSandboxPolicy) (context : Context)
    (validator : DenyReadValidator) (hrequired : required.kind = .restricted)
    (hselected : selected.kind = .restricted)
    (hreadable : ∀ entry ∈ selected.entries, entry.access ≠ .deny →
      (∃ path, entry.path = .path path) ∨ entry.path = .special .root)
    (hnew : new required context = some validator)
    (hvalid : validator.validate selected context = .ok ())
    (entry : FileSystemSandboxEntry) (hentry : entry ∈ required.entries)
    (hdeny : entry.access = .deny) (root : PathUri) (hroot : root ∈ entryPaths context entry.path)
    (hnotRoot : isFileSystemRoot context root = false)
    (p : PathUri) (hp : p.startsWith root = true) :
    selected.resolveAccess p context = .deny := by
  obtain ⟨kind, depth, entries⟩ := selected
  obtain rfl : kind = .restricted := hselected
  change (restricted entries).resolveAccess p context = .deny
  cases hps : p.lexical with
  | none => exact resolveAccess_of_not_lexical entries p context (.inl hps)
  | some ps =>
    cases hcs : context.cwd.uri.lexical with
    | none => exact resolveAccess_of_not_lexical entries p context (.inr hcs)
    | some cs =>
      by_cases hambiguous : hasAmbiguous entries context
      · exact resolveAccess_of_ambiguous entries p context hambiguous
      · rw [resolveAccess_eq_resolve entries p context hps hcs hambiguous]
        obtain ⟨rs, hrs, hcover⟩ := (startsWith_iff hps).mp hp
        have hdenials : required.hasContextReadDenials = true := by
          rw [hasContextReadDenials, hrequired]
          exact any_eq_true.mpr ⟨entry, hentry, decide_eq_true hdeny⟩
        obtain ⟨hentries, matcher, hmatcher, hroots⟩ := matcher_of_new hnew hdenials
        obtain ⟨hpresent, hsafe⟩ := validate_eq_ok hvalid
        have hdenied : root ∈ matcher.deniedRoots := by
          rw [hroots, mem_deniedRoots]
          refine ⟨mem_resolvedEntries.mpr ⟨entry, hentry, hdeny, hroot, ?_⟩, hnotRoot⟩
          exact lexical_posix hrs
        obtain ⟨other, hother, heq⟩ := hpresent entry (hentries ▸ hentry)
        have hrule : ⟨rs, .deny⟩ ∈ rulesOf context entries :=
          deny_mem_rulesOf hother heq hdeny hroot hrs
        obtain ⟨w, hw, hresolve⟩ := exists_decides hrule hcover
        rw [hresolve]
        rcases (key_le_iff _ w).mp (hw.max _ hrule hcover) with hlonger | ⟨-, hprecedence⟩
        · have hbelow := prefix_of_prefix_length_le hcover hw.covers hlonger.le
          exact deny_of_below hreadable hsafe hmatcher hdenied hrs hcs hw.mem hbelow hlonger
        · cases haccess : w.access with
          | deny => rfl
          | read | write =>
            rw [haccess] at hprecedence
            simp [FileSystemAccessMode.precedence] at hprecedence

theorem validated_policy_denies_private :
    let required := restricted [pathEntry ["private"] .deny]
    let selected := restricted [⟨.special .root, .write, false⟩, pathEntry ["private"] .deny]
    (∃ validator, new required rootContext = some validator ∧
        validator.validate selected rootContext = .ok ()) ∧
      selected.resolveAccess (localFile ["private", "key"]) rootContext = .deny := by
  intro required selected
  have hpasses : ∃ validator, new required rootContext = some validator ∧
      validator.validate selected rootContext = .ok () := ⟨_, rfl, by decide +kernel⟩
  have ⟨validator, hnew, hvalid⟩ := hpasses
  refine ⟨hpasses, validated_policy_denies required selected rootContext validator rfl rfl ?_ hnew
    hvalid (pathEntry ["private"] .deny) (mem_singleton_self _) rfl (localFile ["private"]) ?_
    (by decide +kernel) _ (by decide +kernel)⟩
  · intro entry hentry haccess
    rcases mem_cons.mp hentry with rfl | hentry
    · exact .inr rfl
    · rw [mem_singleton.mp hentry] at haccess
      exact absurd rfl haccess
  · exact mem_singleton_self _

/-- A policy that is not restricted passes with the required denies among its entries. -/
theorem unrestricted_policy_validates :
    let required := restricted [pathEntry ["private"] .deny]
    let selected : FileSystemSandboxPolicy := ⟨.unrestricted, none, [pathEntry ["private"] .deny]⟩
    (∃ validator, new required rootContext = some validator ∧
        validator.validate selected rootContext = .ok ()) ∧
      isFileSystemRoot rootContext (localFile ["private"]) = false ∧
      selected.resolveAccess (localFile ["private"]) rootContext = .write := by
  exact ⟨⟨_, rfl, by decide +kernel⟩, by decide +kernel, by decide +kernel⟩

end DenyReadValidator

end Codex.Permissions

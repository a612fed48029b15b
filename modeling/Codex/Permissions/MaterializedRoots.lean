import Codex.Permissions.ProjectRoots
import Codex.Permissions.Replacement
import Codex.Permissions.Resolution

/-! Materialising is stricter about subpaths than resolving them: a subpath with a `.` component is
rejected, and the rule is replaced by a deny of the whole root, or dropped if it permits writing. -/

namespace Codex.Permissions
open Codex.Lib FileSystemSandboxPolicy Rule List Option

variable {entries : List FileSystemSandboxEntry} {context : Context}

def keptPaths (context : Context) : FileSystemPath → List PathUri
  | .special (.projectRoots (some subpath)) =>
    context.workspaceRoots.filterMap fun root =>
      resolveScopedWorkspacePath context.crates.encode root subpath
  | path => entryPaths context path

def rejectingRoots (context : Context) : FileSystemPath → List PosixUri
  | .special (.projectRoots (some subpath)) =>
    context.workspaceRoots.filter fun root =>
      (resolveScopedWorkspacePath context.crates.encode root subpath).isNone
  | _ => []

/-- The kept roots of the entries with their access, and a deny of every root that rejects a
subpath which is not to be written. -/
def keptEntries (context : Context) (entries : List FileSystemSandboxEntry) :
    List (PathUri × FileSystemAccessMode) :=
  entries.flatMap fun entry =>
    ((keptPaths context entry.path).filter isPosix).map (·, entry.access) ++
      if entry.access.canWrite then []
      else (rejectingRoots context entry.path).map (·.uri, .deny)

def deniesHome (context : Context) (entry : FileSystemSandboxEntry) : Bool :=
  match entry.path with
  | .special (.projectRoots (some subpath)) =>
    entry.access = .deny && (homeRelativeSuffix subpath).isSome && context.workspaceRoots ≠ []
  | _ => false

theorem mem_keptEntries {u : PathUri} {a : FileSystemAccessMode} :
    (u, a) ∈ keptEntries context entries ↔
      ∃ entry ∈ entries,
        (entry.access = a ∧ u ∈ keptPaths context entry.path ∧
          u.inferPathConvention = some .posix) ∨
        (entry.access.canWrite = false ∧ a = .deny ∧
          ∃ root ∈ rejectingRoots context entry.path, root.uri = u) := by
  rw [keptEntries, mem_flatMap]
  refine exists_congr fun entry => and_congr_right fun _ => ?_
  rw [mem_append]
  refine or_congr ?_ ?_
  · simp only [List.mem_map, mem_filter, isPosix, decide_eq_true_eq, Prod.mk.injEq]
    constructor
    · rintro ⟨v, ⟨hv, hposix⟩, rfl, rfl⟩
      exact ⟨rfl, hv, hposix⟩
    · rintro ⟨ha, hu, hposix⟩
      exact ⟨u, ⟨hu, hposix⟩, rfl, ha⟩
  · cases entry.access.canWrite with
    | true => simp
    | false =>
      simp only [Bool.false_eq_true, if_false, List.mem_map, Prod.mk.injEq, true_and]
      constructor
      · rintro ⟨root, hroot, rfl, rfl⟩
        exact ⟨rfl, root, hroot, rfl⟩
      · rintro ⟨rfl, root, hroot, rfl⟩
        exact ⟨root, hroot, rfl, rfl⟩

variable {entry : FileSystemSandboxEntry}

theorem resolvedEntries_singleton
    (hkept : keptPaths context entry.path = entryPaths context entry.path)
    (hrejecting : rejectingRoots context entry.path = []) (e : PathUri × FileSystemAccessMode) :
    e ∈ (restricted [entry]).resolvedEntries context ↔ e ∈ keptEntries context [entry] := by
  obtain ⟨u, a⟩ := e
  rw [mem_resolvedEntries, mem_keptEntries]
  simp [restricted, hkept, hrejecting]

theorem mem_materializeForRoot {m : FileSystemSandboxEntry} {subpath : Text} {root : PosixUri} :
    m ∈ materializeForRoot context.crates entry (some subpath) false root ↔
      (∃ u, resolveScopedWorkspacePath context.crates.encode root subpath = some u ∧
        m = ⟨.path u, entry.access, entry.skipMissing⟩) ∨
      (resolveScopedWorkspacePath context.crates.encode root subpath = none ∧
        entry.access.canWrite = false ∧ m = ⟨.path root.uri, .deny, entry.skipMissing⟩) := by
  rw [materializeForRoot]
  simp only [Bool.false_and, Bool.false_eq_true, if_false]
  cases resolveScopedWorkspacePath context.crates.encode root subpath with
  | some u =>
    simp only [mem_some, Option.some.injEq, exists_eq_left', reduceCtorEq, false_and, or_false]
    exact eq_comm
  | none =>
    cases entry.access.canWrite with
    | true => simp
    | false =>
      simp only [Bool.false_eq_true, if_false, mem_some, reduceCtorEq, false_and,
        exists_false, true_and, false_or]
      exact eq_comm

theorem mem_resolvedEntries_forRoots {subpath : Text}
    (hpath : entry.path = .special (.projectRoots (some subpath)))
    (e : PathUri × FileSystemAccessMode) : e ∈ (restricted (context.workspaceRoots.filterMap
        (materializeForRoot context.crates entry (some subpath) false))).resolvedEntries context ↔
      e ∈ keptEntries context [entry] := by
  obtain ⟨u, a⟩ := e
  rw [mem_resolvedEntries, mem_keptEntries]
  simp only [mem_singleton, exists_eq_left, hpath, keptPaths, rejectingRoots,
    mem_filterMap, mem_filter, isNone_iff_eq_none]
  constructor
  · rintro ⟨m, hm, ha, hu, hposix⟩
    obtain ⟨root, hroot, hm⟩ := mem_filterMap.mp hm
    rcases mem_materializeForRoot.mp hm with ⟨v, hv, rfl⟩ | ⟨hnone, hread, rfl⟩
    · obtain rfl := mem_singleton.mp hu
      exact .inl ⟨ha, ⟨root, hroot, hv⟩, hposix⟩
    · obtain rfl := mem_singleton.mp hu
      exact .inr ⟨hread, ha.symm, root, ⟨hroot, hnone⟩, rfl⟩
  · rintro (⟨ha, ⟨root, hroot, hu⟩, hposix⟩ | ⟨hread, rfl, root, ⟨hroot, hnone⟩, rfl⟩)
    · refine ⟨⟨.path u, entry.access, entry.skipMissing⟩, ?_, ha, mem_singleton.mpr rfl, hposix⟩
      exact mem_filterMap.mpr ⟨root, hroot, mem_materializeForRoot.mpr (.inl ⟨u, hu, rfl⟩)⟩
    · refine ⟨⟨.path root.uri, .deny, entry.skipMissing⟩, ?_, rfl, mem_singleton.mpr rfl,
        root.posix⟩
      exact mem_filterMap.mpr ⟨root, hroot, mem_materializeForRoot.mpr (.inr ⟨hnone, hread, rfl⟩)⟩

theorem mem_resolvedEntries_forBareRoots (hpath : entry.path = .special (.projectRoots none))
    (e : PathUri × FileSystemAccessMode) : e ∈ (restricted (context.workspaceRoots.filterMap
        (materializeForRoot context.crates entry none false))).resolvedEntries context ↔
      e ∈ keptEntries context [entry] := by
  obtain ⟨u, a⟩ := e
  rw [mem_resolvedEntries, mem_keptEntries]
  simp only [mem_singleton, exists_eq_left, hpath, keptPaths, rejectingRoots, entryPaths,
    joinSubpath, mem_filterMap, not_mem_nil, false_and, exists_false, and_false, or_false]
  constructor
  · rintro ⟨m, hm, ha, hu, hposix⟩
    obtain ⟨root, hroot, hm⟩ := mem_filterMap.mp hm
    obtain rfl := Option.some.inj hm
    obtain rfl := mem_singleton.mp hu
    exact ⟨ha, ⟨root, hroot, rfl⟩, hposix⟩
  · rintro ⟨ha, ⟨root, hroot, hu⟩, hposix⟩
    obtain rfl := Option.some.inj hu
    refine ⟨⟨.path root.uri, entry.access, entry.skipMissing⟩, ?_, ha, mem_singleton.mpr rfl,
      hposix⟩
    exact mem_filterMap.mpr ⟨root, hroot, rfl⟩

theorem materializeProjectRootsEntry_spec (context : Context)
    (hglob : ∀ pattern, entry.path ≠ .globPattern pattern) : (deniesHome context entry ∧
      materializeProjectRootsEntry context.crates context.workspaceRoots entry = none) ∨
    (deniesHome context entry = false ∧ ∃ l,
      materializeProjectRootsEntry context.crates context.workspaceRoots entry = some l ∧
        ∀ e, e ∈ (restricted l).resolvedEntries context ↔ e ∈ keptEntries context [entry]) := by
  rw [materializeProjectRootsEntry]
  cases hpath : entry.path with
  | globPattern pattern => exact absurd hpath (hglob pattern)
  | path path =>
    refine .inr ⟨by rw [deniesHome, hpath], [entry], rfl, resolvedEntries_singleton ?_ ?_⟩
    all_goals rw [hpath]; rfl
  | special value =>
    cases value with
    | projectRoots subpath =>
      cases subpath with
      | none =>
        refine .inr ⟨by rw [deniesHome, hpath], _, if_neg (by simp), ?_⟩
        exact mem_resolvedEntries_forBareRoots hpath
      | some subpath =>
        simp only [workspaceSubpath, any_some, ne_eq]
        by_cases hhome : entry.access = .deny ∧ (homeRelativeSuffix subpath).isSome ∧
            ¬ context.workspaceRoots = []
        · refine .inl ⟨?_, if_pos hhome⟩
          simp only [deniesHome, hpath]
          simpa [and_assoc] using hhome
        · refine .inr ⟨?_, _, if_neg hhome, mem_resolvedEntries_forRoots hpath⟩
          simp only [deniesHome, hpath]
          simpa [and_assoc] using hhome
    | root | minimal | tmpdir | slashTmp | unknown =>
      refine .inr ⟨by rw [deniesHome, hpath], [entry], rfl, resolvedEntries_singleton ?_ ?_⟩
      all_goals rw [hpath]; rfl

theorem keptEntries_cons (entry : FileSystemSandboxEntry) (entries : List FileSystemSandboxEntry) :
    keptEntries context (entry :: entries) =
      keptEntries context [entry] ++ keptEntries context entries := by
  simp only [keptEntries, flatMap_cons, flatMap_nil, append_nil]

theorem mapM_materializeProjectRootsEntry (context : Context) (hglobs : NoGlobs entries) :
    (entries.any (deniesHome context) ∧
      entries.mapM (materializeProjectRootsEntry context.crates context.workspaceRoots) = none) ∨
    (entries.any (deniesHome context) = false ∧ ∃ ls,
      entries.mapM (materializeProjectRootsEntry context.crates context.workspaceRoots) = some ls ∧
        ∀ e, e ∈ (restricted ls.flatten).resolvedEntries context ↔
          e ∈ keptEntries context entries) := by
  induction entries with
  | nil => exact .inr ⟨rfl, [], rfl, fun e => Iff.rfl⟩
  | cons entry entries ih =>
    have hrest := ih fun e he => hglobs e (mem_cons_of_mem entry he)
    rw [any_cons, mapM_cons]
    rcases materializeProjectRootsEntry_spec context (hglobs entry mem_cons_self) with
      ⟨hhome, hnone⟩ | ⟨hhome, l, hl, hmem⟩
    · rw [hhome, hnone]
      exact .inl ⟨rfl, rfl⟩
    · rw [hhome, hl]
      rcases hrest with ⟨hhomes, hnone⟩ | ⟨hhomes, ls, hls, hmems⟩
      · rw [hhomes, hnone]
        exact .inl ⟨rfl, rfl⟩
      · rw [hhomes, hls]
        refine .inr ⟨rfl, l :: ls, rfl, fun e => ?_⟩
        rw [keptEntries_cons, mem_append, ← hmem, ← hmems]
        simp only [resolvedEntries, restricted, flatten_cons, flatMap_append, mem_append]

theorem materializeProjectRoots_spec (context : Context) (hglobs : NoGlobs entries) :
    (entries.any (deniesHome context) ∧
      (restricted entries).materializeProjectRoots context.crates context.workspaceRoots =
        restricted []) ∨
    (entries.any (deniesHome context) = false ∧ ∃ entries',
      (restricted entries).materializeProjectRoots context.crates context.workspaceRoots =
        restricted entries' ∧
        ∀ e, e ∈ (restricted entries').resolvedEntries context ↔
          e ∈ keptEntries context entries) := by
  rw [materializeProjectRoots, tryMaterializeProjectRoots]
  rcases mapM_materializeProjectRootsEntry context hglobs with
    ⟨hhome, hnone⟩ | ⟨hhome, ls, hls, hmem⟩
  · refine .inl ⟨hhome, ?_⟩
    rw [show (restricted entries).entries = entries from rfl, hnone]
    rfl
  · refine .inr ⟨hhome, ls.flatten, ?_, hmem⟩
    rw [show (restricted entries).entries = entries from rfl, hls]
    rfl

def keptRules (context : Context) (entries : List FileSystemSandboxEntry) : List (Rule Bytes) :=
  lexicalRules (keptEntries context entries)

def keepsAmbiguous (context : Context) (entries : List FileSystemSandboxEntry) : Prop :=
  ∃ e ∈ keptEntries context entries, e.1.isAmbiguous = true

theorem mem_entryPaths_of_mem_keptPaths {path : FileSystemPath} {u : PathUri}
    (h : u ∈ keptPaths context path) : u ∈ entryPaths context path := by
  unfold keptPaths at h
  split at h
  · next subpath =>
    obtain ⟨root, hroot, hu⟩ := mem_filterMap.mp h
    refine mem_filterMap.mpr ⟨root, hroot, ?_⟩
    rw [resolveScopedWorkspacePath] at hu
    split at hu
    · exact nomatch hu
    · exact (filter_eq_some_iff.mp hu).1
  · exact h

theorem onlyDeniesAdded_keptRules (context : Context) (entries : List FileSystemSandboxEntry) :
    OnlyDeniesAdded (rulesOf context entries) (keptRules context entries) := by
  intro r hr hread
  obtain ⟨u, hu, hlexical⟩ := mem_lexicalRules.mp hr
  refine mem_lexicalRules.mpr ⟨u, ?_, hlexical⟩
  obtain ⟨entry, hentry, ⟨ha, hkept, hposix⟩ | ⟨_, hdeny, _⟩⟩ := mem_keptEntries.mp hu
  · exact mem_resolvedEntries.mpr ⟨entry, hentry, ha, mem_entryPaths_of_mem_keptPaths hkept, hposix⟩
  · exact absurd hdeny hread

def lexicalPaths : Set (List Bytes) := { ps | ∃ p : PathUri, p.lexical = some ps }

theorem root_mem_lexicalPaths {roots : List (PathUri × FileSystemAccessMode)} :
    ∀ r ∈ lexicalRules roots, r.root ∈ lexicalPaths := by
  intro r hr
  obtain ⟨u, _, hu⟩ := mem_lexicalRules.mp hr
  exact ⟨u, hu⟩

theorem resolveAccess_of_kept {entries' : List FileSystemSandboxEntry}
    (hmem : ∀ e, e ∈ (restricted entries').resolvedEntries context ↔
      e ∈ keptEntries context entries) {p : PathUri} {ps cs : List Bytes}
    (hp : p.lexical = some ps) (hc : context.cwd.uri.lexical = some cs)
    (hkept : ¬ keepsAmbiguous context entries) :
    (restricted entries').resolveAccess p context = resolve (keptRules context entries) ps := by
  have hamb : ¬ hasAmbiguous entries' context := by
    simpa only [hasAmbiguous, hmem, keepsAmbiguous] using hkept
  rw [resolveAccess_eq_resolve entries' p context hp hc hamb]
  apply resolve_congr
  intro r
  simp only [rulesOf, keptRules, mem_lexicalRules, hmem]

theorem resolveAccess_of_keepsAmbiguous {entries' : List FileSystemSandboxEntry}
    (hmem : ∀ e, e ∈ (restricted entries').resolvedEntries context ↔
      e ∈ keptEntries context entries) (p : PathUri) (hkept : keepsAmbiguous context entries) :
    (restricted entries').resolveAccess p context = .deny := by
  apply resolveAccess_of_ambiguous
  simpa only [hasAmbiguous, hmem, keepsAmbiguous] using hkept

/-- Every rule of a rejected subpath that decided at its target is shielded by what is kept. -/
def RejectedShielded (context : Context) (entries : List FileSystemSandboxEntry) : Prop :=
  ∀ s ∈ rulesOf context entries, s ∉ keptRules context entries →
    Decides (rulesOf context entries) s.root s → Shielded (keptRules context entries) s

def NeverWidens (context : Context) (entries : List FileSystemSandboxEntry) : Prop :=
  ∀ p : PathUri, p.lexical ≠ none →
    (((restricted entries).materializeProjectRoots context.crates
        context.workspaceRoots).resolveAccess p context).level ≤
      ((restricted entries).resolveAccess p context).level

theorem neverWidens_of_deny
    (h : ∀ p, ((restricted entries).materializeProjectRoots context.crates
      context.workspaceRoots).resolveAccess p context = .deny) : NeverWidens context entries := by
  intro p _
  rw [h p]
  exact Nat.zero_le _

section Kept
variable {entries' : List FileSystemSandboxEntry} {cs : List Bytes}
  (hpolicy : (restricted entries).materializeProjectRoots context.crates context.workspaceRoots =
    restricted entries')
  (hmem : ∀ e, e ∈ (restricted entries').resolvedEntries context ↔
    e ∈ keptEntries context entries)
  (hc : context.cwd.uri.lexical = some cs) (hkept : ¬ keepsAmbiguous context entries)
include hpolicy hmem hc hkept

theorem neverWidens_iff_of_not_ambiguous (hamb : ¬ hasAmbiguous entries context) :
    NeverWidens context entries ↔ RejectedShielded context entries := by
  rw [RejectedShielded, ← resolve_le_iff (onlyDeniesAdded_keptRules context entries) lexicalPaths
    root_mem_lexicalPaths, NeverWidens, hpolicy]
  constructor
  · rintro h ps ⟨p, hp⟩
    have hle := h p (by simp [hp])
    rwa [resolveAccess_of_kept hmem hp hc hkept,
      resolveAccess_eq_resolve entries p context hp hc hamb] at hle
  · intro h p hp
    obtain ⟨ps, hp⟩ := ne_none_iff_exists'.mp hp
    rw [resolveAccess_of_kept hmem hp hc hkept,
      resolveAccess_eq_resolve entries p context hp hc hamb]
    exact h ps ⟨p, hp⟩

theorem neverWidens_iff_of_ambiguous (hamb : hasAmbiguous entries context) :
    NeverWidens context entries ↔
      ∀ r ∈ keptRules context entries, ⟨r.root, .deny⟩ ∈ keptRules context entries := by
  rw [← resolve_eq_deny_iff (keptRules context entries) lexicalPaths root_mem_lexicalPaths,
    NeverWidens, hpolicy]
  constructor
  · rintro h ps ⟨p, hp⟩
    have hle := h p (by simp [hp])
    rw [resolveAccess_of_kept hmem hp hc hkept, resolveAccess_of_ambiguous entries p context hamb,
      level_deny] at hle
    exact eq_deny_of_level (by omega)
  · intro h p hp
    obtain ⟨ps, hp⟩ := ne_none_iff_exists'.mp hp
    rw [resolveAccess_of_kept hmem hp hc hkept, h ps ⟨p, hp⟩]
    exact Nat.zero_le _

end Kept

/-- Materialising never widens access exactly when the policy denies everything by another check,
or every rejected rule is shielded by what is kept; if the symbolic policy denies everything for
an ambiguous root that is not kept, what is kept has to deny everything too. -/
theorem materialize_never_widens_iff (entries : List FileSystemSandboxEntry) (context : Context)
    (hglobs : NoGlobs entries) :
    (∀ p : PathUri, p.lexical ≠ none →
      (((restricted entries).materializeProjectRoots context.crates
          context.workspaceRoots).resolveAccess p context).level ≤
        ((restricted entries).resolveAccess p context).level) ↔
      context.cwd.uri.lexical = none ∨ entries.any (deniesHome context) = true ∨
        keepsAmbiguous context entries ∨
        (¬ hasAmbiguous entries context ∧ RejectedShielded context entries) ∨
        (hasAmbiguous entries context ∧
          ∀ r ∈ keptRules context entries, ⟨r.root, .deny⟩ ∈ keptRules context entries) := by
  change NeverWidens context entries ↔ _
  rcases materializeProjectRoots_spec context hglobs with
    ⟨hhome, hpolicy⟩ | ⟨hhome, entries', hpolicy, hmem⟩
  · refine iff_of_true (neverWidens_of_deny fun p => ?_) (.inr (.inl hhome))
    rw [hpolicy]
    simp [resolveAccess, restricted, resolvedEntries, lexicalEntries, MaxByKey.maxByKey]
  · by_cases hcwd : context.cwd.uri.lexical = none
    · refine iff_of_true (neverWidens_of_deny fun p => ?_) (.inl hcwd)
      rw [hpolicy]
      exact resolveAccess_of_not_lexical entries' p context (.inr hcwd)
    · obtain ⟨cs, hc⟩ := ne_none_iff_exists'.mp hcwd
      by_cases hkept : keepsAmbiguous context entries
      · refine iff_of_true (neverWidens_of_deny fun p => ?_) (.inr (.inr (.inl hkept)))
        rw [hpolicy]
        exact resolveAccess_of_keepsAmbiguous hmem p hkept
      · by_cases hamb : hasAmbiguous entries context
        · rw [neverWidens_iff_of_ambiguous hpolicy hmem hc hkept hamb]
          simp only [hcwd, hhome, hkept, hamb, not_true, false_and, true_and, false_or,
            Bool.false_eq_true]
        · rw [neverWidens_iff_of_not_ambiguous hpolicy hmem hc hkept hamb]
          simp only [hcwd, hhome, hkept, hamb, not_false_eq_true, false_and, true_and, false_or,
            or_false, Bool.false_eq_true]

def workspaceContext : Context :=
  ⟨literalCrates, ⟨localFile ["w"], rfl⟩, [⟨localFile ["w"], rfl⟩], none, none⟩

def belowWorkspace (subpath : String) (access : FileSystemAccessMode) : FileSystemSandboxEntry :=
  ⟨.special (.projectRoots (some subpath.toList)), access, false⟩

theorem materialize_never_widens_iff_writableRoot :
    let entries := [⟨.special (.projectRoots none), .write, false⟩, belowWorkspace "a/./b" .deny]
    (((restricted entries).materializeProjectRoots workspaceContext.crates
        workspaceContext.workspaceRoots).resolveAccess (localFile ["w", "a", "b"])
          workspaceContext).level ≤
      ((restricted entries).resolveAccess (localFile ["w", "a", "b"]) workspaceContext).level := by
  intro entries
  have hglobs : NoGlobs entries := by simp [NoGlobs, entries, belowWorkspace]
  have hshielded : ∀ s ∈ rulesOf workspaceContext entries,
      Shielded (keptRules workspaceContext entries) s := by
    unfold Shielded Outdone
    decide +kernel
  apply (materialize_never_widens_iff entries workspaceContext hglobs).mpr
  · refine .inr (.inr (.inr (.inl ⟨?_, fun s hs _ _ => hshielded s hs⟩)))
    unfold hasAmbiguous
    decide +kernel
  · decide +kernel

/-- The rejected deny of `a/./b` becomes a deny of the root, and the writable `a` between the two
is more specific than that. -/
theorem materialize_opens_denied_subpath :
    let entries := [belowWorkspace "a" .write, belowWorkspace "a/./b" .deny]
    let path := localFile ["w", "a", "b", "x"]
    NoGlobs entries ∧ relativeSubpath "a".toList = .ok "a".toList ∧
      relativeSubpath "a/./b".toList = .ok "a/./b".toList ∧ path.lexical ≠ none ∧
      (restricted entries).resolveAccess path workspaceContext = .deny ∧
      ((restricted entries).materializeProjectRoots workspaceContext.crates
        workspaceContext.workspaceRoots).resolveAccess path workspaceContext = .write := by
  intro entries path
  refine ⟨by simp [NoGlobs, entries, belowWorkspace], ?_⟩
  decide +kernel

end Codex.Permissions

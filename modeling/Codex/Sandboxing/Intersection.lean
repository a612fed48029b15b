import Codex.Sandboxing.Materialize

/-! The entries that `intersect_permission_profiles_with_context` returns are an intersection in the
sense of `Rule.IsIntersection`. -/

namespace Codex.Sandboxing
open Codex.Lib Codex.Permissions FileSystemSandboxPolicy List PathUri

variable {context : Context}

variable {e : FileSystemSandboxEntry}

theorem eq_of_entry_eq_of_resolved {e' : FileSystemSandboxEntry} (h : e'.eq e) {u : PathUri}
    (hu : resolvePermissionPath context e.path = some u)
    (hp : u.inferPathConvention = some .posix) : e' = e := by
  refine eq_of_entry_eq h fun v hv => ?_
  rw [hv] at hu
  exact Option.some.inj hu ▸ hp

theorem denyReadGlobs_of_noGlobs {entries : List FileSystemSandboxEntry} (h : NoGlobs entries) :
    (restricted entries).denyReadGlobs context = some [] := by
  have hnil : entries.filterMap denyGlobPattern = [] := by
    rw [filterMap_eq_nil_iff]
    intro entry he
    cases hp : entry.path with
    | globPattern pattern => exact absurd hp (h entry he pattern)
    | path path => simp [denyGlobPattern, hp]
    | special value => simp [denyGlobPattern, hp]
  simp only [denyReadGlobs, restricted, hnil]
  rfl

theorem matchesAnyGlob_nil (u : PathUri) : matchesAnyGlob [] u = false := by
  cases u <;> rfl

theorem readDenied_iff {entries : List FileSystemSandboxEntry} (hg : NoGlobs entries)
    {cs us : List Bytes} (hc : context.cwd.uri.lexical = some cs) {u : PathUri}
    (hu : u.lexical = some us) :
    ((restricted entries).readDenyMatcher context).any (matchesPreparedReadDeny u context) ↔
      ∃ d ∈ rulesOf context entries, d.access = .deny ∧ d.root ≠ [] ∧ d.root <+: us := by
  have hguard : ¬ (isPosix u = false ∨ u.lexicalDepth.isNone ∨
      context.cwd.uri.lexicalDepth.isNone) := by
    simp [isPosix, lexical_posix hu, lexicalDepth_of_lexical hu, lexicalDepth_of_lexical hc]
  have hmatch : matchesPreparedReadDeny u context
      ((restricted entries).prepareDenyReadMatcher context) ↔
        ∃ d ∈ rulesOf context entries, d.access = .deny ∧ d.root ≠ [] ∧ d.root <+: us := by
    simp only [matchesPreparedReadDeny, prepareDenyReadMatcher, denyReadGlobs_of_noGlobs hg,
      deniedRoots, hguard, if_false, map_nil, any_nil, filterMap_nil, Bool.false_eq_true,
      matchesAnyGlob_nil, Bool.or_false, any_eq_true, mem_map, mem_filter,
      Bool.and_eq_true, decide_eq_true_eq, Bool.not_eq_true', startsWith_iff hu,
      rulesOf, mem_lexicalRules]
    constructor
    · rintro ⟨v, ⟨⟨v', a⟩, ⟨hmem, hdeny, hfs⟩, rfl⟩, rs, hl, hpre⟩
      simp only at hmem hdeny hfs hl
      subst hdeny
      refine ⟨⟨rs, .deny⟩, ⟨v', hmem, hl⟩, rfl, fun hnil => ?_, hpre⟩
      rw [(isFileSystemRoot_iff hc).mpr (hnil ▸ hl)] at hfs
      exact absurd hfs (by decide)
    · rintro ⟨⟨rs, a⟩, ⟨v, hmem, hl⟩, hdeny, hne, hpre⟩
      refine ⟨v, ⟨(v, a), ⟨hmem, hdeny, ?_⟩, rfl⟩, rs, hl, hpre⟩
      rw [← Bool.not_eq_true, isFileSystemRoot_iff hc, hl, Option.some.injEq]
      exact hne
  unfold readDenyMatcher
  by_cases hany : (entries.any fun entry => entry.access = .deny)
  · simp only [restricted, hany, if_true, Option.any_some]
    exact hmatch
  · simp only [restricted, hany, Bool.false_eq_true, if_false, Option.any_none, false_iff]
    rintro ⟨d, hd, hdeny, _⟩
    obtain ⟨v, hv, _⟩ := mem_lexicalRules.mp hd
    obtain ⟨entry, he, ha, _⟩ := mem_resolvedEntries.mp hv
    refine hany (any_eq_true.mpr ⟨entry, he, ?_⟩)
    simp [ha, hdeny]

theorem accessCovers_iff (requested granted : FileSystemAccessMode) :
    accessCovers requested granted ↔ granted ≠ .deny ∧ granted.level ≤ requested.level := by
  cases requested <;> cases granted <;> decide

section WithinRequest

variable {requested : FileSystemPermissions} {entries : List FileSystemSandboxEntry}
  {cs : List Bytes}

def withinRequest (context : Context) (requested : FileSystemPermissions)
    (entries : List FileSystemSandboxEntry) (entry : FileSystemSandboxEntry) : Bool :=
  grantedFileSystemEntryWithinRequest requested (restricted entries)
    ((restricted entries).readDenyMatcher context) entry context

variable {e : FileSystemSandboxEntry}

section
variable (h : withinRequest context requested entries e = true)
include h

theorem withinRequest_readable : e.access ≠ .deny := by
  intro hdeny
  simp [withinRequest, grantedFileSystemEntryWithinRequest, hdeny,
    FileSystemAccessMode.canRead] at h

theorem withinRequest_resolve {u : PathUri} (hu : resolvePermissionPath context e.path = some u) :
    ((restricted entries).readDenyMatcher context).any (matchesPreparedReadDeny u context) = false ∧
      e.access.level ≤ ((restricted entries).resolveAccess u context).level := by
  simp only [withinRequest, grantedFileSystemEntryWithinRequest, hu] at h
  split at h
  · exact absurd h Bool.false_ne_true
  · split at h
    · exact absurd h Bool.false_ne_true
    · next hcond =>
      rw [not_or] at hcond
      exact ⟨by simpa using hcond.2, ((accessCovers_iff _ _).mp h).2⟩

theorem withinRequest_lexical {u : PathUri} (hu : resolvePermissionPath context e.path = some u) :
    ∃ us, u.lexical = some us := by
  cases hl : u.lexical with
  | some us => exact ⟨us, rfl⟩
  | none =>
    have hle := (withinRequest_resolve h hu).2
    rw [resolveAccess_of_not_lexical entries u context (.inl hl)] at hle
    have hpos := Rule.level_pos (withinRequest_readable h)
    simp only [Rule.level_deny] at hle
    omega

end

theorem withinRequest_iff (hg : NoGlobs entries) (hc : context.cwd.uri.lexical = some cs)
    (hamb : ¬ hasAmbiguous entries context) {u : PathUri} {us : List Bytes}
    (hu : resolvePermissionPath context e.path = some u) (hl : u.lexical = some us) :
    withinRequest context requested entries e ↔
      Rule.Within (rulesOf context entries) ⟨us, e.access⟩ := by
  have hres := resolveAccess_eq_resolve entries u context hl hc hamb
  have hdenied := readDenied_iff hg hc hl
  constructor
  · intro h
    obtain ⟨hnot, hle⟩ := withinRequest_resolve h hu
    refine ⟨withinRequest_readable h, hres ▸ hle, fun d hd hdeny hne hpre => ?_⟩
    rw [hdenied.mpr ⟨d, hd, hdeny, hne, hpre⟩] at hnot
    exact absurd hnot (by decide)
  · intro h
    have hread : e.access.canRead := by
      simpa [FileSystemAccessMode.canRead] using h.readable
    have hnot : ((restricted entries).readDenyMatcher context).any
        (matchesPreparedReadDeny u context) = false := by
      rw [← Bool.not_eq_true, hdenied]
      rintro ⟨d, hd, hdeny, hne, hpre⟩
      exact h.not_denied d hd hdeny hne hpre
    have hcov := (accessCovers_iff (Rule.resolve (rulesOf context entries) us) e.access).mpr
      ⟨h.readable, h.covered⟩
    simp [withinRequest, grantedFileSystemEntryWithinRequest, hread, hu, isPosix,
      lexical_posix hl, hnot, hres, hcov]

end WithinRequest

section Result

variable {requested : FileSystemPermissions} {req grant : List FileSystemSandboxEntry}

def resultEntries (context : Context) (requested : FileSystemPermissions)
    (req grant : List FileSystemSandboxEntry) : List FileSystemSandboxEntry :=
  let accepted := acceptedEntries context requested req grant
  retainConstrainingDenyEntries context grant accepted
    (retainConstrainingDenyEntries context req accepted accepted)

variable {e : FileSystemSandboxEntry}

theorem mem_acceptedEntries (h : e ∈ acceptedEntries context requested req grant) :
    e ∈ grant ∧ withinRequest context requested req e := by
  rcases mem_foldl_pushNew _ _ h with h | h
  · exact absurd h not_mem_nil
  · exact mem_filter.mp h

theorem exists_acceptedEntries (he : e ∈ grant) (h : withinRequest context requested req e) :
    ∃ e' ∈ acceptedEntries context requested req grant, e'.eq e :=
  exists_eq_foldl_pushNew _ _ (mem_filter.mpr ⟨he, h⟩)

theorem accepted_subset_result :
    acceptedEntries context requested req grant ⊆ resultEntries context requested req grant :=
  List.Subset.trans (subset_foldl_pushNew _ _) (subset_foldl_pushNew _ _)

theorem mem_resultEntries (h : e ∈ resultEntries context requested req grant) :
    e ∈ acceptedEntries context requested req grant ∨
      (e.access = .deny ∧ (e ∈ req ∨ e ∈ grant)) := by
  have hret : ∀ {source accepted : List FileSystemSandboxEntry},
      e ∈ retainedDenyEntries context source accepted → e.access = .deny ∧ e ∈ source := by
    intro source accepted hmem
    have hf := mem_filter.mp hmem
    simp only [Bool.and_eq_true, decide_eq_true_eq] at hf
    exact ⟨hf.2.1, hf.1⟩
  rcases mem_foldl_pushNew _ _ h with h | h
  · rcases mem_foldl_pushNew _ _ h with h | h
    · exact .inl h
    · exact .inr ⟨(hret h).1, .inl (hret h).2⟩
  · exact .inr ⟨(hret h).1, .inr (hret h).2⟩

theorem resultEntries_subset (h : e ∈ resultEntries context requested req grant) :
    e ∈ req ∨ e ∈ grant := by
  rcases mem_resultEntries h with h | ⟨_, h⟩
  · exact .inr (mem_acceptedEntries h).1
  · exact h

theorem exists_retained {d : FileSystemSandboxEntry} (hd : d ∈ req ∨ d ∈ grant)
    (hdeny : d.access = .deny) (he : e ∈ acceptedEntries context requested req grant)
    (h : denyEntryConstrains context d e) :
    ∃ d' ∈ resultEntries context requested req grant, d'.eq d := by
  have hread : e.access.canRead := by
    simpa [FileSystemAccessMode.canRead] using withinRequest_readable (mem_acceptedEntries he).2
  have hret : ∀ {source : List FileSystemSandboxEntry}, d ∈ source →
      d ∈ retainedDenyEntries context source (acceptedEntries context requested req grant) := by
    intro source hs
    refine mem_filter.mpr ⟨hs, ?_⟩
    simp only [hdeny, decide_true, Bool.true_and, denyEntryConstrainsAcceptedGrant]
    exact any_eq_true.mpr ⟨e, mem_filter.mpr ⟨he, hread⟩, h⟩
  rcases hd with hd | hd
  · obtain ⟨d', hd', heq⟩ := exists_eq_foldl_pushNew _
      (acceptedEntries context requested req grant) (hret hd)
    exact ⟨d', subset_foldl_pushNew _ _ hd', heq⟩
  · exact exists_eq_foldl_pushNew _ _ (hret hd)

theorem denyEntryConstrains_of_overlap {d : FileSystemSandboxEntry} {u v : PathUri}
    (hu : resolvePermissionPath context e.path = some u)
    (hv : resolvePermissionPath context d.path = some v) (h : (v.overlaps u).getD true) :
    denyEntryConstrains context d e := by
  unfold denyEntryConstrains
  split
  · rfl
  · cases hd : d.path with
    | globPattern pattern => simp [hd, resolvePermissionPath] at hv
    | path path =>
      rw [hd] at hv
      simpa [hu, hv, pathsOverlap] using h
    | special value =>
      rw [hd] at hv
      simpa [hu, hv, pathsOverlap] using h

theorem singleRoots_result (requested : FileSystemPermissions) (hr : SingleRoots context req)
    (hg : SingleRoots context grant) :
    SingleRoots context (resultEntries context requested req grant) := by
  intro e he
  rcases resultEntries_subset he with h | h
  · exact hr e h
  · exact hg e h

theorem isIntersection_rulesOf (requested : FileSystemPermissions) {cs : List Bytes}
    (hr : SingleRoots context req) (hg : SingleRoots context grant) (hglob : NoGlobs req)
    (hc : context.cwd.uri.lexical = some cs) (hamb : ¬ hasAmbiguous req context) :
    Rule.IsIntersection (rulesOf context req) (rulesOf context grant)
      (rulesOf context (resultEntries context requested req grant)) := by
  have hs := singleRoots_result requested hr hg
  constructor
  · -- What the result permits was accepted.
    intro r hrm hread
    obtain ⟨e, he, ha, u, hu, hl⟩ := (mem_rulesOf_iff hs).mp hrm
    rcases mem_resultEntries he with hacc | ⟨hdeny, _⟩
    · obtain ⟨heg, hw⟩ := mem_acceptedEntries hacc
      have hwithin := (withinRequest_iff hglob hc hamb hu hl).mp hw
      refine ⟨(mem_rulesOf_iff hg).mpr ⟨e, heg, ha, u, hu, hl⟩, ?_⟩
      rw [ha] at hwithin
      exact hwithin
    · exact absurd (ha.symm.trans hdeny) hread
  · intro r hrm hw
    obtain ⟨e, he, ha, u, hu, hl⟩ := (mem_rulesOf_iff hg).mp hrm
    have hwithin : withinRequest context requested req e := by
      rw [withinRequest_iff hglob hc hamb hu hl, ha]
      exact hw
    obtain ⟨e', he', heq⟩ := exists_acceptedEntries he hwithin
    obtain rfl := eq_of_entry_eq_of_resolved heq hu (lexical_posix hl)
    exact (mem_rulesOf_iff hs).mpr ⟨e', accepted_subset_result he', ha, u, hu, hl⟩
  · intro d hdm hdeny
    obtain ⟨e, he, hrule⟩ := (mem_rulesOf_iff hs).mp hdm
    exact (mem_rulesOf_or_iff hr hg).mpr ⟨e, resultEntries_subset he, hrule⟩
  · intro d hd hdeny r hrm hread hover
    obtain ⟨e, he, hea, u, hu, hl⟩ := (mem_rulesOf_iff hs).mp hrm
    have hacc : e ∈ acceptedEntries context requested req grant := by
      rcases mem_resultEntries he with h | ⟨h, _⟩
      · exact h
      · exact absurd (hea.symm.trans h) hread
    obtain ⟨m, hm, hma, v, hv, hvl⟩ := (mem_rulesOf_or_iff hr hg).mp hd
    have hcon := denyEntryConstrains_of_overlap hu hv (overlaps_of_lexical hvl hl hover)
    obtain ⟨d', hd', heq⟩ := exists_retained hm (hma.trans hdeny) hacc hcon
    obtain rfl := eq_of_entry_eq_of_resolved heq hv (lexical_posix hvl)
    exact (mem_rulesOf_iff hs).mpr ⟨d', hd', hma, v, hv, hvl⟩

end Result

end Codex.Sandboxing

import Codex.Permissions.Resolution
import Codex.Sandboxing.PolicyTransforms

/-! `materialize_context_dependent_entries` keeps the resolved roots as they are, and every
materialised entry has at most one. -/

namespace Codex.Sandboxing
open Codex.Lib Codex.Permissions FileSystemSandboxPolicy List Option

variable {context : Context}

variable {entries materialized l : List FileSystemSandboxEntry} {entry : FileSystemSandboxEntry}

theorem mem_materialized
    (h : materializeContextDependentEntries context entries = some materialized)
    {m : FileSystemSandboxEntry} :
    m ∈ materialized ↔ ∃ entry ∈ entries, ∃ l, materializeEntry context entry = some l ∧ m ∈ l := by
  induction entries generalizing materialized with
  | nil =>
    simp only [materializeContextDependentEntries, Option.some.injEq] at h
    simp [← h]
  | cons entry rest ih =>
    simp only [materializeContextDependentEntries, bind_eq_some_iff, map_eq_some_iff] at h
    obtain ⟨l, hl, ms, hms, rfl⟩ := h
    rw [mem_append, ih hms]
    simp [hl]

theorem materializeEntry_cases (h : materializeEntry context entry = some l) :
    (∃ paths, l = paths.map (materializedPathEntry entry) ∧ entryPaths context entry.path = paths) ∨
    (l = [entry] ∧ entryPaths context entry.path =
      (resolvePermissionPath context entry.path).toList) ∨
    (∃ pattern, entry.path = .globPattern pattern ∧
      (l = [] ∨ ∃ pattern', l = [{ entry with path := .globPattern pattern' }])) := by
  unfold materializeEntry at h
  obtain ⟨path, access, skipMissing⟩ := entry
  cases path with
  | path path =>
    simp only [materializeCwdDependentEntry, Option.some.injEq] at h
    exact .inr (.inl ⟨h.symm, rfl⟩)
  | globPattern pattern =>
    refine .inr (.inr ⟨pattern, rfl, ?_⟩)
    simp only [materializeCwdDependentEntry] at h
    cases hg : materializeGlob context pattern with
    | none =>
      simp only [hg, map_none] at h
      split at h
      · simp at h
      · simp only [Option.some.injEq] at h
        exact .inl h.symm
    | some pattern' =>
      simp only [hg, map_some, Option.some.injEq] at h
      exact .inr ⟨pattern', h.symm⟩
  | special value =>
    cases value with
    | root =>
      simp only [map_eq_some_iff] at h
      obtain ⟨_, _, rfl⟩ := h
      exact .inr (.inl ⟨rfl, rfl⟩)
    | projectRoots subpath =>
      simp only at h
      split at h
      · simp at h
      · simp only [Option.some.injEq] at h
        refine .inl ⟨_, h.symm, ?_⟩
        simp only [entryPaths, filterMap_map, Function.comp_def, id]
    | tmpdir =>
      cases ht : context.temporaryDirectories with
      | none =>
        simp only [ht] at h
        split at h
        · simp at h
        · simp only [Option.some.injEq] at h
          refine .inr (.inl ⟨h.symm, ?_⟩)
          simp [entryPaths, resolvePermissionPath, ht]
      | some directories =>
        simp only [ht, Option.some.injEq] at h
        exact .inl ⟨directories, h.symm, by simp [entryPaths, ht]⟩
    | slashTmp | minimal | unknown path subpath =>
      simp only [materializeCwdDependentEntry, Option.some.injEq] at h
      exact .inr (.inl ⟨h.symm, rfl⟩)

def SingleRoots (context : Context) (entries : List FileSystemSandboxEntry) : Prop :=
  ∀ m ∈ entries, entryPaths context m.path = (resolvePermissionPath context m.path).toList

theorem singleRoots_materialized
    (h : materializeContextDependentEntries context entries = some materialized) :
    SingleRoots context materialized := by
  intro m hm
  obtain ⟨entry, _, l, hl, hml⟩ := (mem_materialized h).mp hm
  rcases materializeEntry_cases hl with ⟨paths, rfl, _⟩ | ⟨rfl, he⟩ | ⟨_, _, rfl | ⟨_, rfl⟩⟩
  · obtain ⟨path, _, rfl⟩ := List.mem_map.mp hml
    rfl
  · rw [mem_singleton] at hml
    rw [hml, he]
  · exact absurd hml not_mem_nil
  · rw [mem_singleton] at hml
    rw [hml]
    rfl

theorem access_materializeEntry {m : FileSystemSandboxEntry}
    (h : materializeEntry context entry = some l) (hm : m ∈ l) : m.access = entry.access := by
  rcases materializeEntry_cases h with ⟨paths, rfl, _⟩ | ⟨rfl, _⟩ | ⟨_, _, rfl | ⟨_, rfl⟩⟩
  · obtain ⟨path, _, rfl⟩ := List.mem_map.mp hm
    rfl
  · rw [mem_singleton.mp hm]
  · exact absurd hm not_mem_nil
  · rw [mem_singleton.mp hm]

theorem mem_entryPaths_materializeEntry (h : materializeEntry context entry = some l)
    (u : PathUri) :
    (∃ m ∈ l, u ∈ entryPaths context m.path) ↔ u ∈ entryPaths context entry.path := by
  rcases materializeEntry_cases h with ⟨paths, rfl, hp⟩ | ⟨rfl, _⟩ | ⟨_, hg, rfl | ⟨_, rfl⟩⟩
  · rw [hp]
    constructor
    · rintro ⟨m, hm, hu⟩
      obtain ⟨path, hpath, rfl⟩ := List.mem_map.mp hm
      exact mem_singleton.mp hu ▸ hpath
    · intro hu
      exact ⟨_, mem_map_of_mem hu, mem_singleton.mpr rfl⟩
  · simp
  · simp [hg, entryPaths]
  · simp [hg, entryPaths]

section
variable (h : materializeContextDependentEntries context entries = some materialized)
include h

theorem exists_materializeEntry (he : entry ∈ entries) :
    ∃ l, materializeEntry context entry = some l := by
  induction entries generalizing materialized with
  | nil => exact absurd he not_mem_nil
  | cons first rest ih =>
    simp only [materializeContextDependentEntries, bind_eq_some_iff, map_eq_some_iff] at h
    obtain ⟨l, hl, ms, hms, _⟩ := h
    rcases mem_cons.mp he with rfl | he
    · exact ⟨l, hl⟩
    · exact ih hms he

theorem mem_resolvedEntries_materialized (e : PathUri × FileSystemAccessMode) :
    e ∈ (restricted materialized).resolvedEntries context ↔
      e ∈ (restricted entries).resolvedEntries context := by
  obtain ⟨u, a⟩ := e
  rw [mem_resolvedEntries, mem_resolvedEntries]
  constructor
  · rintro ⟨m, hm, ha, hu, hp⟩
    obtain ⟨entry, he, l, hl, hml⟩ := (mem_materialized h).mp hm
    have hu' := (mem_entryPaths_materializeEntry hl u).mp ⟨m, hml, hu⟩
    exact ⟨entry, he, (access_materializeEntry hl hml).symm.trans ha, hu', hp⟩
  · rintro ⟨entry, he, ha, hu, hp⟩
    obtain ⟨l, hl⟩ := exists_materializeEntry h he
    obtain ⟨m, hml, hu'⟩ := (mem_entryPaths_materializeEntry hl u).mpr hu
    have hm := (mem_materialized h).mpr ⟨entry, he, l, hl, hml⟩
    exact ⟨m, hm, (access_materializeEntry hl hml).trans ha, hu', hp⟩

theorem resolveAccess_materialized (p : PathUri) :
    (restricted materialized).resolveAccess p context =
      (restricted entries).resolveAccess p context :=
  resolveAccess_congr (mem_resolvedEntries_materialized h) p

end

theorem mem_resolvedEntries_iff (h : SingleRoots context entries) {u : PathUri}
    {a : FileSystemAccessMode} : (u, a) ∈ (restricted entries).resolvedEntries context ↔
      ∃ m ∈ entries, m.access = a ∧ resolvePermissionPath context m.path = some u ∧
        u.inferPathConvention = some .posix := by
  rw [mem_resolvedEntries]
  constructor
  · rintro ⟨m, hm, ha, hu, hp⟩
    rw [h m hm, mem_toList] at hu
    exact ⟨m, hm, ha, hu, hp⟩
  · rintro ⟨m, hm, ha, hu, hp⟩
    refine ⟨m, hm, ha, ?_, hp⟩
    rw [h m hm, mem_toList]
    exact hu

theorem mem_rulesOf_iff (h : SingleRoots context entries) {r : Rule Bytes} :
    r ∈ rulesOf context entries ↔ ∃ m ∈ entries, m.access = r.access ∧
      ∃ u, resolvePermissionPath context m.path = some u ∧ u.lexical = some r.root := by
  simp only [rulesOf, mem_lexicalRules, mem_resolvedEntries_iff h]
  constructor
  · rintro ⟨u, ⟨m, hm, ha, hu, _⟩, hl⟩
    exact ⟨m, hm, ha, u, hu, hl⟩
  · rintro ⟨m, hm, ha, u, hu, hl⟩
    exact ⟨u, ⟨m, hm, ha, hu, PathUri.lexical_posix hl⟩, hl⟩

theorem mem_rulesOf_or_iff {other : List FileSystemSandboxEntry}
    (h : SingleRoots context entries) (hother : SingleRoots context other) {r : Rule Bytes} :
    r ∈ rulesOf context entries ∨ r ∈ rulesOf context other ↔
      ∃ m, (m ∈ entries ∨ m ∈ other) ∧ m.access = r.access ∧
        ∃ u, resolvePermissionPath context m.path = some u ∧ u.lexical = some r.root := by
  simp only [mem_rulesOf_iff h, mem_rulesOf_iff hother, or_and_right, exists_or]

theorem noGlobs_materialized
    (h : materializeContextDependentEntries context entries = some materialized)
    (hg : NoGlobs entries) : NoGlobs materialized := by
  intro m hm pattern
  obtain ⟨entry, he, l, hl, hml⟩ := (mem_materialized h).mp hm
  rcases materializeEntry_cases hl with ⟨paths, rfl, _⟩ | ⟨rfl, _⟩ | ⟨p, hp, _⟩
  · obtain ⟨path, _, rfl⟩ := List.mem_map.mp hml
    simp [materializedPathEntry]
  · rw [mem_singleton.mp hml]
    exact hg entry he pattern
  · exact absurd hp (hg entry he p)

end Codex.Sandboxing

import Codex.PathUri.Lexical
import Codex.Permissions.Rules

/-! `resolve_access` computes the access of the most specific rule; one ambiguous root denies
everything. -/

namespace Codex.Permissions
open Codex.Lib MaxByKey FileSystemSandboxPolicy List Option PathUri

def lexicalRules (roots : List (PathUri × FileSystemAccessMode)) : List (Rule Bytes) :=
  roots.filterMap fun e => e.1.lexical.map fun root => ⟨root, e.2⟩

variable {roots : List (PathUri × FileSystemAccessMode)} {context : Context}

theorem mem_lexicalRules {r : Rule Bytes} :
    r ∈ lexicalRules roots ↔ ∃ u, (u, r.access) ∈ roots ∧ u.lexical = some r.root := by
  simp only [lexicalRules, mem_filterMap, map_eq_some_iff]
  constructor
  · rintro ⟨⟨u, a⟩, hmem, root, hl, rfl⟩
    exact ⟨u, hmem, hl⟩
  · rintro ⟨u, hmem, hl⟩
    exact ⟨(u, r.access), hmem, r.root, hl, rfl⟩

theorem mem_resolvedEntries {policy : FileSystemSandboxPolicy} {u : PathUri}
    {a : FileSystemAccessMode} : (u, a) ∈ policy.resolvedEntries context ↔
      ∃ entry ∈ policy.entries, entry.access = a ∧ u ∈ entryPaths context entry.path ∧
        u.inferPathConvention = some .posix := by
  simp only [resolvedEntries, mem_flatMap, List.mem_map, mem_filter, isPosix,
    decide_eq_true_eq, Prod.mk.injEq]
  constructor
  · rintro ⟨entry, he, _, ⟨hu, hp⟩, rfl, rfl⟩
    exact ⟨entry, he, rfl, hu, hp⟩
  · rintro ⟨entry, he, ha, hu, hp⟩
    exact ⟨entry, he, u, ⟨hu, hp⟩, rfl, ha⟩

theorem isAmbiguous_iff {u : PathUri} (h : u.inferPathConvention = some .posix) :
    u.isAmbiguous ↔ u.lexicalDepth = none ∧ u.isOpaque = false := by
  simp [PathUri.isAmbiguous, h, and_comm]

theorem lexicalEntries_eq_none (hp : ∀ e ∈ roots, e.1.inferPathConvention = some .posix) :
    lexicalEntries roots = none ↔ ∃ e ∈ roots, e.1.isAmbiguous := by
  induction roots with
  | nil => simp [lexicalEntries]
  | cons e roots ih =>
    obtain ⟨u, a⟩ := e
    have hu := hp (u, a) mem_cons_self
    have hrest := ih fun e he => hp e (mem_cons_of_mem _ he)
    simp only [mem_cons, exists_eq_or_imp, isAmbiguous_iff hu, ← hrest]
    cases hd : u.lexicalDepth with
    | some depth => simp [lexicalEntries, hd]
    | none => cases ho : u.isOpaque <;> simp [lexicalEntries, hd, ho]

theorem lexicalEntries_eq_some {entries : List (PathUri × FileSystemAccessMode × Nat)}
    (hp : ∀ e ∈ roots, e.1.inferPathConvention = some .posix)
    (h : lexicalEntries roots = some entries) :
    entries = roots.filterMap fun e => e.1.lexical.map fun root => (e.1, e.2, root.length) := by
  induction roots generalizing entries with
  | nil =>
    simp only [lexicalEntries, Option.some.injEq] at h
    rw [← h]
    rfl
  | cons e roots ih =>
    obtain ⟨u, a⟩ := e
    have hu := hp (u, a) mem_cons_self
    have hrest : ∀ {l}, lexicalEntries roots = some l → _ := fun hl =>
      ih (fun e he => hp e (mem_cons_of_mem _ he)) hl
    have hdepth := lexicalDepth_of_posix hu
    cases hl : u.lexical with
    | some us =>
      rw [hl, map_some] at hdepth
      simp only [lexicalEntries, hdepth, map_eq_some_iff] at h
      obtain ⟨l, hl', rfl⟩ := h
      simp [hl, ← hrest hl']
    | none =>
      rw [hl, map_none] at hdepth
      cases ho : u.isOpaque with
      | true =>
        simp only [lexicalEntries, hdepth, ho, if_true] at h
        simp [hl, ← hrest h]
      | false => simp [lexicalEntries, hdepth, ho] at h

variable (entries : List FileSystemSandboxEntry) (p : PathUri)

theorem resolveAccess_of_not_lexical (context : Context)
    (h : p.lexical = none ∨ context.cwd.uri.lexical = none) :
    (restricted entries).resolveAccess p context = .deny := by
  have hcond : isPosix p = false ∨ p.lexicalDepth.isNone ∨
      context.cwd.uri.lexicalDepth.isNone := by
    rcases h with h | h
    · rcases lexical_eq_none_iff.mp h with h | h
      · exact .inl (by simpa [isPosix] using h)
      · exact .inr (.inl (by simp [h]))
    · rcases lexical_eq_none_iff.mp h with h | h
      · exact absurd context.cwd.posix h
      · exact .inr (.inr (by simp [h]))
  simp only [resolveAccess, restricted, ne_eq, not_true_eq_false, if_false, hcond, if_true]

def hasAmbiguous (entries : List FileSystemSandboxEntry) (context : Context) : Prop :=
  ∃ e ∈ (restricted entries).resolvedEntries context, e.1.isAmbiguous = true

theorem resolvedEntries_posix (policy : FileSystemSandboxPolicy) (context : Context) :
    ∀ e ∈ policy.resolvedEntries context, e.1.inferPathConvention = some .posix := by
  rintro ⟨u, a⟩ he
  obtain ⟨_, _, _, _, hp⟩ := mem_resolvedEntries.mp he
  exact hp

theorem resolveAccess_of_ambiguous (context : Context) (h : hasAmbiguous entries context) :
    (restricted entries).resolveAccess p context = .deny := by
  have hnone := (lexicalEntries_eq_none (resolvedEntries_posix (restricted entries) context)).mpr h
  simp only [resolveAccess, hnone]
  simp [restricted]

def rulesOf (context : Context) (entries : List FileSystemSandboxEntry) : List (Rule Bytes) :=
  lexicalRules ((restricted entries).resolvedEntries context)

theorem mem_covering_iff {p : PathUri} {ps : List Bytes} (hp : p.lexical = some ps)
    {e : PathUri × FileSystemAccessMode × Nat} :
    e ∈ (roots.filterMap fun e => e.1.lexical.map fun root => (e.1, e.2, root.length)).filter
        (fun e => p.startsWith e.1) ↔
      ∃ rs, (e.1, e.2.1) ∈ roots ∧ e.1.lexical = some rs ∧ e.2.2 = rs.length ∧ rs <+: ps := by
  obtain ⟨u, a, n⟩ := e
  simp only [mem_filter, mem_filterMap, map_eq_some_iff, Prod.mk.injEq, startsWith_iff hp]
  constructor
  · rintro ⟨⟨⟨v, b⟩, hmem, root, hl, rfl, rfl, rfl⟩, rs, hrs, hpre⟩
    obtain rfl : root = rs := by simpa [hl] using hrs
    exact ⟨root, hmem, hl, rfl, hpre⟩
  · rintro ⟨rs, hmem, hl, rfl, hpre⟩
    exact ⟨⟨(u, a), hmem, rs, hl, rfl, rfl, rfl⟩, rs, hl, hpre⟩

/-- Resolution is by the most specific rule, unless a root is ambiguous. -/
theorem resolveAccess_eq_resolve (context : Context) {ps cs : List Bytes} (hp : p.lexical = some ps)
    (hc : context.cwd.uri.lexical = some cs) (h : ¬ hasAmbiguous entries context) :
    (restricted entries).resolveAccess p context = Rule.resolve (rulesOf context entries) ps := by
  have hposix := resolvedEntries_posix (restricted entries) context
  have hguard : ¬ (isPosix p = false ∨ p.lexicalDepth.isNone ∨
      context.cwd.uri.lexicalDepth.isNone) := by
    simp [isPosix, lexical_posix hp, lexicalDepth_of_lexical hp, lexicalDepth_of_lexical hc]
  cases hl : lexicalEntries ((restricted entries).resolvedEntries context) with
  | none => exact absurd ((lexicalEntries_eq_none hposix).mp hl) h
  | some l =>
    have hle := lexicalEntries_eq_some hposix hl
    have hkind : (restricted entries).kind = .restricted := rfl
    simp only [resolveAccess, hkind, ne_eq, not_true_eq_false, if_false, hguard, hl]
    cases hm : maxByKey entryKey (l.filter fun e => p.startsWith e.1) with
    | none =>
      have hnil := (maxByKey_eq_none_iff entryKey _).mp hm
      rcases Rule.resolve_cases (rulesOf context entries) ps with ⟨w, hw, _⟩ | ⟨_, hr⟩
      · obtain ⟨u, hu, hul⟩ := mem_lexicalRules.mp hw.mem
        have hmem := (mem_covering_iff hp (e := (u, w.access, w.root.length))).mpr
          ⟨w.root, hu, hul, rfl, hw.covers⟩
        rw [← hle, hnil] at hmem
        exact absurd hmem not_mem_nil
      · rw [hr]
        rfl
    | some e =>
      obtain ⟨hmem, hmax⟩ := maxByKey_spec entryKey hm
      rw [hle, mem_covering_iff hp] at hmem
      obtain ⟨rs, hroot, hlex, hlen, hpre⟩ := hmem
      have hdec : Rule.Decides (rulesOf context entries) ps ⟨rs, e.2.1⟩ := by
        refine ⟨mem_lexicalRules.mpr ⟨e.1, hroot, hlex⟩, hpre, fun r hr hcov => ?_⟩
        obtain ⟨v, hv, hvl⟩ := mem_lexicalRules.mp hr
        have hin := (mem_covering_iff hp (e := (v, r.access, r.root.length))).mpr
          ⟨r.root, hv, hvl, rfl, hcov⟩
        have hkey := hmax (v, r.access, r.root.length) (hle ▸ hin)
        simpa [entryKey, Rule.key, hlen] using hkey
      rw [hdec.resolve_eq]
      rfl

theorem resolveAccess_restricted {policy : FileSystemSandboxPolicy} (h : policy.kind = .restricted)
    (p : PathUri) :
    policy.resolveAccess p context = (restricted policy.entries).resolveAccess p context := by
  obtain ⟨kind, depth, entries⟩ := policy
  obtain rfl : kind = .restricted := h
  rfl

theorem eq_of_entry_eq {entry other : FileSystemSandboxEntry} (h : other.eq entry)
    (hposix : ∀ u, entry.path = .path u → u.inferPathConvention = some .posix) :
    other = entry := by
  obtain ⟨path, access, skipMissing⟩ := entry
  obtain ⟨path', access', skipMissing'⟩ := other
  simp only [FileSystemSandboxEntry.eq, Bool.and_eq_true, decide_eq_true_eq] at h
  obtain ⟨⟨heq, rfl⟩, rfl⟩ := h
  cases path <;> cases path' <;> simp only [FileSystemPath.eq, Bool.false_eq_true,
    decide_eq_true_eq] at heq
  case path.path u v => rw [(eq_iff_of_posix_right (hposix u rfl)).mp heq]
  all_goals rw [heq]

theorem eq_of_entry_eq_of_mem {entry other : FileSystemSandboxEntry} {u : PathUri}
    (h : other.eq entry) (hu : u ∈ entryPaths context entry.path)
    (hposix : u.inferPathConvention = some .posix) : other = entry := by
  refine eq_of_entry_eq h fun v hv => ?_
  rw [hv, entryPaths, mem_singleton] at hu
  exact hu ▸ hposix

theorem entry_eq_refl (e : FileSystemSandboxEntry) : e.eq e := by
  obtain ⟨path, access, skipMissing⟩ := e
  cases path <;> simp [FileSystemSandboxEntry.eq, FileSystemPath.eq, PathUri.eq]

section
variable {e : FileSystemSandboxEntry}

theorem mem_foldl_pushNew (l output : List FileSystemSandboxEntry)
    (h : e ∈ l.foldl pushNew output) : e ∈ output ∨ e ∈ l := by
  induction l generalizing output with
  | nil => exact .inl h
  | cons a l ih =>
    rw [foldl_cons] at h
    rcases ih _ h with h | h
    · unfold pushNew at h
      split at h
      · exact .inl h
      · rcases mem_append.mp h with h | h
        · exact .inl h
        · exact .inr (mem_singleton.mp h ▸ mem_cons_self)
    · exact .inr (mem_cons_of_mem a h)

theorem subset_foldl_pushNew (l output : List FileSystemSandboxEntry) :
    output ⊆ l.foldl pushNew output := by
  induction l generalizing output with
  | nil => exact List.Subset.refl output
  | cons a l ih =>
    rw [foldl_cons]
    refine List.Subset.trans ?_ (ih _)
    unfold pushNew
    split
    · exact List.Subset.refl output
    · exact subset_append_left output [a]

theorem exists_eq_foldl_pushNew (l output : List FileSystemSandboxEntry) (h : e ∈ l) :
    ∃ e' ∈ l.foldl pushNew output, e'.eq e := by
  induction l generalizing output with
  | nil => exact absurd h not_mem_nil
  | cons a l ih =>
    rw [foldl_cons]
    rcases mem_cons.mp h with rfl | h
    · have hpush : ∃ e' ∈ pushNew output e, e'.eq e := by
        unfold pushNew
        split
        · next hany => simpa using hany
        · exact ⟨e, mem_append_right _ (mem_singleton.mpr rfl), entry_eq_refl e⟩
      obtain ⟨e', he', heq⟩ := hpush
      exact ⟨e', subset_foldl_pushNew l _ he', heq⟩
    · exact ih _ h

end

theorem isFileSystemRoot_iff {cs : List Bytes} (hc : context.cwd.uri.lexical = some cs)
    {u : PathUri} : isFileSystemRoot context u ↔ u.lexical = some [] := by
  have hroot := root_lexical hc
  have hfs : fileSystemRoot context = some context.cwd.uri.root := by
    simp [fileSystemRoot, lexicalDepth_of_lexical hc]
  simp only [isFileSystemRoot, hfs, Option.any_some, Bool.and_eq_true,
    startsWith_iff hroot, prefix_nil]
  constructor
  · rintro ⟨_, rs, hl, rfl⟩
    exact hl
  · intro hl
    exact ⟨(startsWith_iff hl).mpr ⟨[], hroot, prefix_rfl⟩, [], hl, rfl⟩

theorem cwd_lexical_of_fileSystemRoot {root : PathUri} (h : fileSystemRoot context = some root) :
    ∃ cs, context.cwd.uri.lexical = some cs := by
  rw [fileSystemRoot] at h
  split at h
  · cases h
  · next hdepth =>
    rw [lexicalDepth_of_posix context.cwd.posix, isNone_map, Bool.not_eq_true,
      isNone_eq_false_iff] at hdepth
    exact isSome_iff_exists.mp hdepth

theorem resolveAccess_congr {entries entries' : List FileSystemSandboxEntry}
    (h : ∀ e, e ∈ (restricted entries).resolvedEntries context ↔
      e ∈ (restricted entries').resolvedEntries context) (p : PathUri) :
    (restricted entries).resolveAccess p context =
      (restricted entries').resolveAccess p context := by
  have hambiguous : hasAmbiguous entries context ↔ hasAmbiguous entries' context := by
    simp only [hasAmbiguous, h]
  by_cases hamb : hasAmbiguous entries' context
  · rw [resolveAccess_of_ambiguous entries p context (hambiguous.mpr hamb),
      resolveAccess_of_ambiguous entries' p context hamb]
  · cases hp : p.lexical with
    | none => rw [resolveAccess_of_not_lexical _ p context (.inl hp),
        resolveAccess_of_not_lexical _ p context (.inl hp)]
    | some ps =>
      cases hc : context.cwd.uri.lexical with
      | none => rw [resolveAccess_of_not_lexical _ p context (.inr hc),
          resolveAccess_of_not_lexical _ p context (.inr hc)]
      | some cs =>
        have hrules : ∀ r, r ∈ rulesOf context entries ↔ r ∈ rulesOf context entries' := by
          simp only [rulesOf, mem_lexicalRules, h, implies_true]
        rw [resolveAccess_eq_resolve entries p context hp hc (hambiguous.not.mpr hamb),
          resolveAccess_eq_resolve entries' p context hp hc hamb, Rule.resolve_congr hrules]

/-- The most specific entry over a path gives write access, and no root is ambiguous. -/
def WriteDecides (entries : List FileSystemSandboxEntry) (context : Context) (p : PathUri) : Prop :=
  ¬ hasAmbiguous entries context ∧ context.cwd.uri.lexical ≠ none ∧
    ∃ ps w, p.lexical = some ps ∧ Rule.Decides (rulesOf context entries) ps w ∧ w.access = .write

theorem resolveAccess_eq_write_iff (context : Context) :
    (restricted entries).resolveAccess p context = .write ↔ WriteDecides entries context p := by
  by_cases hamb : hasAmbiguous entries context
  · rw [resolveAccess_of_ambiguous entries p context hamb]
    exact iff_of_false (by decide) fun h => h.1 hamb
  · cases hc : context.cwd.uri.lexical with
    | none =>
      rw [resolveAccess_of_not_lexical entries p context (.inr hc)]
      exact iff_of_false (by decide) fun h => h.2.1 hc
    | some cs =>
      cases hp : p.lexical with
      | none =>
        rw [resolveAccess_of_not_lexical entries p context (.inl hp)]
        refine iff_of_false (by decide) fun ⟨_, _, ps, _, hps, _⟩ => ?_
        exact nomatch hp.symm.trans hps
      | some ps =>
        rw [resolveAccess_eq_resolve entries p context hp hc hamb]
        constructor
        · intro hwrite
          rcases Rule.resolve_cases (rulesOf context entries) ps with ⟨w, hw, hr⟩ | ⟨_, hr⟩
          · exact ⟨hamb, by simp [hc], ps, w, hp, hw, hr.symm.trans hwrite⟩
          · exact nomatch hr.symm.trans hwrite
        · intro ⟨_, _, qs, w, hqs, hw, hwrite⟩
          obtain rfl := Option.some.inj (hp.symm.trans hqs)
          rw [hw.resolve_eq, hwrite]

end Codex.Permissions

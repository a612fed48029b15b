import Codex.Permissions.FullDisk
import Codex.Sandboxing.Intersection

/-! `effective_file_system_sandbox_policy` of `sandboxing/src/policy_transforms.rs`. The additional
entries compete with those of the policy by depth, so that a grant to read takes back write access
above it. -/

namespace Codex.Sandboxing
open Codex.Lib Codex.Permissions FileSystemSandboxPolicy Rule List Option PathUri

def mergeFileSystemPolicyWithAdditionalPermissions (fileSystemPolicy : FileSystemSandboxPolicy)
    (additionalPermissions : FileSystemPermissions) : FileSystemSandboxPolicy :=
  match fileSystemPolicy.kind with
  | .restricted =>
    { fileSystemPolicy with
      entries := additionalPermissions.entries.foldl pushNew fileSystemPolicy.entries
      globScanMaxDepth :=
        mergeGlobScanMaxDepth fileSystemPolicy.entries fileSystemPolicy.globScanMaxDepth
          additionalPermissions.entries additionalPermissions.globScanMaxDepth }
  | .unrestricted | .externalSandbox => fileSystemPolicy

def effectiveFileSystemSandboxPolicy (fileSystemPolicy : FileSystemSandboxPolicy)
    (additionalPermissions : Option AdditionalPermissionProfile) : FileSystemSandboxPolicy :=
  match additionalPermissions.bind AdditionalPermissionProfile.fileSystem with
  | none => fileSystemPolicy
  | some fileSystemPermissions =>
    if fileSystemPermissions.entries.isEmpty then fileSystemPolicy
    else mergeFileSystemPolicyWithAdditionalPermissions fileSystemPolicy fileSystemPermissions

variable {context : Context} {base added : List FileSystemSandboxEntry}

theorem mem_resolvedEntries_foldl_pushNew (e : PathUri × FileSystemAccessMode) :
    e ∈ (restricted (added.foldl pushNew base)).resolvedEntries context ↔
      e ∈ (restricted (base ++ added)).resolvedEntries context := by
  obtain ⟨u, access⟩ := e
  simp only [mem_resolvedEntries, restricted, mem_append]
  constructor
  · rintro ⟨entry, hentry, h⟩
    exact ⟨entry, mem_foldl_pushNew added base hentry, h⟩
  · rintro ⟨entry, hentry | hentry, haccess, hu, hposix⟩
    · exact ⟨entry, subset_foldl_pushNew added base hentry, haccess, hu, hposix⟩
    · obtain ⟨other, hother, heq⟩ := exists_eq_foldl_pushNew added base hentry
      obtain rfl := eq_of_entry_eq_of_mem heq hu hposix
      exact ⟨other, hother, haccess, hu, hposix⟩

theorem resolveAccess_effective {policy : FileSystemSandboxPolicy}
    (h : policy.kind = .restricted) (additional : AdditionalPermissionProfile) (p : PathUri) :
    (effectiveFileSystemSandboxPolicy policy (some additional)).resolveAccess p context =
      (restricted (policy.entries ++ additional.entries)).resolveAccess p context := by
  rw [effectiveFileSystemSandboxPolicy, AdditionalPermissionProfile.entries, bind_some]
  cases additional.fileSystem with
  | none =>
    rw [map_none, getD_none, append_nil]
    exact resolveAccess_restricted h p
  | some permissions =>
    rw [map_some, getD_some]
    simp only
    split
    · next hempty =>
      rw [isEmpty_iff.mp hempty, append_nil]
      exact resolveAccess_restricted h p
    · rw [← resolveAccess_congr mem_resolvedEntries_foldl_pushNew p,
        mergeFileSystemPolicyWithAdditionalPermissions, h]
      rfl

theorem rulesOf_append : rulesOf context (base ++ added) =
    rulesOf context base ++ rulesOf context added := by
  simp only [rulesOf, lexicalRules, resolvedEntries, restricted, flatMap_append, filterMap_append]

theorem hasAmbiguous_append : hasAmbiguous (base ++ added) context ↔
    hasAmbiguous base context ∨ hasAmbiguous added context := by
  simp only [hasAmbiguous, resolvedEntries, restricted, flatMap_append, mem_append,
    or_and_right, exists_or]

/-- Over `p`, every entry of `added` to read has an entry to write at its root or below. -/
def ReadsOverridden (base added : List FileSystemSandboxEntry) (context : Context) (p : PathUri) :
    Prop :=
  ∀ entry ∈ added, entry.access = .read →
    ∀ u ∈ entryPaths context entry.path, p.startsWith u = true →
      ∃ other ∈ base ++ added, other.access = .write ∧
        ∃ v ∈ entryPaths context other.path, p.startsWith v = true ∧ v.startsWith u = true

theorem readsOverridden_iff {p : PathUri} {ps : List Bytes} (hp : p.lexical = some ps) :
    ReadsOverridden base added context p ↔
      ∀ g ∈ rulesOf context added, g.access = .read → g.root <+: ps →
        ∃ w ∈ rulesOf context base ++ rulesOf context added,
          w.access = .write ∧ w.root <+: ps ∧ g.root <+: w.root := by
  rw [← rulesOf_append]
  constructor
  · intro h g hg hread hcovers
    obtain ⟨entry, hentry, haccess, u, hu, hlexical⟩ := mem_rulesOf.mp hg
    obtain ⟨other, hother, hwrite, v, hv, hover, hbelow⟩ := h entry hentry (haccess.trans hread) u
      hu ((startsWith_iff hp).mpr ⟨g.root, hlexical, hcovers⟩)
    obtain ⟨vs, hvs, hcover⟩ := (startsWith_iff hp).mp hover
    obtain ⟨us, hus, hnested⟩ := (startsWith_iff hvs).mp hbelow
    obtain rfl : us = g.root := Option.some.inj (hus.symm.trans hlexical)
    exact ⟨⟨vs, .write⟩, mem_rulesOf.mpr ⟨other, hother, hwrite, v, hv, hvs⟩, rfl, hcover, hnested⟩
  · intro h entry hentry hread u hu hover
    obtain ⟨us, hus, hcover⟩ := (startsWith_iff hp).mp hover
    obtain ⟨w, hw, hwrite, hwcovers, hnested⟩ :=
      h ⟨us, .read⟩ (mem_rulesOf.mpr ⟨entry, hentry, hread, u, hu, hus⟩) rfl hcover
    obtain ⟨other, hother, haccess, v, hv, hvs⟩ := mem_rulesOf.mp hw
    exact ⟨other, hother, haccess.trans hwrite, v, hv,
      (startsWith_iff hp).mpr ⟨w.root, hvs, hwcovers⟩,
      (startsWith_iff hvs).mpr ⟨us, hus, hnested⟩⟩

theorem additional_permissions_widen_iff (policy : FileSystemSandboxPolicy)
    (additional : AdditionalPermissionProfile) (context : Context) (p : PathUri)
    (hkind : policy.kind = .restricted)
    (hgrants : ∀ entry ∈ additional.entries, entry.access ≠ .deny) :
    (policy.resolveAccess p context).level ≤
        ((effectiveFileSystemSandboxPolicy policy (some additional)).resolveAccess p
          context).level ↔
      policy.resolveAccess p context = .deny ∨
        (¬ hasAmbiguous additional.entries context ∧
          (policy.resolveAccess p context = .write →
            ReadsOverridden policy.entries additional.entries context p)) := by
  rw [resolveAccess_effective hkind, resolveAccess_restricted hkind]
  by_cases hdeny : (restricted policy.entries).resolveAccess p context = .deny
  · rw [hdeny]
    exact iff_of_true (Nat.zero_le _) (.inl rfl)
  · -- The policy permits something, so that the path and the directory are lexical.
    obtain ⟨ps, hp⟩ : ∃ ps, p.lexical = some ps := ne_none_iff_exists'.mp fun hnone =>
      hdeny (resolveAccess_of_not_lexical policy.entries p context (.inl hnone))
    obtain ⟨cs, hc⟩ : ∃ cs, context.cwd.uri.lexical = some cs :=
      ne_none_iff_exists'.mp fun hnone =>
        hdeny (resolveAccess_of_not_lexical policy.entries p context (.inr hnone))
    have hbase : ¬ hasAmbiguous policy.entries context := fun hambiguous =>
      hdeny (resolveAccess_of_ambiguous policy.entries p context hambiguous)
    rw [or_iff_right hdeny]
    by_cases hadded : hasAmbiguous additional.entries context
    · rw [resolveAccess_of_ambiguous _ p context (hasAmbiguous_append.mpr (.inr hadded))]
      refine iff_of_false (fun hle => ?_) fun h => h.1 hadded
      have hpos := level_pos hdeny
      rw [level_deny] at hle
      omega
    · have hmerged : ¬ hasAmbiguous (policy.entries ++ additional.entries) context :=
        hasAmbiguous_append.not.mpr (not_or.mpr ⟨hbase, hadded⟩)
      have hreadable : ∀ g ∈ rulesOf context additional.entries, g.access ≠ .deny := by
        intro g hg
        obtain ⟨entry, hentry, haccess, -⟩ := mem_rulesOf.mp hg
        exact haccess ▸ hgrants entry hentry
      rw [resolveAccess_eq_resolve _ p context hp hc hmerged, rulesOf_append,
        resolveAccess_eq_resolve _ p context hp hc hbase, level_le_append_iff hreadable,
        readsOverridden_iff hp, and_iff_right hadded]

theorem additional_permissions_widen_iff_readme :
    let policy := restricted [pathEntry ["work"] .write]
    let additional : AdditionalPermissionProfile :=
      ⟨none, some ⟨[pathEntry ["docs", "readme"] .read], none⟩⟩
    policy.resolveAccess (localFile ["work", "a"]) rootContext = .write ∧
      (policy.resolveAccess (localFile ["work", "a"]) rootContext).level ≤
        ((effectiveFileSystemSandboxPolicy policy (some additional)).resolveAccess
          (localFile ["work", "a"]) rootContext).level := by
  intro policy additional
  refine ⟨by decide +kernel, ?_⟩
  refine (additional_permissions_widen_iff policy additional rootContext _ rfl ?_).mpr
    (.inr ⟨?_, ?_⟩)
  · intro entry hentry
    rw [mem_singleton.mp hentry]
    decide
  · rintro ⟨e, he, hambiguous⟩
    rw [mem_singleton.mp he] at hambiguous
    exact absurd hambiguous (by decide +kernel)
  · intro _ entry hentry _ u hu hover
    rw [mem_singleton.mp hentry] at hu
    rw [mem_singleton.mp hu] at hover
    exact absurd hover (by decide +kernel)

/-- A grant to read below a writable directory takes back write access. -/
theorem additional_read_narrows :
    let policy := restricted [pathEntry ["work"] .write]
    let additional : AdditionalPermissionProfile :=
      ⟨none, some ⟨[pathEntry ["work", "docs"] .read], none⟩⟩
    policy.resolveAccess (localFile ["work", "docs"]) rootContext = .write ∧
      (effectiveFileSystemSandboxPolicy policy (some additional)).resolveAccess
        (localFile ["work", "docs"]) rootContext = .read := by
  decide +kernel

end Codex.Sandboxing

import Codex.Sandboxing.Intersection

/-! How the access that the intersection of two profiles permits compares with what the request and
the grant permit. -/

namespace Codex.Sandboxing
open Codex.Lib Codex.Permissions FileSystemSandboxPolicy Option PathUri

variable {context : Context}

def accessLevel (context : Context) (entries : List FileSystemSandboxEntry) (p : PathUri) : Nat :=
  ((restricted entries).resolveAccess p context).level

theorem accessLevel_nil (p : PathUri) : accessLevel context [] p = 0 := by
  unfold accessLevel
  cases hp : p.lexical with
  | none => rw [resolveAccess_of_not_lexical [] p context (.inl hp), Rule.level_deny]
  | some ps =>
    cases hc : context.cwd.uri.lexical with
    | none => rw [resolveAccess_of_not_lexical [] p context (.inr hc), Rule.level_deny]
    | some cs =>
      have hamb : ¬ hasAmbiguous [] context := by
        rintro ⟨e, he, _⟩
        exact absurd he List.not_mem_nil
      rw [resolveAccess_eq_resolve [] p context hp hc hamb]
      rfl

structure Materialized (context : Context) (requested granted : AdditionalPermissionProfile)
    (rq : FileSystemPermissions) (req grant : List FileSystemSandboxEntry) : Prop where
  requested : requested.fileSystem = some rq
  req : materializeContextDependentEntries context rq.entries = some req
  grant : materializeContextDependentEntries context granted.entries = some grant

def AdditionalPermissionProfile.ofPaths (paths : List (List String × FileSystemAccessMode)) :
    AdditionalPermissionProfile where
  network := none
  fileSystem := some ⟨paths.map fun (path, access) => ⟨.path (localFile path), access, false⟩, none⟩

theorem noGlobs_ofPaths (paths : List (List String × FileSystemAccessMode)) :
    NoGlobs (AdditionalPermissionProfile.ofPaths paths).entries := by
  intro entry he pattern hp
  obtain ⟨⟨path, access⟩, _, rfl⟩ := List.mem_map.mp he
  exact absurd hp (by simp)

section Profiles

variable {requested granted : AdditionalPermissionProfile} {rq : FileSystemPermissions}
  {req grant : List FileSystemSandboxEntry}

theorem granted_entries_eq : (granted.fileSystem.getD ⟨[], none⟩).entries = granted.entries := by
  unfold AdditionalPermissionProfile.entries
  cases granted.fileSystem <;> rfl

theorem intersect_entries_of_materialized
    (h : Materialized context requested granted rq req grant) :
    (intersectPermissionProfilesWithContext requested granted context).entries =
      resultEntries context rq req grant := by
  obtain ⟨depth, hres⟩ : ∃ depth,
      intersectFileSystem context rq (granted.fileSystem.getD ⟨[], none⟩) =
        some ⟨resultEntries context rq req grant, depth⟩ := by
    simp only [intersectFileSystem, granted_entries_eq, h.req, h.grant, bind_some, map_some]
    exact ⟨_, rfl⟩
  simp only [AdditionalPermissionProfile.entries, intersectPermissionProfilesWithContext,
    h.requested, bind_some, hres, Option.filter]
  cases hnil : resultEntries context rq req grant <;> simp

theorem intersect_entries_of_not_materialized
    (h : ¬ ∃ rq req grant, Materialized context requested granted rq req grant) :
    (intersectPermissionProfilesWithContext requested granted context).entries = [] := by
  have hnone : (requested.fileSystem.bind fun rq =>
      intersectFileSystem context rq (granted.fileSystem.getD ⟨[], none⟩)) = none := by
    rw [bind_eq_none_iff]
    intro rq hrq
    simp only [intersectFileSystem, granted_entries_eq, bind_eq_none_iff, map_eq_none_iff]
    intro req hreq
    cases hgrant : materializeContextDependentEntries context granted.entries with
    | none => rfl
    | some grant => exact absurd ⟨rq, req, grant, hrq, hreq, hgrant⟩ h
  simp only [AdditionalPermissionProfile.entries, intersectPermissionProfilesWithContext, hnone]
  rfl

theorem Materialized.requested_entries (h : Materialized context requested granted rq req grant) :
    requested.entries = rq.entries := by
  rw [AdditionalPermissionProfile.entries, h.requested]
  rfl

theorem accepted_of_readable_rule (hs : SingleRoots context (resultEntries context rq req grant))
    {r : Rule Bytes} (hr : r ∈ rulesOf context (resultEntries context rq req grant))
    (hread : r.access ≠ .deny) :
    ∃ e ∈ acceptedEntries context rq req grant, ∃ u, e.access = r.access ∧
      resolvePermissionPath context e.path = some u ∧ u.lexical = some r.root := by
  obtain ⟨e, he, ha, u, hu, hl⟩ := (mem_rulesOf_iff hs).mp hr
  rcases mem_resultEntries he with hacc | ⟨hdeny, _⟩
  · exact ⟨e, hacc, u, ha, hu, hl⟩
  · exact absurd (ha.symm.trans hdeny) hread

section
variable (hr : SingleRoots context req)
include hr

theorem accepted_of_accessLevel_pos (hg : SingleRoots context grant) {p : PathUri}
    (h : 0 < accessLevel context (resultEntries context rq req grant) p) :
    (¬ hasAmbiguous (resultEntries context rq req grant) context) ∧
    ∃ e ∈ acceptedEntries context rq req grant, ∃ u us,
      resolvePermissionPath context e.path = some u ∧ u.lexical = some us := by
  have hamb : ¬ hasAmbiguous (resultEntries context rq req grant) context := by
    intro hamb
    rw [accessLevel, resolveAccess_of_ambiguous _ p context hamb, Rule.level_deny] at h
    omega
  refine ⟨hamb, ?_⟩
  cases hp : p.lexical with
  | none =>
    rw [accessLevel, resolveAccess_of_not_lexical _ p context (.inl hp), Rule.level_deny] at h
    omega
  | some ps =>
    cases hc : context.cwd.uri.lexical with
    | none =>
      rw [accessLevel, resolveAccess_of_not_lexical _ p context (.inr hc), Rule.level_deny] at h
      omega
    | some cs =>
      rw [accessLevel, resolveAccess_eq_resolve _ p context hp hc hamb] at h
      rcases Rule.resolve_cases (rulesOf context (resultEntries context rq req grant)) ps with
        ⟨w, hw, hres⟩ | ⟨_, hres⟩
      · have hread : w.access ≠ .deny := by
          intro hdeny
          simp [hres, hdeny] at h
        obtain ⟨e, he, u, _, hu, hl⟩ := accepted_of_readable_rule
          (singleRoots_result rq hr hg) hw.mem hread
        exact ⟨e, he, u, w.root, hu, hl⟩
      · simp [hres] at h

theorem accessLevel_of_ambiguous_request (hg : SingleRoots context grant)
    (hamb : hasAmbiguous req context) (p : PathUri) :
    accessLevel context (resultEntries context rq req grant) p = 0 := by
  by_contra hpos
  obtain ⟨_, e, he, u, us, hu, _⟩ := accepted_of_accessLevel_pos hr hg (Nat.pos_of_ne_zero hpos)
  have hw := (mem_acceptedEntries he).2
  have hle := (withinRequest_resolve hw hu).2
  rw [resolveAccess_of_ambiguous req u context hamb, Rule.level_deny] at hle
  have := Rule.level_pos (withinRequest_readable hw)
  omega

theorem accessLevel_of_ambiguous_deny (hg : SingleRoots context grant) {d : FileSystemSandboxEntry}
    {v : PathUri} (hd : d ∈ req ∨ d ∈ grant) (hdeny : d.access = .deny)
    (hv : resolvePermissionPath context d.path = some v) (hamb : v.isAmbiguous)
    (p : PathUri) : accessLevel context (resultEntries context rq req grant) p = 0 := by
  by_contra hpos
  obtain ⟨hnot, e, he, u, us, hu, _⟩ := accepted_of_accessLevel_pos hr hg (Nat.pos_of_ne_zero hpos)
  simp only [PathUri.isAmbiguous, Bool.and_eq_true, decide_eq_true_eq, isNone_iff_eq_none,
    Bool.not_eq_true'] at hamb
  have hcon := denyEntryConstrains_of_overlap hu hv (overlaps_of_no_depth hamb.2)
  obtain ⟨d', hd', heq⟩ := exists_retained hd hdeny he hcon
  obtain rfl := eq_of_entry_eq_of_resolved heq hv hamb.1.1
  refine hnot ⟨(v, d'.access), ?_, ?_⟩
  · exact (mem_resolvedEntries_iff (singleRoots_result rq hr hg)).mpr ⟨d', hd', rfl, hv, hamb.1.1⟩
  · simp [PathUri.isAmbiguous, hamb]

theorem accessLevel_result_le_granted (hg : SingleRoots context grant) (hglob : NoGlobs req)
    (hamb : ∀ e ∈ (restricted grant).resolvedEntries context, e.2 ≠ .deny →
      e.1.isAmbiguous = false) (p : PathUri) :
    accessLevel context (resultEntries context rq req grant) p ≤ accessLevel context grant p := by
  by_contra hlt
  have hpos : 0 < accessLevel context (resultEntries context rq req grant) p := by omega
  obtain ⟨hres, _⟩ := accepted_of_accessLevel_pos hr hg hpos
  have hreq : ¬ hasAmbiguous req context := by
    intro h
    rw [accessLevel_of_ambiguous_request hr hg h p] at hpos
    omega
  have hgrant : ¬ hasAmbiguous grant context := by
    rintro ⟨⟨v, a⟩, he, ha⟩
    by_cases hdeny : a = .deny
    · obtain ⟨d, hd, hda, hv, _⟩ := (mem_resolvedEntries_iff hg).mp he
      rw [accessLevel_of_ambiguous_deny hr hg (.inr hd) (hda.trans hdeny) hv ha p] at hpos
      omega
    · rw [hamb (v, a) he hdeny] at ha
      exact absurd ha Bool.false_ne_true
  cases hp : p.lexical with
  | none =>
    rw [accessLevel, resolveAccess_of_not_lexical _ p context (.inl hp), Rule.level_deny] at hpos
    omega
  | some ps =>
    cases hc : context.cwd.uri.lexical with
    | none =>
      rw [accessLevel, resolveAccess_of_not_lexical _ p context (.inr hc), Rule.level_deny] at hpos
      omega
    | some cs =>
      have hle := (isIntersection_rulesOf rq hr hg hglob hc hreq).le_granted ps
      rw [accessLevel, accessLevel, resolveAccess_eq_resolve _ p context hp hc hres,
        resolveAccess_eq_resolve _ p context hp hc hgrant] at hlt
      exact hlt hle

end

/-- The intersection of a request without globs permits no more than the grant, if no readable
entry of the grant has an ambiguous root, and enables the network only if both profiles do. -/
theorem intersect_le_granted (requested granted : AdditionalPermissionProfile) (context : Context)
    (hglob : NoGlobs requested.entries)
    (hamb : ∀ e ∈ (restricted granted.entries).resolvedEntries context, e.2 ≠ .deny →
      e.1.isAmbiguous = false) :
    (∀ p, accessLevel context
        (intersectPermissionProfilesWithContext requested granted context).entries p ≤
      accessLevel context granted.entries p) ∧
    ((intersectPermissionProfilesWithContext requested granted context).network =
        some (some true) →
      requested.network = some (some true) ∧ granted.network = some (some true)) := by
  constructor
  · intro p
    by_cases h : ∃ rq req grant, Materialized context requested granted rq req grant
    · obtain ⟨rq, req, grant, h⟩ := h
      rw [intersect_entries_of_materialized h]
      have hgrant : accessLevel context granted.entries p = accessLevel context grant p := by
        rw [accessLevel, accessLevel, resolveAccess_materialized h.grant]
      rw [hgrant]
      refine accessLevel_result_le_granted (singleRoots_materialized h.req)
        (singleRoots_materialized h.grant) ?_ ?_ p
      · exact noGlobs_materialized h.req (h.requested_entries ▸ hglob)
      · intro e he
        exact hamb e ((mem_resolvedEntries_materialized h.grant e).mp he)
    · rw [intersect_entries_of_not_materialized h, accessLevel_nil]
      exact Nat.zero_le _
  · intro hnet
    simp only [intersectPermissionProfilesWithContext, intersectNetwork] at hnet
    split at hnet
    · next hboth => exact hboth
    · exact absurd hnet (by simp)

/-- A readable entry with an encoded separator denies everything to the grant as a policy, and is
only left out by the intersection. -/
theorem intersect_exceeds_ambiguous_grant :
    let requested := AdditionalPermissionProfile.ofPaths [(["a"], .write)]
    let granted := AdditionalPermissionProfile.ofPaths [(["a"], .write), (["x%2Fy"], .read)]
    NoGlobs requested.entries ∧ NoGlobs granted.entries ∧
    accessLevel rootContext
      (intersectPermissionProfilesWithContext requested granted rootContext).entries
      (localFile ["a"]) = 2 ∧
    accessLevel rootContext granted.entries (localFile ["a"]) = 0 := by
  refine ⟨noGlobs_ofPaths _, noGlobs_ofPaths _, ?_, ?_⟩
  · decide +kernel
  · decide +kernel

theorem intersect_le_granted_subdirectory :
    let requested := AdditionalPermissionProfile.ofPaths [(["a"], .write)]
    let granted := AdditionalPermissionProfile.ofPaths [(["a"], .write), (["a", "b"], .read)]
    NoGlobs requested.entries ∧
    ∀ p, accessLevel rootContext
        (intersectPermissionProfilesWithContext requested granted rootContext).entries p ≤
      accessLevel rootContext granted.entries p :=
  ⟨noGlobs_ofPaths _, (intersect_le_granted _ _ _ (noGlobs_ofPaths _) (by decide +kernel)).1⟩

/-- An entry of the inputs that keeps the accepted grant at `g` from opening `r` below it: a deny
that no path can be told apart from; a deny over `r` at or below `g`; or a grant to read over
`r`, deeper than `g` and within the request. -/
def Separated (context : Context) (rq : FileSystemPermissions)
    (req grant : List FileSystemSandboxEntry) (g r : PathUri) : Prop :=
  (∃ d, (d ∈ req ∨ d ∈ grant) ∧ d.access = .deny ∧
    ∃ v, resolvePermissionPath context d.path = some v ∧
      (v.isAmbiguous = true ∨
        (r.startsWith v = true ∧ g.lexicalDepth.getD 0 ≤ v.lexicalDepth.getD 0))) ∨
  (∃ n ∈ grant, n.access = .read ∧ withinRequest context rq req n = true ∧
    ∃ v, resolvePermissionPath context n.path = some v ∧ r.startsWith v = true ∧
      g.lexicalDepth.getD 0 < v.lexicalDepth.getD 0)

/-- Every root that the request opens for reading only is kept apart from the write grants above
it that the request covers. -/
def KeepsReadOnlyRoots (context : Context) (rq : FileSystemPermissions)
    (req grant : List FileSystemSandboxEntry) : Prop :=
  ∀ q ∈ req, q.access = .read →
    ∀ r, resolvePermissionPath context q.path = some r →
      (restricted req).resolveAccess r context = .read →
        ∀ e ∈ grant, e.access = .write → withinRequest context rq req e = true →
          ∀ g, resolvePermissionPath context e.path = some g → r.startsWith g = true →
            Separated context rq req grant g r

theorem separated_iff_blocked {cs gs rs : List Bytes} (hr : SingleRoots context req)
    (hg : SingleRoots context grant) (hglob : NoGlobs req)
    (hc : context.cwd.uri.lexical = some cs) (hreq : ¬ hasAmbiguous req context)
    (hdeny : ∀ d, d ∈ req ∨ d ∈ grant → d.access = .deny →
      ∀ v, resolvePermissionPath context d.path = some v → v.isAmbiguous = false)
    {g r : PathUri} (hgl : g.lexical = some gs) (hrl : r.lexical = some rs) :
    Separated context rq req grant g r ↔
      Rule.IsIntersection.Blocked (rulesOf context req) (rulesOf context grant)
        ⟨gs, .write⟩ rs := by
  have hgd := lexicalDepth_of_lexical hgl
  constructor
  · rintro (⟨d, hd, hda, v, hv, hamb | ⟨hpre, hlen⟩⟩ | ⟨n, hn, hna, hw, v, hv, hpre, hlen⟩)
    · rw [hdeny d hd hda v hv] at hamb
      exact absurd hamb Bool.false_ne_true
    · obtain ⟨vs, hvl, hvpre⟩ := (startsWith_iff hrl).mp hpre
      rw [hgd, lexicalDepth_of_lexical hvl, getD_some, getD_some] at hlen
      have hrule := (mem_rulesOf_or_iff hr hg (r := ⟨vs, .deny⟩)).mpr ⟨d, hd, hda, v, hv, hvl⟩
      exact .inl ⟨⟨vs, .deny⟩, hrule, rfl, hvpre, hlen⟩
    · obtain ⟨vs, hvl, hvpre⟩ := (startsWith_iff hrl).mp hpre
      rw [hgd, lexicalDepth_of_lexical hvl, getD_some, getD_some] at hlen
      have hwithin := (withinRequest_iff hglob hc hreq hv hvl).mp hw
      rw [hna] at hwithin
      exact .inr ⟨⟨vs, .read⟩, (mem_rulesOf_iff hg).mpr ⟨n, hn, hna, v, hv, hvl⟩, rfl,
        hwithin, hvpre, hlen⟩
  · rintro (⟨d, hd, hda, hpre, hlen⟩ | ⟨n, hn, hna, hw, hpre, hlen⟩)
    · obtain ⟨m, hm, hma, v, hv, hvl⟩ := (mem_rulesOf_or_iff hr hg).mp hd
      refine .inl ⟨m, hm, hma.trans hda, v, hv, .inr ⟨?_, ?_⟩⟩
      · exact (startsWith_iff hrl).mpr ⟨d.root, hvl, hpre⟩
      · rw [hgd, lexicalDepth_of_lexical hvl]
        exact hlen
    · obtain ⟨m, hm, hma, v, hv, hvl⟩ := (mem_rulesOf_iff hg).mp hn
      refine .inr ⟨m, hm, hma.trans hna, ?_, v, hv, ?_, ?_⟩
      · rw [withinRequest_iff hglob hc hreq hv hvl, hma]
        exact hw
      · exact (startsWith_iff hrl).mpr ⟨n.root, hvl, hpre⟩
      · rw [hgd, lexicalDepth_of_lexical hvl]
        exact hlen

theorem keepsReadOnlyRoots_iff {cs : List Bytes} (hr : SingleRoots context req)
    (hg : SingleRoots context grant) (hglob : NoGlobs req)
    (hc : context.cwd.uri.lexical = some cs) (hreq : ¬ hasAmbiguous req context)
    (hdeny : ∀ d, d ∈ req ∨ d ∈ grant → d.access = .deny →
      ∀ v, resolvePermissionPath context d.path = some v → v.isAmbiguous = false) :
    KeepsReadOnlyRoots context rq req grant ↔
      ∀ q ∈ rulesOf context req, q.access = .read →
        Rule.resolve (rulesOf context req) q.root = .read →
        ∀ e ∈ rulesOf context grant, e.access = .write → Rule.Within (rulesOf context req) e →
          e.root <+: q.root →
            Rule.IsIntersection.Blocked (rulesOf context req) (rulesOf context grant) e q.root := by
  constructor
  · intro h q hq hqa hres e he hea hw hpre
    obtain ⟨m, hm, hma, r, hrm, hrl⟩ := (mem_rulesOf_iff hr).mp hq
    obtain ⟨n, hn, hna, g, hgn, hgl⟩ := (mem_rulesOf_iff hg).mp he
    have hwithin : withinRequest context rq req n := by
      rw [withinRequest_iff hglob hc hreq hgn hgl, hna]
      exact hw
    have hread : (restricted req).resolveAccess r context = .read := by
      rw [resolveAccess_eq_resolve req r context hrl hc hreq]
      exact hres
    have hsep := h m hm (hma.trans hqa) r hrm hread n hn (hna.trans hea) hwithin g hgn
      ((startsWith_iff hrl).mpr ⟨e.root, hgl, hpre⟩)
    have hb := (separated_iff_blocked hr hg hglob hc hreq hdeny hgl hrl).mp hsep
    rw [← hea] at hb
    exact hb
  · intro h m hm hma r hrm hread n hn hna hw g hgn hpre
    obtain ⟨rs, hrl⟩ : ∃ rs, r.lexical = some rs := by
      cases hrl : r.lexical with
      | some rs => exact ⟨rs, rfl⟩
      | none =>
        rw [resolveAccess_of_not_lexical req r context (.inl hrl)] at hread
        exact absurd hread (by decide)
    obtain ⟨gs, hgl, hgpre⟩ := (startsWith_iff hrl).mp hpre
    rw [separated_iff_blocked hr hg hglob hc hreq hdeny hgl hrl]
    rw [resolveAccess_eq_resolve req r context hrl hc hreq] at hread
    have hwithin := (withinRequest_iff hglob hc hreq hgn hgl).mp hw
    rw [hna] at hwithin
    exact h ⟨rs, .read⟩ ((mem_rulesOf_iff hr).mpr ⟨m, hm, hma, r, hrm, hrl⟩) rfl hread
      ⟨gs, .write⟩ ((mem_rulesOf_iff hg).mpr ⟨n, hn, hna, g, hgn, hgl⟩) rfl hwithin hgpre

theorem keepsReadOnlyRoots_of_never_read
    (h : ∀ r, (restricted req).resolveAccess r context = .deny) :
    KeepsReadOnlyRoots context rq req grant := by
  intro q _ _ r _ hread
  rw [h r] at hread
  exact absurd hread (by decide)

theorem isAmbiguous_of_lexical {u : PathUri} {us : List Bytes} (h : u.lexical = some us) :
    u.isAmbiguous = false := by
  simp [PathUri.isAmbiguous, lexicalDepth_of_lexical h]

theorem not_hasAmbiguous_result (hr : SingleRoots context req) (hg : SingleRoots context grant)
    (hdeny : ∀ d, d ∈ req ∨ d ∈ grant → d.access = .deny →
      ∀ v, resolvePermissionPath context d.path = some v → v.isAmbiguous = false) :
    ¬ hasAmbiguous (resultEntries context rq req grant) context := by
  rintro ⟨⟨v, a⟩, he, hamb⟩
  obtain ⟨e, hmem, _, hv, _⟩ := (mem_resolvedEntries_iff (singleRoots_result rq hr hg)).mp he
  have hfalse : v.isAmbiguous = false := by
    rcases mem_resultEntries hmem with hacc | ⟨hda, hmem⟩
    · obtain ⟨us, hl⟩ := withinRequest_lexical (mem_acceptedEntries hacc).2 hv
      exact isAmbiguous_of_lexical hl
    · exact hdeny e hmem hda v hv
  rw [hfalse] at hamb
  exact absurd hamb Bool.false_ne_true

theorem accessLevel_result_le_requested_iff (hr : SingleRoots context req)
    (hg : SingleRoots context grant) (hglob : NoGlobs req) :
    (∀ p, accessLevel context (resultEntries context rq req grant) p ≤ accessLevel context req p) ↔
      KeepsReadOnlyRoots context rq req grant := by
  by_cases hreq : hasAmbiguous req context
  · have hres : ∀ p, accessLevel context (resultEntries context rq req grant) p = 0 :=
      accessLevel_of_ambiguous_request hr hg hreq
    simp only [hres, Nat.zero_le, implies_true, true_iff]
    exact keepsReadOnlyRoots_of_never_read fun r => resolveAccess_of_ambiguous req r context hreq
  cases hc : context.cwd.uri.lexical with
  | none =>
    have hres := fun entries p => resolveAccess_of_not_lexical entries p context (.inr hc)
    simp only [accessLevel, hres, le_refl, implies_true, true_iff]
    exact keepsReadOnlyRoots_of_never_read (hres req)
  | some cs =>
    by_cases hdeny : ∃ d, (d ∈ req ∨ d ∈ grant) ∧ d.access = .deny ∧
        ∃ v, resolvePermissionPath context d.path = some v ∧ v.isAmbiguous
    · obtain ⟨d, hd, hda, v, hv, hamb⟩ := hdeny
      have hres : ∀ p, accessLevel context (resultEntries context rq req grant) p = 0 :=
        accessLevel_of_ambiguous_deny hr hg hd hda hv hamb
      simp only [hres, Nat.zero_le, implies_true, true_iff]
      intro q _ _ r _ _ e _ _ _ g _ _
      exact .inl ⟨d, hd, hda, v, hv, .inl hamb⟩
    · have hdeny' : ∀ d, d ∈ req ∨ d ∈ grant → d.access = .deny →
          ∀ v, resolvePermissionPath context d.path = some v → v.isAmbiguous = false := by
        intro d hd hda v hv
        by_contra hamb
        exact hdeny ⟨d, hd, hda, v, hv, by simpa using hamb⟩
      have hres : ¬ hasAmbiguous (resultEntries context rq req grant) context :=
        not_hasAmbiguous_result hr hg hdeny'
      have hS : ∀ q ∈ rulesOf context req,
          q.root ∈ {ps : List Bytes | ∃ p : PathUri, p.lexical = some ps} := by
        intro q hq
        obtain ⟨_, _, _, u, _, hl⟩ := (mem_rulesOf_iff hr).mp hq
        exact ⟨u, hl⟩
      rw [keepsReadOnlyRoots_iff hr hg hglob hc hreq hdeny',
        ← (isIntersection_rulesOf rq hr hg hglob hc hreq).le_requested_iff _ hS]
      constructor
      · rintro h ps ⟨p, hp⟩
        have hle := h p
        rw [accessLevel, accessLevel, resolveAccess_eq_resolve _ p context hp hc hres,
          resolveAccess_eq_resolve _ p context hp hc hreq] at hle
        exact hle
      · intro h p
        cases hp : p.lexical with
        | none =>
          rw [accessLevel, resolveAccess_of_not_lexical _ p context (.inl hp), Rule.level_deny]
          exact Nat.zero_le _
        | some ps =>
          rw [accessLevel, accessLevel, resolveAccess_eq_resolve _ p context hp hc hres,
            resolveAccess_eq_resolve _ p context hp hc hreq]
          exact h ps ⟨p, hp⟩

/-- The intersection of a request without globs permits no more than the request exactly when no
accepted write grant opens a root that the request keeps for reading only. -/
theorem intersect_le_requested_iff (requested granted : AdditionalPermissionProfile)
    (context : Context) (hglob : NoGlobs requested.entries) :
    (∀ p, accessLevel context
        (intersectPermissionProfilesWithContext requested granted context).entries p ≤
      accessLevel context requested.entries p) ↔
    ∀ rq req grant, Materialized context requested granted rq req grant →
      KeepsReadOnlyRoots context rq req grant := by
  have hstep : ∀ {rq req grant}, Materialized context requested granted rq req grant →
      ((∀ p, accessLevel context
          (intersectPermissionProfilesWithContext requested granted context).entries p ≤
        accessLevel context requested.entries p) ↔ KeepsReadOnlyRoots context rq req grant) := by
    intro rq req grant h
    rw [intersect_entries_of_materialized h, h.requested_entries]
    have hreq : ∀ p, accessLevel context rq.entries p = accessLevel context req p := by
      intro p
      rw [accessLevel, accessLevel, resolveAccess_materialized h.req]
    simp only [hreq]
    exact accessLevel_result_le_requested_iff (singleRoots_materialized h.req)
      (singleRoots_materialized h.grant)
      (noGlobs_materialized h.req (h.requested_entries ▸ hglob))
  constructor
  · exact fun hle rq req grant h => (hstep h).mp hle
  · intro hkeep
    by_cases h : ∃ rq req grant, Materialized context requested granted rq req grant
    · obtain ⟨rq, req, grant, h⟩ := h
      exact (hstep h).mpr (hkeep rq req grant h)
    · intro p
      rw [intersect_entries_of_not_materialized h, accessLevel_nil]
      exact Nat.zero_le _

/-- The request keeps `/a/b` for reading only; the accepted grant of `/a` opens it for writing. -/
theorem intersect_opens_read_only_root :
    let requested := AdditionalPermissionProfile.ofPaths [(["a"], .write), (["a", "b"], .read)]
    let granted := AdditionalPermissionProfile.ofPaths [(["a"], .write)]
    NoGlobs requested.entries ∧ NoGlobs granted.entries ∧
    accessLevel rootContext
      (intersectPermissionProfilesWithContext requested granted rootContext).entries
      (localFile ["a", "b"]) = 2 ∧
    accessLevel rootContext requested.entries (localFile ["a", "b"]) = 1 := by
  refine ⟨noGlobs_ofPaths _, noGlobs_ofPaths _, ?_, ?_⟩
  · decide +kernel
  · decide +kernel

theorem intersect_le_requested_iff_subdirectory :
    let requested := AdditionalPermissionProfile.ofPaths [(["a"], .write), (["a", "b"], .read)]
    NoGlobs requested.entries ∧
    ∀ p, accessLevel rootContext
        (intersectPermissionProfilesWithContext requested requested rootContext).entries p ≤
      accessLevel rootContext requested.entries p := by
  refine ⟨noGlobs_ofPaths _, (intersect_le_requested_iff _ _ _ (noGlobs_ofPaths _)).mpr ?_⟩
  rintro rq req grant ⟨hrq, hreq, hgrant⟩
  obtain rfl := Option.some.inj hrq
  obtain rfl : _ = req := Option.some.inj hreq
  obtain rfl : _ = grant := Option.some.inj hgrant
  intro q hq hqa r hr _ e he hea _ g hg _
  have hq' : r = localFile ["a", "b"] := by
    rcases List.mem_pair.mp hq with rfl | rfl
    · exact absurd hqa (by decide)
    · exact (Option.some.inj hr).symm
  have he' : g = localFile ["a"] := by
    rcases List.mem_pair.mp he with rfl | rfl
    · exact (Option.some.inj hg).symm
    · exact absurd hea (by decide)
  subst hq' he'
  exact .inr ⟨⟨.path (localFile ["a", "b"]), .read, false⟩, List.mem_pair.mpr (.inr rfl), rfl,
    by decide +kernel, localFile ["a", "b"], rfl, by decide +kernel, by decide +kernel⟩

end Profiles

end Codex.Sandboxing

import Codex.Permissions.RootProjection

/-! Each writable root knows its own metadata directories only, so an outer root opens those of a
root inside it. -/

namespace Codex.Permissions
open Codex.Lib FileSystemSandboxPolicy Rule List

def localProjection (host : LocalHost) (cwd : AbsolutePathBuf)
    (entries : List FileSystemSandboxEntry) : Projection Bytes where
  rules := rulesOf (host.context cwd) entries
  names := metadataNames
  entries := ((restricted entries).resolvedEntriesWithCwd host cwd).map fun entry =>
    ⟨entry.path.components, entry.access⟩
  native p := ∀ c ∈ p, IsNormalComponent c
  native_above := fun h hq c hc => h c (hq.subset hc)
  drive c := isWindowsDriveUriSegment (host.encodeComponent c) = true
  present w name := ∃ path : AbsolutePathBuf, path.components = w ++ [name] ∧
    (host.isDir path = true ∨ name = Text.bytes ".codex".toList ∧ cwd.components = w) ∧
    ∀ entry ∈ (restricted entries).resolvedEntriesWithCwd host cwd, entry.path ≠ path

variable {host : LocalHost} {cwd : AbsolutePathBuf} {entries : List FileSystemSandboxEntry}

theorem ordinary_components {path : AbsolutePathBuf} :
    (localProjection host cwd entries).Ordinary path.components ↔
      path.IsOrdinary host.encodeComponent := by
  rw [AbsolutePathBuf.isOrdinary_iff host.decode_encodeComponent]
  simp only [Projection.Ordinary, localProjection, Bool.not_eq_true]

theorem head?_drop_eq_some_iff {root p : List Bytes} (h : root <+: p) (c : Bytes) :
    (p.drop root.length).head? = some c ↔ root ++ [c] <+: p := by
  obtain ⟨rest, rfl⟩ := h
  rw [drop_left, prefix_append_right_inj]
  cases rest with
  | nil => simp
  | cons d rest => simp [cons_prefix_cons, eq_comm]

theorem isPathWritable_iff {w : WritableRoot} {p : AbsolutePathBuf} :
    w.isPathWritable p ↔ w.root.components <+: p.components ∧
      (∀ x ∈ w.readOnlySubpaths, ¬ x.components <+: p.components) ∧
      ∀ name ∈ w.protectedMetadataNames, ¬ w.root.components ++ [name.bytes] <+: p.components := by
  rw [WritableRoot.isPathWritable]
  cases hroot : p.startsWith w.root with
  | false =>
    have hnot : ¬ w.root.components <+: p.components := by
      rw [← LocalHost.startsWith_iff, hroot]
      exact Bool.false_ne_true
    simp [hnot]
  | true =>
    have hcovers := LocalHost.startsWith_iff.mp hroot
    have hsubpaths : w.readOnlySubpaths.any (p.startsWith ·) ↔
        ∃ x ∈ w.readOnlySubpaths, x.components <+: p.components := by
      simp only [any_eq_true, LocalHost.startsWith_iff]
    have hnames : w.pathContainsProtectedMetadataName p ↔
        ∃ name ∈ w.protectedMetadataNames, w.root.components ++ [name.bytes] <+: p.components := by
      simp only [WritableRoot.pathContainsProtectedMetadataName, hroot, Bool.true_and,
        Option.any_eq_true, head?_drop_eq_some_iff hcovers, any_eq_true, decide_eq_true_eq]
      constructor
      · rintro ⟨_, hover, name, hname, rfl⟩
        exact ⟨name, hname, hover⟩
      · rintro ⟨name, hname, hover⟩
        exact ⟨name.bytes, hover, name, hname, rfl⟩
    simp only [Bool.not_true, Bool.false_eq_true, if_false, hsubpaths, hnames, hcovers, true_and]
    split
    · next h => simpa using fun hall => absurd h (by simpa using hall)
    · next h =>
      split
      · next h' => simpa using fun _ => h'
      · next h' => simpa using ⟨by simpa using h, by simpa using h'⟩

section Settled
variable (hplain : host.IsPlain) (hkept : KeepsMetadataNames host.crates)
  (hfull : (restricted entries).hasFullDiskWriteAccess = false)
  (hcwd : cwd.IsOrdinary host.encodeComponent) (hamb : ¬ hasAmbiguous entries (host.context cwd))

include hkept hfull hcwd hamb in
theorem writable_iff (path : AbsolutePathBuf) :
    (localProjection host cwd entries).Writable path.components ↔
      (restricted entries).canWriteLocalPath host cwd path := by
  rw [Projection.Writable, ordinary_components]
  exact (canWriteLocalPath_iff hcwd hamb hkept hfull path).symm

include hplain hkept hfull hcwd hamb in
theorem isPathWritable_writableRootAt (root p : AbsolutePathBuf) :
    ((restricted entries).writableRootAt host cwd root).isPathWritable p ↔
      (localProjection host cwd entries).Permits root.components p.components := by
  have hclosed : ∀ path : AbsolutePathBuf,
      ¬ (localProjection host cwd entries).Writable path.components ↔
        (restricted entries).canWriteLocalPath host cwd path = false := by
    intro path
    rw [writable_iff hkept hfull hcwd hamb, Bool.not_eq_true]
  have hjoin : ∀ {name}, name ∈ protectedMetadataPathNames →
      (host.join root name.bytes).components = root.components ++ [name.bytes] :=
    fun h => LocalHost.components_join_name h root
  rw [isPathWritable_iff, Projection.Permits]
  refine and_congr_right fun _ => ⟨?_, ?_⟩
  · rintro ⟨hsubpaths, hnames⟩ (⟨x, hx, haccess, hx', hbelow, hne, hover⟩ |
      ⟨_, hmem, hover, hname'⟩)
    · obtain ⟨entry, hentry, rfl⟩ := mem_map.mp hx
      refine hsubpaths entry.path ((mem_readOnlySubpaths hplain).mpr (.inr ?_)) hover
      refine ⟨entry, hentry, by simpa [FileSystemAccessMode.canWrite] using haccess,
        (hclosed _).mp hx', fun heq => hne (congrArg _ heq).symm, hbelow, rfl⟩
    · obtain ⟨name, hname, rfl⟩ := mem_map.mp hmem
      rcases hname' with hname' | ⟨path, hpath, hpresent, hexplicit⟩
      · refine hnames name ((mem_protectedMetadataNames hplain).mpr ⟨hname, ?_⟩) hover
        rwa [← hclosed, hjoin hname]
      · have heq : host.join root name.bytes = path :=
          AbsolutePathBuf.ext_components ((hjoin hname).trans hpath.symm)
        refine hsubpaths path ((mem_readOnlySubpaths hplain).mpr (.inl ?_)) (hpath ▸ hover)
        refine ⟨name, hname, heq, hpresent.imp_right fun hcodex => ?_, hexplicit⟩
        exact ⟨Text.bytes_injective hcodex.1, AbsolutePathBuf.ext_components hcodex.2⟩
  · intro hcarved
    refine ⟨fun x hx hover => hcarved ?_, fun name hname hover => hcarved ?_⟩
    · rcases (mem_readOnlySubpaths hplain).mp hx with
        ⟨name, hname, rfl, hpresent, hexplicit⟩ | ⟨entry, hentry, haccess, hx', hne, hbelow, rfl⟩
      · refine .inr ⟨name.bytes, mem_map.mpr ⟨name, hname, rfl⟩, hjoin hname ▸ hover, .inr ?_⟩
        refine ⟨host.join root name.bytes, hjoin hname, hpresent.imp_right fun hcodex => ?_,
          hexplicit⟩
        exact ⟨congrArg Text.bytes hcodex.1, congrArg AbsolutePathBuf.components hcodex.2⟩
      · refine .inl ⟨⟨entry.path.components, entry.access⟩, mem_map.mpr ⟨entry, hentry, rfl⟩,
          by simpa [FileSystemAccessMode.canWrite] using haccess, (hclosed _).mpr hx', hbelow,
          fun heq => hne (AbsolutePathBuf.ext_components heq).symm, hover⟩
    · obtain ⟨hname, hname'⟩ := (mem_protectedMetadataNames hplain).mp hname
      refine .inr ⟨name.bytes, mem_map.mpr ⟨name, hname, rfl⟩, hover, .inl ?_⟩
      rwa [← hjoin hname, hclosed]

include hplain hkept hfull hcwd hamb in
theorem exists_isPathWritable_iff (p : AbsolutePathBuf) :
    (∃ w ∈ (restricted entries).getWritableRootsWithCwd host cwd, w.isPathWritable p) ↔
      ∃ w, (localProjection host cwd entries).IsRoot w ∧
        (localProjection host cwd entries).Permits w p.components := by
  constructor
  · rintro ⟨w, hw, hpath⟩
    obtain ⟨_, root, hroot, hopen, rfl⟩ := (mem_getWritableRootsWithCwd hplain).mp hw
    refine ⟨root.components, ⟨mem_map.mpr ⟨_, hroot, rfl⟩, ?_⟩, ?_⟩
    · exact (writable_iff hkept hfull hcwd hamb root).mpr hopen
    · exact (isPathWritable_writableRootAt hplain hkept hfull hcwd hamb root p).mp hpath
  · rintro ⟨w, ⟨hmem, hopen⟩, hpermits⟩
    obtain ⟨⟨root, access⟩, hroot, heq⟩ := mem_map.mp hmem
    obtain ⟨rfl, rfl⟩ := Rule.mk.inj heq
    refine ⟨_, (mem_getWritableRootsWithCwd hplain).mpr ⟨hfull, root, hroot, ?_, rfl⟩, ?_⟩
    · exact (writable_iff hkept hfull hcwd hamb root).mp hopen
    · exact (isPathWritable_writableRootAt hplain hkept hfull hcwd hamb root p).mpr hpermits

end Settled

/-- The writable roots permit nothing that the policy forbids exactly when there are none, since
writing is not restricted or nothing is permitted, or when what the policy restricts below a root
is carved out of it. -/
theorem writable_roots_sound_iff (host : LocalHost) (cwd : AbsolutePathBuf)
    (entries : List FileSystemSandboxEntry) (hplain : host.IsPlain)
    (hkept : KeepsMetadataNames host.crates) :
    (∀ p : AbsolutePathBuf,
      (∃ w ∈ (restricted entries).getWritableRootsWithCwd host cwd, w.isPathWritable p = true) →
        (restricted entries).canWritePath (host.uri p) (host.context cwd) = true) ↔
      (restricted entries).hasFullDiskWriteAccess = true ∨
        ¬ cwd.IsOrdinary host.encodeComponent ∨ hasAmbiguous entries (host.context cwd) ∨
        ∀ w, (localProjection host cwd entries).IsRoot w →
          (localProjection host cwd entries).Guarded w := by
  by_cases hfull : (restricted entries).hasFullDiskWriteAccess = true
  · refine iff_of_true (fun p h => ?_) (.inl hfull)
    obtain ⟨w, hw, _⟩ := h
    rw [((mem_getWritableRootsWithCwd hplain).mp hw).1] at hfull
    exact absurd hfull Bool.false_ne_true
  · by_cases hcwd : cwd.IsOrdinary host.encodeComponent
    · by_cases hamb : hasAmbiguous entries (host.context cwd)
      · refine iff_of_true (fun p h => ?_) (.inr (.inr (.inl hamb)))
        obtain ⟨w, hw, _⟩ := h
        refine absurd hw (no_writableRoot hplain fun path => canWritePath_eq_false ?_)
        exact resolveAccess_of_ambiguous entries _ _ hamb
      · rw [Bool.not_eq_true] at hfull
        simp only [exists_isPathWritable_iff hplain hkept hfull hcwd hamb, hfull, hcwd, hamb,
          Bool.false_eq_true, not_true_eq_false, false_or]
        rw [← Projection.sound_iff]
        constructor
        · intro h p hp hroot
          exact (writable_iff hkept hfull hcwd hamb ⟨p, hp⟩).mpr (h ⟨p, hp⟩ hroot)
        · intro h p hroot
          exact (writable_iff hkept hfull hcwd hamb p).mp (h p.components p.normal hroot)
    · refine iff_of_true (fun p h => ?_) (.inr (.inl hcwd))
      obtain ⟨w, hw, _⟩ := h
      refine absurd hw (no_writableRoot hplain fun path => canWritePath_eq_false ?_)
      exact resolveAccess_of_not_lexical entries _ _ (.inr (not_not.mp hcwd))

theorem writable_roots_sound_iff_oneRoot :
    let policy := restricted [pathEntry ["w"] .write, pathEntry ["w", "a"] .read]
    let cwd := nativePath "/w"
    (∃ w ∈ policy.getWritableRootsWithCwd emptyHost cwd,
        w.isPathWritable (nativePath "/w/b") = true) ∧
      policy.canWritePath (emptyHost.uri (nativePath "/w/b")) (emptyHost.context cwd) = true := by
  intro policy cwd
  have hpath : ∃ w ∈ policy.getWritableRootsWithCwd emptyHost cwd,
      w.isPathWritable (nativePath "/w/b") = true := by decide +kernel
  refine ⟨hpath, (writable_roots_sound_iff emptyHost cwd _ emptyHost_isPlain
    keepsMetadataNames_literalCrates).mpr (.inr (.inr (.inr ?_))) _ hpath⟩
  have hrules : (localProjection emptyHost cwd [pathEntry ["w"] .write,
      pathEntry ["w", "a"] .read]).rules = [⟨[[119]], .write⟩, ⟨[[119], [97]], .read⟩] := by
    decide +kernel
  have hentries : (localProjection emptyHost cwd [pathEntry ["w"] .write,
      pathEntry ["w", "a"] .read]).entries = [⟨[[119]], .write⟩, ⟨[[119], [97]], .read⟩] := by
    decide +kernel
  intro w hw
  obtain rfl : w = [[119]] := by simpa [hentries] using hw.1
  refine ⟨fun d hd haccess _ _ _ _ => ?_, fun r hr hwrite _ hne => ?_, fun hnil => by cases hnil⟩
  · rw [hrules] at hd
    simp only [mem_cons, not_mem_nil, or_false] at hd
    rcases hd with rfl | rfl
    · exact absurd rfl haccess
    · refine .inl ⟨⟨[[119], [97]], .read⟩, by simp [hentries], by decide, fun hopen => ?_,
        by decide, by decide, by decide⟩
      have hresolve := hopen.2.1
      rw [hrules] at hresolve
      exact absurd hresolve (by decide)
  · rw [hrules] at hr
    simp only [mem_cons, not_mem_nil, or_false] at hr
    rcases hr with rfl | rfl
    · exact absurd rfl hne
    · exact absurd hwrite (by decide)

/-- The root `/w` knows nothing of the metadata directory in the root `/w/v`. -/
theorem outer_root_opens_inner_metadata :
    let policy := restricted [pathEntry ["w"] .write, pathEntry ["w", "v"] .write]
    let cwd := nativePath "/w"
    let path := nativePath "/w/v/.git/x"
    emptyHost.IsPlain ∧
      (∃ w ∈ policy.getWritableRootsWithCwd emptyHost cwd, w.isPathWritable path = true) ∧
      policy.canWritePath (emptyHost.uri path) (emptyHost.context cwd) = false := by
  refine ⟨emptyHost_isPlain, ?_⟩
  decide +kernel

end Codex.Permissions

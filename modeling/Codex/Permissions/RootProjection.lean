import Codex.Permissions.LocalRoots
import Codex.Permissions.Projection
import Codex.Permissions.WriteRules

/-! On a host without symlinks and git pointer files, the roots of a policy are the paths of its
entries, and what is read-only in a writable root are the entries below it, with its metadata
directories. -/

namespace Codex.Permissions
open Codex.Lib Codex.Lib.Percent FileSystemSandboxPolicy Rule List LocalHost

namespace LocalHost

structure IsPlain (host : LocalHost) : Prop where
  symlinkFree : host.SymlinkFree
  noGitPointerFiles : host.NoGitPointerFiles

variable {host : LocalHost}

theorem components_join {c : Bytes} (hname : IsNormalComponent c)
    (htilde : c.head? ≠ some AbsolutePathBuf.tilde) (root : AbsolutePathBuf) :
    (host.join root c).components = root.components ++ [c] := by
  have hexpand : AbsolutePathBuf.maybeExpandHomeDirectory host.home c = c := by
    unfold AbsolutePathBuf.maybeExpandHomeDirectory
    split
    · rw [if_pos (.inl fun hfirst => htilde (congrArg some hfirst))]
    · rfl
  have hslash : c.head? ≠ some slash := fun h => hname.2.2.2 (mem_of_mem_head? h)
  rw [join, AbsolutePathBuf.resolvePathAgainstBase, hexpand]
  simp only [hslash, if_false, AbsolutePathBuf.normalizePath, splitOn_eq_singleton hname.2.2.2,
    foldl_cons, foldl_nil, AbsolutePathBuf.pushComponent, dif_pos hname]
  rfl

theorem isNativeName_of_mem {name : Text} (h : name ∈ protectedMetadataPathNames) :
    IsNormalComponent name.bytes ∧ name.bytes.head? ≠ some AbsolutePathBuf.tilde := by
  revert name
  decide

theorem components_join_name {name : Text} (h : name ∈ protectedMetadataPathNames)
    (root : AbsolutePathBuf) :
    (host.join root name.bytes).components = root.components ++ [name.bytes] :=
  components_join (isNativeName_of_mem h).1 (isNativeName_of_mem h).2 root

theorem startsWith_iff {path base : AbsolutePathBuf} :
    path.startsWith base ↔ base.components <+: path.components :=
  List.isPrefixOf_iff_prefix

theorem mem_dedupAbsolutePaths (h : host.IsPlain) {paths : List AbsolutePathBuf} {flag : Bool}
    {path : AbsolutePathBuf} : path ∈ host.dedupAbsolutePaths paths flag ↔ path ∈ paths := by
  have hmap : paths.map host.normalizeEffectiveAbsolutePath = paths :=
    (map_congr_left fun p _ => normalizeEffectiveAbsolutePath_eq h.symlinkFree p).trans
      (map_id paths)
  rw [dedupAbsolutePaths, mem_eraseDups, hmap, ite_self]

theorem mem_defaultReadOnlySubpaths (h : host.IsPlain) {root path : AbsolutePathBuf} {flag : Bool} :
    path ∈ host.defaultReadOnlySubpathsForWritableRoot root flag ↔
      ∃ name ∈ protectedMetadataPathNames, host.join root name.bytes = path ∧
        (host.isDir path ∨ name = ".codex".toList ∧ flag) := by
  have hfile : host.isFile (host.joinName root ".git") = false := by
    have hpointer := h.noGitPointerFiles (host.joinName root ".git")
    have hcomponents : (host.joinName root ".git").components = root.components ++ [gitName] :=
      components_join_name (by decide) root
    rw [isGitPointerFile, hcomponents, getLast?_concat, decide_eq_true rfl,
      Bool.and_true] at hpointer
    exact hpointer
  simp only [defaultReadOnlySubpathsForWritableRoot, mem_dedupAbsolutePaths h, hfile,
    Bool.false_and, Bool.or_false, Bool.false_eq_true, if_false, nil_append, mem_append,
    mem_ite_nil_right, mem_singleton, Bool.or_eq_true]
  constructor
  · rintro (((⟨hdir, rfl⟩ | ⟨hdir, rfl⟩) | ⟨hdir, rfl⟩) | ⟨hdir, rfl⟩)
    · exact ⟨".git".toList, by decide, rfl, .inl hdir⟩
    · exact ⟨".agents".toList, by decide, rfl, .inl hdir⟩
    · exact ⟨".codex".toList, by decide, rfl, hdir.symm.imp_right fun hflag => ⟨rfl, hflag⟩⟩
    · exact ⟨".aws".toList, by decide, rfl, .inl hdir⟩
  · rintro ⟨name, hname, rfl, hdir⟩
    simp only [protectedMetadataPathNames, mem_cons, not_mem_nil, or_false] at hname
    rcases hname with rfl | rfl | rfl | rfl
    · exact .inl (.inl (.inl ⟨hdir.resolve_right fun h => absurd h.1 (by decide), rfl⟩))
    · exact .inl (.inl (.inr ⟨hdir.resolve_right fun h => absurd h.1 (by decide), rfl⟩))
    · exact .inl (.inr ⟨hdir.symm.imp_left And.right, rfl⟩)
    · exact .inr ⟨hdir.resolve_right fun h => absurd h.1 (by decide), rfl⟩

theorem carveout_eq {root : AbsolutePathBuf} {raws : List AbsolutePathBuf}
    (hraws : ∀ r ∈ raws, r = root) (entry : ResolvedFileSystemEntry) :
    host.carveout root raws ⟨entry, entry.path⟩ =
      if entry.path ≠ root ∧ entry.path.startsWith root then some entry.path else none := by
  have hnone : entry.path.startsWith root = false → (raws.findSome? fun rawRoot =>
      if entry.path.startsWith rawRoot &&
          !(entry.path.components.drop rawRoot.components.length).isEmpty then
        some (host.join root ([slash].intercalate
          (entry.path.components.drop rawRoot.components.length)))
      else none) = none := by
    intro hbelow
    rw [findSome?_eq_none_iff]
    intro raw hraw
    rw [hraws raw hraw, hbelow]
    rfl
  unfold carveout
  by_cases heq : entry.path = root
  · simp [heq]
  · cases hbelow : entry.path.startsWith root with
    | false =>
      simp only [heq, hbelow, hnone hbelow]
      cases root.parent <;> simp
    | true =>
      simp only [heq, hbelow]
      cases root.parent <;> simp [heq]

end LocalHost

section Plain
variable {host : LocalHost} (hplain : host.IsPlain) {cwd : AbsolutePathBuf}
  {entries : List FileSystemSandboxEntry}
include hplain

theorem mem_preparedEntries {prepared : LocalHost.PreparedFileSystemEntry} :
    prepared ∈ (restricted entries).preparedEntries host cwd ↔
      ∃ entry ∈ (restricted entries).resolvedEntriesWithCwd host cwd,
        entry.access.canWrite = (restricted entries).canWriteLocalPath host cwd entry.path ∧
          prepared = ⟨entry, entry.path⟩ := by
  have hgitdirs : (restricted entries).resolvedGitdirEntries host cwd = [] := by
    have hnone : (((restricted entries).effectiveEntries host cwd).filter
        (·.access.canWrite)).filterMap (fun entry =>
          let dotGit := host.joinName (host.normalizeEffectiveAbsolutePath entry.path) ".git"
          if host.isGitPointerFile dotGit then host.resolveGitdirFromFile dotGit else none) =
        [] := by
      rw [filterMap_eq_nil_iff]
      intro entry _
      exact if_neg (by simp [hplain.noGitPointerFiles _])
    rw [resolvedGitdirEntries, hnone]
    rfl
  simp only [preparedEntries, hgitdirs, map_nil, append_nil, mem_map,
    effectiveEntries, mem_filter, decide_eq_true_eq,
    normalizeEffectiveAbsolutePath_eq hplain.symlinkFree]
  constructor
  · rintro ⟨entry, ⟨hmem, heffective⟩, rfl⟩
    exact ⟨entry, hmem, heffective, rfl⟩
  · rintro ⟨entry, hmem, heffective, rfl⟩
    exact ⟨entry, ⟨hmem, heffective⟩, rfl⟩

theorem mem_getWritableRootsWithCwd {w : WritableRoot} :
    w ∈ (restricted entries).getWritableRootsWithCwd host cwd ↔
      (restricted entries).hasFullDiskWriteAccess = false ∧
        ∃ root, ⟨root, .write⟩ ∈ (restricted entries).resolvedEntriesWithCwd host cwd ∧
          (restricted entries).canWriteLocalPath host cwd root ∧
          (restricted entries).writableRootAt host cwd root = w := by
  rw [getWritableRootsWithCwd]
  cases (restricted entries).hasFullDiskWriteAccess with
  | true => simp
  | false =>
    simp only [Bool.false_eq_true, if_false, mem_map, mem_dedupAbsolutePaths hplain,
      mem_filter, mem_preparedEntries hplain, true_and]
    constructor
    · rintro ⟨_, ⟨_, ⟨⟨entry, hmem, heffective, rfl⟩, hwrite⟩, rfl⟩, rfl⟩
      have haccess : entry.access = .write := by
        simpa [FileSystemAccessMode.canWrite] using hwrite
      refine ⟨entry.path, ?_, heffective.symm.trans hwrite, rfl⟩
      rw [← haccess]
      exact hmem
    · rintro ⟨root, hmem, hopen, rfl⟩
      exact ⟨root, ⟨_, ⟨⟨⟨root, .write⟩, hmem, hopen.symm, rfl⟩, rfl⟩, rfl⟩, rfl⟩

theorem no_writableRoot
    (h : ∀ path, (restricted entries).canWriteLocalPath host cwd path = false) {w : WritableRoot} :
    w ∉ (restricted entries).getWritableRootsWithCwd host cwd := by
  intro hw
  obtain ⟨_, root, _, hopen, _⟩ := (mem_getWritableRootsWithCwd hplain).mp hw
  rw [h root] at hopen
  exact Bool.false_ne_true hopen

theorem eq_of_mem_rawWritableRoots {root raw : AbsolutePathBuf}
    (h : raw ∈ (restricted entries).rawWritableRoots host cwd root) : raw = root := by
  obtain ⟨prepared, hmem, rfl⟩ := mem_map.mp h
  rw [mem_filter, mem_preparedEntries hplain, Bool.and_eq_true, decide_eq_true_eq] at hmem
  obtain ⟨⟨entry, _, _, rfl⟩, _, heq⟩ := hmem
  exact heq

theorem mem_protectedMetadataNames {root : AbsolutePathBuf} {name : Text} :
    name ∈ ((restricted entries).writableRootAt host cwd root).protectedMetadataNames ↔
      name ∈ protectedMetadataPathNames ∧
        (restricted entries).canWriteLocalPath host cwd (host.join root name.bytes) = false := by
  simp only [writableRootAt, protectedMetadataNamesForWritableRoot, mem_filter,
    map_cons, all_cons, Bool.and_eq_true, Bool.not_eq_true', all_eq_true,
    mem_map]
  refine and_congr_right fun _ => and_iff_left_of_imp fun hroot path => ?_
  rintro ⟨raw, hraw, rfl⟩
  rw [eq_of_mem_rawWritableRoots hplain hraw, hroot]

theorem mem_readOnlySubpaths {root path : AbsolutePathBuf} :
    path ∈ ((restricted entries).writableRootAt host cwd root).readOnlySubpaths ↔
      (∃ name ∈ protectedMetadataPathNames, host.join root name.bytes = path ∧
        (host.isDir path ∨ name = ".codex".toList ∧ cwd = root) ∧
        ∀ entry ∈ (restricted entries).resolvedEntriesWithCwd host cwd, entry.path ≠ path) ∨
      ∃ entry ∈ (restricted entries).resolvedEntriesWithCwd host cwd,
        entry.access.canWrite = false ∧
        (restricted entries).canWriteLocalPath host cwd entry.path = false ∧
        entry.path ≠ root ∧ root.components <+: entry.path.components ∧ entry.path = path := by
  simp only [writableRootAt, mem_dedupAbsolutePaths hplain, mem_append,
    mem_filter, mem_defaultReadOnlySubpaths hplain, mem_filterMap,
    normalizeEffectiveAbsolutePath_eq hplain.symlinkFree, Bool.not_eq_true',
    decide_eq_true_eq]
  refine or_congr ⟨?_, ?_⟩ ⟨?_, ?_⟩
  · rintro ⟨⟨name, hname, hjoin, hpresent⟩, hexplicit⟩
    refine ⟨name, hname, hjoin, hpresent, ?_⟩
    simpa [hasExplicitResolvedPathEntry] using hexplicit
  · rintro ⟨name, hname, hjoin, hpresent, hexplicit⟩
    refine ⟨⟨name, hname, hjoin, hpresent⟩, ?_⟩
    simpa [hasExplicitResolvedPathEntry] using hexplicit
  · rintro ⟨prepared, ⟨hmem, haccess⟩, hcarveout⟩
    obtain ⟨entry, hentry, heffective, rfl⟩ := (mem_preparedEntries hplain).mp hmem
    rw [carveout_eq fun raw => eq_of_mem_rawWritableRoots hplain] at hcarveout
    split at hcarveout
    · next hbelow =>
      exact ⟨entry, hentry, haccess, heffective.symm.trans haccess, hbelow.1,
        startsWith_iff.mp hbelow.2, Option.some.inj hcarveout⟩
    · exact nomatch hcarveout
  · rintro ⟨entry, hmem, haccess, hclosed, hne, hbelow, rfl⟩
    refine ⟨⟨entry, entry.path⟩, ⟨(mem_preparedEntries hplain).mpr ?_, haccess⟩, ?_⟩
    · exact ⟨entry, hmem, haccess.trans hclosed.symm, rfl⟩
    · rw [carveout_eq fun raw => eq_of_mem_rawWritableRoots hplain,
        if_pos ⟨hne, startsWith_iff.mpr hbelow⟩]

end Plain

section Settled
variable {host : LocalHost} {cwd : AbsolutePathBuf} {entries : List FileSystemSandboxEntry}
  (hcwd : cwd.IsOrdinary host.encodeComponent) (hamb : ¬ hasAmbiguous entries (host.context cwd))
include hcwd hamb

theorem localAccess_eq {path : AbsolutePathBuf} (h : path.IsOrdinary host.encodeComponent) :
    (restricted entries).localAccess host cwd path =
      resolve (rulesOf (host.context cwd) entries) path.components :=
  resolveAccess_eq_resolve entries _ _ (lexical_uri h) (lexical_uri hcwd) hamb

theorem canWriteLocalPath_iff (hkept : KeepsMetadataNames host.crates)
    (hfull : (restricted entries).hasFullDiskWriteAccess = false) (path : AbsolutePathBuf) :
    (restricted entries).canWriteLocalPath host cwd path ↔
      path.IsOrdinary host.encodeComponent ∧
        Opens (rulesOf (host.context cwd) entries) metadataNames path.components := by
  rw [canWriteLocalPath]
  by_cases hordinary : path.IsOrdinary host.encodeComponent
  · rw [canWritePath_iff entries (lexical_uri hordinary) (lexical_uri hcwd) hkept hamb]
    simp [hordinary, hfull, Opens]
  · have hdeny := resolveAccess_of_not_lexical entries (host.uri path) (host.context cwd)
      (.inl (not_not.mp hordinary))
    simp [hordinary, canWritePath_eq_false hdeny]

end Settled

def emptyHost : LocalHost where
  crates := literalCrates
  encodeComponent := Percent.escapePercent
  decode_encodeComponent := Percent.decode_escapePercent
  home := none
  userHomeDir := none
  tmpdir := none
  symlinkMetadata _ := none
  canonicalize _ := none
  isDir _ := false
  isFile _ := false
  pathExists _ := false
  readToString _ := none

theorem emptyHost_isPlain : emptyHost.IsPlain :=
  ⟨fun _ _ h => (nomatch h), fun _ => rfl⟩

theorem keepsMetadataNames_literalCrates : KeepsMetadataNames literalCrates := by
  have hdecode : ∀ name ∈ protectedMetadataPathNames,
      Percent.decode (Text.bytes name) = Text.bytes name := by decide
  exact fun name hname _ => hdecode name hname

def nativePath (path : String) : AbsolutePathBuf :=
  AbsolutePathBuf.root.normalizePath (Text.bytes path.toList)

end Codex.Permissions

import Codex.Permissions.LocalRoots
import Codex.Permissions.WriteRules

/-! Full-disk access is read off the entries before they are resolved: there is an entry for the
root, and none that narrows it. -/

namespace Codex
open List PathUri

namespace PathUri
open Codex.Lib Codex.Lib.Percent

theorem lexical_of_parent_eq_none {u : PathUri} (hposix : u.inferPathConvention = some .posix)
    (hdepth : u.lexicalDepth.isSome) (hparent : u.parent = none) : u.lexical = some [] := by
  cases u with
  | fallback payload => exact absurd hdepth Bool.false_ne_true
  | file host segments =>
    obtain rfl := host_eq_none hposix
    rw [parent_posix segments hposix] at hparent
    split at hparent
    · next hzero => exact lexical_of_nonemptyCount_zero hzero hposix
    · exact nomatch hparent

theorem decode_of_decodeUriPath {s name : Bytes} (hname : decode name = name)
    (h : decodeUriPath s = name) : decode s = name := by
  rw [decodeUriPath] at h
  split at h
  · exact h
  · rw [h, hname]

theorem lexical_of_basename {u : PathUri} {name : Bytes} (hname : decode name = name)
    (hposix : u.inferPathConvention = some .posix) (hdepth : u.lexicalDepth = some 1)
    (hbasename : u.basename = some name) : u.lexical = some [name] := by
  cases u with
  | fallback payload => exact nomatch hdepth
  | file host segments =>
    rw [lexicalDepth_of_posix hposix, Option.map_eq_some_iff] at hdepth
    obtain ⟨us, hus, hlength⟩ := hdepth
    rw [hus]
    have heq := (lexical_eq_some hus).2
    rw [basename, ← head?_filter, filter_reverse, Option.map_eq_some_iff] at hbasename
    obtain ⟨s, hs, hdecode⟩ := hbasename
    rw [heq, length_map] at hlength
    obtain ⟨t, ht⟩ := length_eq_one_iff.mp hlength
    rw [ht] at hs heq
    obtain rfl : t = s := by simpa using hs
    rw [heq, map_singleton, decode_of_decodeUriPath hname hdecode]

theorem lexical_join_absolute {encode : SegmentEncoding} {name : Text}
    (hname : IsPlainName encode name) (u : PosixUri) :
    ∃ v, u.join encode ('/' :: name) = some v ∧ v.lexical = some [name.bytes] := by
  have hroot : (file none rootSegments).inferPathConvention = some .posix := rfl
  have hnil : (file none rootSegments).lexical = some [] := rfl
  obtain ⟨v, hv, hlexical⟩ := lexical_join hname ⟨file none rootSegments, hroot⟩ hnil
  refine ⟨v, ?_, hlexical⟩
  rw [join_name hname ⟨file none rootSegments, hroot⟩ rfl, Option.some.injEq] at hv
  obtain ⟨hempty, hdot, hdots, hslash⟩ := hname.isName
  have huri : pathUriFromSegments encode (name.splitOn '/') = v := by
    rw [splitOn_eq_singleton hslash, ← hv]
    simp only [pathUriFromSegments, foldl_cons, foldl_nil, normalizeStep, hempty, hdot,
      hdots, if_false]
    rfl
  have hnull : '\x00' ∉ '/' :: name := by simpa using hname.notNull
  rw [PosixUri.join, if_neg hnull, if_neg (cons_ne_nil _ _)]
  simp only [fromAbsoluteNativePath, if_neg hname.notNull, huri, lexical_posix hlexical, if_true]

end PathUri

namespace Permissions
open Codex.Lib FileSystemSandboxPolicy Rule

variable {context : Context} {entries : List FileSystemSandboxEntry} {cs : List Bytes}

theorem hasFullDiskWriteAccess_iff :
    (restricted entries).hasFullDiskWriteAccess ↔
      (∃ entry ∈ entries, entry.path = .special .root ∧ entry.access = .write) ∧
        (restricted entries).hasWriteNarrowingEntries = false := by
  simp [hasFullDiskWriteAccess, hasRootAccess, restricted, FileSystemAccessMode.canWrite]

theorem hasFullDiskReadAccess_iff :
    (restricted entries).hasFullDiskReadAccess ↔
      (∃ entry ∈ entries, entry.path = .special .root ∧ entry.access ≠ .deny) ∧
        ∀ entry ∈ entries, entry.access ≠ .deny := by
  simp [hasFullDiskReadAccess, hasRootAccess, hasDeniedReadRestrictions, restricted,
    FileSystemAccessMode.canRead]

theorem mem_rulesOf {r : Rule Bytes} :
    r ∈ rulesOf context entries ↔ ∃ entry ∈ entries, entry.access = r.access ∧
      ∃ u ∈ entryPaths context entry.path, u.lexical = some r.root := by
  simp only [rulesOf, mem_lexicalRules, mem_resolvedEntries, restricted]
  constructor
  · rintro ⟨u, ⟨entry, hentry, haccess, hu, _⟩, hlexical⟩
    exact ⟨entry, hentry, haccess, u, hu, hlexical⟩
  · rintro ⟨entry, hentry, haccess, u, hu, hlexical⟩
    exact ⟨u, ⟨entry, hentry, haccess, hu, lexical_posix hlexical⟩, hlexical⟩

theorem entryPaths_root (hcwd : context.cwd.uri.lexical = some cs) :
    entryPaths context (.special .root) = [context.cwd.uri.root] := by
  rw [entryPaths, fileSystemRoot, if_neg]
  · rfl
  · rw [lexicalDepth_of_lexical hcwd]
    exact Bool.false_ne_true

theorem root_mem_rulesOf (hcwd : context.cwd.uri.lexical = some cs) {entry : FileSystemSandboxEntry}
    (h : entry ∈ entries) (hpath : entry.path = .special .root) :
    ⟨[], entry.access⟩ ∈ rulesOf context entries := by
  refine mem_rulesOf.mpr ⟨entry, h, rfl, context.cwd.uri.root, ?_, root_lexical hcwd⟩
  rw [hpath, entryPaths_root hcwd]
  exact mem_singleton_self _

def tmpName : Text := "tmp".toList

theorem isPlainName_tmp {crates : Crates} (htmp : PathUri.Kept crates.encode tmpName) :
    PathUri.IsPlainName crates.encode tmpName := by
  have hlength : tmpName.bytes.length ≠ 2 := by decide
  refine ⟨by decide, by decide, fun drive _ hdrive => hlength ?_, htmp⟩
  rw [hdrive]
  rfl

theorem entryPaths_slashTmp (htmp : PathUri.Kept context.crates.encode tmpName) :
    ∃ v, entryPaths context (.special .slashTmp) = [v] ∧ v.lexical = some [tmpName.bytes] := by
  obtain ⟨v, hv, hlexical⟩ := lexical_join_absolute (isPlainName_tmp htmp) context.cwd
  refine ⟨v, ?_, hlexical⟩
  rw [entryPaths, Context.join]
  exact congrArg Option.toList hv

section Targets
variable (hcwd : context.cwd.uri.lexical = some cs)
  (htmp : PathUri.Kept context.crates.encode tmpName)
include hcwd htmp

theorem entryPaths_of_specialPathMatches {value : FileSystemSpecialPath} {path : PathUri}
    (hposix : path.inferPathConvention = some .posix)
    (h : specialPathMatchesPathUri value path) :
    ∃ v, entryPaths context (.special value) = [v] ∧ v.lexical = path.lexical := by
  cases value with
  | root =>
    simp only [specialPathMatchesPathUri, Bool.and_eq_true, Option.isNone_iff_eq_none] at h
    rw [lexical_of_parent_eq_none hposix h.1 h.2]
    exact ⟨_, entryPaths_root hcwd, root_lexical hcwd⟩
  | slashTmp =>
    simp only [specialPathMatchesPathUri, Bool.and_eq_true, decide_eq_true_eq] at h
    rw [lexical_of_basename (by decide) hposix h.1.2 h.2]
    exact entryPaths_slashTmp htmp
  | _ => exact absurd h Bool.false_ne_true

theorem exists_lexical_of_shareTarget {left right : FileSystemPath}
    (h : fileSystemPathsShareTarget left right) {u : PathUri} {rs : List Bytes}
    (hu : u ∈ entryPaths context right) (hlexical : u.lexical = some rs) :
    ∃ v ∈ entryPaths context left, v.lexical = some rs := by
  unfold fileSystemPathsShareTarget at h
  split at h
  · obtain rfl := mem_singleton.mp hu
    rw [eq_iff_of_posix_right (lexical_posix hlexical)] at h
    exact ⟨_, mem_singleton_self _, h ▸ hlexical⟩
  · rw [decide_eq_true_eq] at h
    exact ⟨u, h ▸ hu, hlexical⟩
  · next path value =>
    rw [Bool.and_eq_true, decide_eq_true_eq] at h
    obtain ⟨v, hv, heq⟩ := entryPaths_of_specialPathMatches hcwd htmp h.1 h.2
    rw [hv, mem_singleton] at hu
    exact ⟨path, mem_singleton_self _, heq ▸ hu ▸ hlexical⟩
  · next value path =>
    rw [Bool.and_eq_true, decide_eq_true_eq] at h
    obtain ⟨v, hv, heq⟩ := entryPaths_of_specialPathMatches hcwd htmp h.1 h.2
    obtain rfl := mem_singleton.mp hu
    exact ⟨v, hv ▸ mem_singleton_self v, heq.trans hlexical⟩
  · exact absurd hu not_mem_nil
  · exact absurd h Bool.false_ne_true

theorem write_mem_of_override {entry : FileSystemSandboxEntry}
    (h : (restricted entries).hasSameTargetWriteOverride entry) {u : PathUri}
    {rs : List Bytes} (hu : u ∈ entryPaths context entry.path) (hlexical : u.lexical = some rs) :
    entry.access ≠ .deny ∧ ⟨rs, .write⟩ ∈ rulesOf context entries := by
  simp only [hasSameTargetWriteOverride, restricted, any_eq_true, Bool.and_eq_true,
    decide_eq_true_eq] at h
  obtain ⟨candidate, hcandidate, ⟨hwrite, hprecedence⟩, htarget⟩ := h
  have haccess : candidate.access = .write := by
    simpa [FileSystemAccessMode.canWrite] using hwrite
  refine ⟨?_, mem_rulesOf.mpr ⟨candidate, hcandidate, haccess, ?_⟩⟩
  · intro hdeny
    rw [hdeny, haccess] at hprecedence
    exact absurd hprecedence (by decide)
  · exact exists_lexical_of_shareTarget hcwd htmp htarget hu hlexical

theorem write_mem_of_full (hfull : (restricted entries).hasFullDiskWriteAccess)
    {r : Rule Bytes} (hr : r ∈ rulesOf context entries) (haccess : r.access ≠ .write) :
    r.access ≠ .deny ∧ ⟨r.root, .write⟩ ∈ rulesOf context entries := by
  obtain ⟨⟨rootEntry, hroot, hrootPath, hrootAccess⟩, hnarrow⟩ :=
    hasFullDiskWriteAccess_iff.mp hfull
  obtain ⟨entry, hentry, hentryAccess, u, hu, hlexical⟩ := mem_rulesOf.mp hr
  have hreadOnly : entry.access.canWrite = false := by
    rw [hentryAccess]
    simpa [FileSystemAccessMode.canWrite] using haccess
  have hoverride : (restricted entries).hasSameTargetWriteOverride entry →
      r.access ≠ .deny ∧ ⟨r.root, .write⟩ ∈ rulesOf context entries := by
    intro h
    rw [← hentryAccess]
    exact write_mem_of_override hcwd htmp h hu hlexical
  simp only [hasWriteNarrowingEntries, show (restricted entries).kind = .restricted from rfl,
    decide_true, Bool.true_and, any_eq_false] at hnarrow
  have hentryNarrow := hnarrow entry hentry
  rw [hreadOnly, Bool.not_false, Bool.true_and, Bool.not_eq_true] at hentryNarrow
  split at hentryNarrow
  · exact hoverride (by simpa using hentryNarrow)
  · cases hentryNarrow
  · next hpath =>
    rw [hpath, entryPaths_root hcwd, mem_singleton] at hu
    rw [hu, root_lexical hcwd, Option.some.injEq] at hlexical
    refine ⟨by simpa [hentryAccess] using hentryNarrow, ?_⟩
    have hmem := root_mem_rulesOf hcwd hroot hrootPath
    rwa [hrootAccess, hlexical] at hmem
  · next hpath =>
    rw [hpath] at hu
    exact absurd hu not_mem_nil
  · next hpath =>
    rw [hpath] at hu
    exact absurd hu not_mem_nil
  · exact hoverride (by simpa using hentryNarrow)

theorem resolve_of_full_write (hfull : (restricted entries).hasFullDiskWriteAccess)
    (p : List Bytes) : resolve (rulesOf context entries) p = .write := by
  obtain ⟨⟨rootEntry, hroot, hpath, _⟩, _⟩ := hasFullDiskWriteAccess_iff.mp hfull
  obtain ⟨d, hd, hresolve⟩ :=
    exists_decides (root_mem_rulesOf hcwd hroot hpath) (List.nil_prefix : [] <+: p)
  rw [hresolve]
  by_contra haccess
  obtain ⟨hdeny, hwrite⟩ := write_mem_of_full hcwd htmp hfull hd.mem haccess
  have hkey := (key_le_iff _ d).mp (hd.max _ hwrite hd.covers)
  have hread : d.access = .read := by
    cases h : d.access with
    | read => rfl
    | write => exact absurd h haccess
    | deny => exact absurd h hdeny
  rw [hread] at hkey
  simp [FileSystemAccessMode.precedence] at hkey

end Targets

theorem resolve_of_full_read (hcwd : context.cwd.uri.lexical = some cs)
    (hfull : (restricted entries).hasFullDiskReadAccess) (p : List Bytes) :
    resolve (rulesOf context entries) p ≠ .deny := by
  obtain ⟨⟨rootEntry, hroot, hpath, _⟩, hdeny⟩ := hasFullDiskReadAccess_iff.mp hfull
  obtain ⟨d, hd, hresolve⟩ :=
    exists_decides (root_mem_rulesOf hcwd hroot hpath) (List.nil_prefix : [] <+: p)
  obtain ⟨entry, hentry, haccess, _⟩ := mem_rulesOf.mp hd.mem
  rw [hresolve, ← haccess]
  exact hdeny entry hentry

def FileSystemSandboxPolicy.matchesReadDeny (self : FileSystemSandboxPolicy) (path : PathUri)
    (context : Context) : Bool :=
  (self.readDenyMatcher context).any (matchesPreparedReadDeny path context)

/-- The root of the file system is known, and no entry resolves to anything but a lexical root. -/
structure ResolvesLexically (policy : FileSystemSandboxPolicy) (context : Context) : Prop where
  root : (fileSystemRoot context).isSome = true
  entries : ∀ e ∈ policy.resolvedEntries context, e.1.lexicalDepth.isSome = true

theorem ResolvesLexically.cwd {policy : FileSystemSandboxPolicy}
    (h : ResolvesLexically policy context) : ∃ cs, context.cwd.uri.lexical = some cs := by
  obtain ⟨root, hroot⟩ := Option.isSome_iff_exists.mp h.root
  exact cwd_lexical_of_fileSystemRoot hroot

theorem ResolvesLexically.not_hasAmbiguous (h : ResolvesLexically (restricted entries) context) :
    ¬ hasAmbiguous entries context := by
  rintro ⟨e, he, hambiguous⟩
  have hdepth := ((isAmbiguous_iff (resolvedEntries_posix _ context e he)).mp hambiguous).1
  have hsome := h.entries e he
  rw [hdepth] at hsome
  cases hsome

theorem matchesReadDeny_of_no_deny {policy : FileSystemSandboxPolicy}
    (h : ∀ entry ∈ policy.entries, entry.access ≠ .deny) (path : PathUri) (context : Context) :
    policy.matchesReadDeny path context = false := by
  have hnone : policy.readDenyMatcher context = none := by
    rw [readDenyMatcher, if_neg]
    simpa using h
  rw [matchesReadDeny, hnone]
  rfl

theorem full_disk_shortcuts_agree (policy : FileSystemSandboxPolicy) (context : Context)
    (p : PathUri) {ps : List Bytes} (htmp : PathUri.Kept context.crates.encode tmpName)
    (hroots : policy.kind = .restricted → ResolvesLexically policy context)
    (hp : p.lexical = some ps) :
    (policy.hasFullDiskWriteAccess = true → policy.resolveAccess p context = .write) ∧
      (policy.hasFullDiskReadAccess = true → (policy.resolveAccess p context).canRead = true ∧
        (policy.kind = .restricted → policy.matchesReadDeny p context = false)) := by
  obtain ⟨kind, depth, entries⟩ := policy
  by_cases hkind : kind = .restricted
  · subst hkind
    have hlexical : ResolvesLexically (restricted entries) context :=
      ⟨(hroots rfl).root, (hroots rfl).entries⟩
    obtain ⟨cs, hcwd⟩ := hlexical.cwd
    have hresolve : FileSystemSandboxPolicy.resolveAccess ⟨.restricted, depth, entries⟩ p context =
        resolve (rulesOf context entries) ps :=
      resolveAccess_eq_resolve entries p context hp hcwd hlexical.not_hasAmbiguous
    rw [hresolve]
    refine ⟨fun hfull => resolve_of_full_write hcwd htmp hfull ps, fun hfull => ⟨?_, fun _ => ?_⟩⟩
    · exact decide_eq_true (resolve_of_full_read hcwd hfull ps)
    · have hfull : (restricted entries).hasFullDiskReadAccess = true := hfull
      exact matchesReadDeny_of_no_deny (hasFullDiskReadAccess_iff.mp hfull).2 p context
  · have hwrite : FileSystemSandboxPolicy.resolveAccess ⟨kind, depth, entries⟩ p context = .write :=
      if_pos hkind
    rw [hwrite]
    exact ⟨fun _ => rfl, fun _ => ⟨rfl, fun hrestricted => absurd hrestricted hkind⟩⟩

def writableDisk : FileSystemSandboxPolicy :=
  restricted [⟨.special .root, .write, false⟩, ⟨.special .slashTmp, .read, false⟩,
    pathEntry ["tmp"] .write]

theorem full_disk_shortcuts_agree_tmp :
    (writableDisk.hasFullDiskWriteAccess = true ∧ writableDisk.hasFullDiskReadAccess = true) ∧
      writableDisk.resolveAccess (localFile ["tmp", "a"]) rootContext = .write ∧
      writableDisk.matchesReadDeny (localFile ["tmp", "a"]) rootContext = false := by
  have hfull : writableDisk.hasFullDiskWriteAccess = true ∧
      writableDisk.hasFullDiskReadAccess = true := by decide +kernel
  have hroots : ResolvesLexically writableDisk rootContext := ⟨by decide +kernel, by decide +kernel⟩
  have hkept : Percent.decode tmpName.bytes = tmpName.bytes := by decide +kernel
  have hpath : (localFile ["tmp", "a"]).lexical = some [tmpName.bytes, Text.bytes ['a']] := by
    decide +kernel
  obtain ⟨hwrite, hread⟩ := full_disk_shortcuts_agree writableDisk rootContext
    (localFile ["tmp", "a"]) (fun _ => hkept) (fun _ => hroots) hpath
  exact ⟨hfull, hwrite hfull.1, (hread hfull.2).2 rfl⟩

/-- Nothing is resolved under an unrestricted policy, but its denies are matched. -/
theorem unrestricted_deny_matches :
    let policy : FileSystemSandboxPolicy := ⟨.unrestricted, none, [pathEntry ["a"] .deny]⟩
    ResolvesLexically policy rootContext ∧ policy.hasFullDiskReadAccess = true ∧
      policy.resolveAccess (localFile ["a"]) rootContext = .write ∧
      policy.matchesReadDeny (localFile ["a"]) rootContext = true := by
  exact ⟨⟨by decide +kernel, by decide +kernel⟩, by decide +kernel, by decide +kernel,
    by decide +kernel⟩

end Permissions

end Codex

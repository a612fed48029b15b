import Codex.PathUri.Native
import Codex.Permissions.ProtectedNames
import Codex.Permissions.Resolution
import Codex.Permissions.WriteAccess

/-! `can_write_path` computes what the rules of a policy permit with the metadata directories as
protected names, provided that the `url` crate keeps these names as they are. -/

namespace Codex
open PathUri
open Option hiding any any_eq_true or or_self
open List

namespace PathUri
open Codex.Lib Codex.Lib.Percent

structure IsPlainName (encode : SegmentEncoding) (name : Text) : Prop where
  isName : name ≠ [] ∧ name ≠ ['.'] ∧ name ≠ ['.', '.'] ∧ '/' ∉ name
  notNull : '\x00' ∉ name
  notDrive : ∀ drive, isAsciiAlphabetic drive = true → name.bytes ≠ [drive, 58]
  kept : Kept encode name

theorem filter_popIfEmpty (segments : List Bytes) :
    (popIfEmpty segments).filter (fun s => !s.isEmpty) = segments.filter fun s => !s.isEmpty := by
  unfold popIfEmpty
  split
  · next hlast =>
    obtain ⟨front, hfront⟩ := getLast?_eq_some_iff.mp hlast.2
    rw [hfront, dropLast_concat, filter_append]
    simp
  · rfl

theorem filter_pushEncoded (segments : List Bytes) {s : Bytes} (hs : s ≠ []) :
    (pushEncoded (popIfEmpty segments) s).filter (fun s => !s.isEmpty) =
      segments.filter (fun s => !s.isEmpty) ++ [s] := by
  rw [← filter_popIfEmpty segments, pushEncoded]
  split
  · next hroot =>
    rw [hroot]
    simp [rootSegments, hs]
  · rw [filter_append]
    simp [hs]

theorem normalizeDriveLetter_eq {segments : List Bytes}
    (h : (segments.find? fun s => !s.isEmpty).any isWindowsDriveUriSegment = false) :
    normalizeDriveLetter segments = segments := by
  induction segments with
  | nil => rfl
  | cons s segments ih =>
    cases hempty : s.isEmpty with
    | true =>
      rw [find?_cons_of_neg (by simp [hempty])] at h
      rw [normalizeDriveLetter, if_pos hempty, ih h]
    | false =>
      rw [find?_cons_of_pos (by simp [hempty]), any_some] at h
      rw [normalizeDriveLetter, if_neg (by simp [hempty]), if_neg (by simp [h])]

theorem join_name {encode : SegmentEncoding} {name : Text} (hname : IsPlainName encode name)
    (u : PosixUri) {host : Option Text} {segments : List Bytes} (hu : u.uri = file host segments) :
    u.join encode name = some (file host (normalizeDriveLetter
      (pushEncoded (popIfEmpty segments) (encode (popIfEmpty segments) name)))) := by
  obtain ⟨hempty, hdot, hdots, hslash⟩ := hname.isName
  have habsolute : fromAbsoluteNativePath encode name = none := by
    unfold fromAbsoluteNativePath
    split
    · exact absurd mem_cons_self hslash
    · rfl
  rw [PosixUri.join, if_neg hname.notNull, if_neg hempty, habsolute, hu]
  simp only [splitOn_eq_singleton hslash, foldl_cons, foldl_nil, joinStep, hempty,
    hdot, hdots, or_self, if_false, pushSegment]

theorem lexical_join {encode : SegmentEncoding} {name : Text} (hname : IsPlainName encode name)
    (u : PosixUri) {us : List Bytes} (hu : u.uri.lexical = some us) :
    ∃ v, u.join encode name = some v ∧ v.lexical = some (us ++ [name.bytes]) := by
  cases huri : u.uri with
  | fallback payload =>
    rw [huri] at hu
    exact nomatch hu
  | file host segments =>
    refine ⟨_, join_name hname u huri, ?_⟩
    have hposix := u.posix
    rw [huri] at hu hposix
    obtain rfl := host_eq_none hposix
    have hdecode := hname.kept (popIfEmpty segments)
    generalize encode (popIfEmpty segments) name = s at hdecode
    have hs : s ≠ [] := by
      rintro rfl
      exact hname.isName.1 (Text.bytes_injective (hdecode.symm.trans Text.bytes_nil.symm))
    have hfilter := filter_pushEncoded segments hs
    -- The first segment is the old one, or the name, which is no drive.
    have hdrive : ((pushEncoded (popIfEmpty segments) s).find? fun s => !s.isEmpty).any
        isWindowsDriveUriSegment = false := by
      rw [posix_file_iff, ← head?_filter] at hposix
      rw [← head?_filter, hfilter]
      cases hold : segments.filter fun s => !s.isEmpty with
      | cons first rest =>
        rw [hold] at hposix
        exact hposix
      | nil =>
        rw [nil_append, head?_cons, any_some, ← Bool.not_eq_true]
        intro hs
        obtain ⟨drive, halpha, heq⟩ := decode_drive hs
        exact hname.notDrive drive halpha (hdecode.symm.trans heq)
    rw [normalizeDriveLetter_eq hdrive]
    obtain ⟨hsegments, rfl⟩ := lexical_eq_some hu
    have hseparator : hasNativeSeparator .posix s = false := by
      apply hasNativeSeparator_eq_false
      rw [hdecode]
      exact slash_notMem_bytes hname.isName.2.2.2
    have hnone : (segments.filter fun s => !s.isEmpty).any (hasNativeSeparator .posix) = false := by
      by_contra hany
      rw [Bool.not_eq_false] at hany
      simp [containmentPathSegments, hany] at hsegments
    simp [lexical, (posix_file_iff _).mpr hdrive, containmentPathSegments, hfilter, hnone,
      hseparator, hdecode]

end PathUri

namespace Permissions
open Codex.Lib FileSystemSandboxPolicy Rule

def metadataNames : List Bytes := protectedMetadataPathNames.map Text.bytes

def KeepsMetadataNames (crates : Crates) : Prop :=
  ∀ name ∈ protectedMetadataPathNames, PathUri.Kept crates.encode name

theorem isPlainName_of_mem {crates : Crates} (hkept : KeepsMetadataNames crates) {name : Text}
    (h : name ∈ protectedMetadataPathNames) : PathUri.IsPlainName crates.encode name := by
  have hplain : (name ≠ [] ∧ name ≠ ['.'] ∧ name ≠ ['.', '.'] ∧ '/' ∉ name) ∧
      '\x00' ∉ name ∧ name.bytes.length ≠ 2 := by
    revert name
    decide
  refine ⟨hplain.1, hplain.2.1, fun drive _ hdrive => hplain.2.2 ?_, hkept name h⟩
  rw [hdrive]
  rfl

variable {context : Context} {path : PathUri} {ps : List Bytes}

theorem protectedDirectory_eq_some (hpath : path.lexical = some ps)
    (hkept : KeepsMetadataNames context.crates) {root directory : PathUri} {name : Text}
    (h : protectedDirectory context path root = some (directory, name)) :
    ∃ rs ds, root.lexical = some rs ∧ directory.lexical = some ds ∧
      directoryOver metadataNames ps rs = some ds := by
  obtain ⟨found, hname, hfound⟩ := exists_of_findSome?_eq_some h
  split at hfound
  · next hposix =>
    simp only [map_eq_some_iff, Prod.mk.injEq, filter_eq_some_iff] at hfound
    obtain ⟨_, ⟨hdescendant, hover⟩, rfl, rfl⟩ := hfound
    rw [PosixUri.joinDescendant, filter_eq_some_iff, Bool.and_eq_true] at hdescendant
    obtain ⟨hjoin, _, hbelow⟩ := hdescendant
    obtain ⟨ds, hds, hover⟩ := (startsWith_iff hpath).mp hover
    obtain ⟨rs, hrs, _⟩ := (startsWith_iff hds).mp hbelow
    obtain ⟨v, hv, hlexical⟩ := lexical_join (isPlainName_of_mem hkept hname) ⟨root, hposix⟩ hrs
    rw [hjoin, Option.some.injEq] at hv
    rw [← hv, hds, Option.some.injEq] at hlexical
    refine ⟨rs, ds, hrs, hds, directoryOver_eq_some_iff.mpr ⟨_, ?_, hlexical, hover⟩⟩
    exact List.mem_map.mpr ⟨found, hname, rfl⟩
  · exact nomatch hfound

theorem directoryOver_of_protectedDirectory_none (hpath : path.lexical = some ps)
    (hkept : KeepsMetadataNames context.crates) {root : PathUri} {rs : List Bytes}
    (hroot : root.lexical = some rs) (h : protectedDirectory context path root = none) :
    directoryOver metadataNames ps rs = none := by
  cases hover : directoryOver metadataNames ps rs with
  | none => rfl
  | some ds =>
    obtain ⟨_, hmem, rfl, hover⟩ := directoryOver_eq_some_iff.mp hover
    obtain ⟨name, hname, rfl⟩ := List.mem_map.mp hmem
    have hposix := lexical_posix hroot
    obtain ⟨v, hv, hlexical⟩ := lexical_join (isPlainName_of_mem hkept hname) ⟨root, hposix⟩ hroot
    have hslash : name.head? ≠ some '/' := by
      intro hhead
      exact (isPlainName_of_mem hkept hname).isName.2.2.2 (mem_of_mem_head? hhead)
    have hbelow : v.startsWith root :=
      (startsWith_iff hlexical).mpr ⟨rs, hroot, prefix_append rs _⟩
    have hpathOver : path.startsWith v := (startsWith_iff hpath).mpr ⟨_, hlexical, hover⟩
    have hnone := findSome?_eq_none_iff.mp h name hname
    rw [dif_pos hposix, PosixUri.joinDescendant, hv] at hnone
    simp [hslash, hbelow, hpathOver] at hnone

theorem lexicalRules_cons_some {u : PathUri} {rs : List Bytes} (h : u.lexical = some rs)
    (a : FileSystemAccessMode) (roots : List (PathUri × FileSystemAccessMode)) :
    lexicalRules ((u, a) :: roots) = ⟨rs, a⟩ :: lexicalRules roots := by
  rw [lexicalRules, filterMap_cons, h]
  rfl

theorem lexicalRules_cons_none {u : PathUri} (h : u.lexical = none) (a : FileSystemAccessMode)
    (roots : List (PathUri × FileSystemAccessMode)) :
    lexicalRules ((u, a) :: roots) = lexicalRules roots := by
  rw [lexicalRules, filterMap_cons, h]
  rfl

theorem firstDirectory_cons (r : Rule Bytes) (rules : List (Rule Bytes)) :
    firstDirectory (r :: rules) metadataNames ps =
      if r.access.canWrite then
        (directoryOver metadataNames ps r.root).or (firstDirectory rules metadataNames ps)
      else firstDirectory rules metadataNames ps := by
  rw [firstDirectory, filter_cons]
  split
  · rw [findSome?_cons]
    cases directoryOver metadataNames ps r.root <;> rfl
  · rfl

theorem lexical_findSome?_protectedDirectory (hpath : path.lexical = some ps)
    (hkept : KeepsMetadataNames context.crates)
    (roots : List (PathUri × FileSystemAccessMode)) :
    ((roots.filter (·.2.canWrite)).findSome? (protectedDirectory context path ·.1)).map
        (·.1.lexical) =
      (firstDirectory (lexicalRules roots) metadataNames ps).map some := by
  induction roots with
  | nil => rfl
  | cons root roots ih =>
    obtain ⟨u, a⟩ := root
    rw [filter_cons]
    cases hwrite : a.canWrite with
    | false =>
      rw [if_neg (by simp), ih]
      cases hrs : u.lexical with
      | none => rw [lexicalRules_cons_none hrs]
      | some rs =>
        rw [lexicalRules_cons_some hrs, firstDirectory_cons, if_neg (by simp [hwrite])]
    | true =>
      rw [if_pos rfl, findSome?_cons]
      cases hdirectory : protectedDirectory context path u with
      | some found =>
        obtain ⟨rs, ds, hrs, hds, hover⟩ := protectedDirectory_eq_some hpath hkept hdirectory
        rw [lexicalRules_cons_some hrs, firstDirectory_cons, if_pos hwrite, hover]
        simp [hds]
      | none =>
        simp only []
        rw [ih]
        cases hrs : u.lexical with
        | none => rw [lexicalRules_cons_none hrs]
        | some rs =>
          rw [lexicalRules_cons_some hrs, firstDirectory_cons, if_pos hwrite,
            directoryOver_of_protectedDirectory_none hpath hkept hrs hdirectory, none_or]

theorem reopens_iff (hpath : path.lexical = some ps) {directory : PathUri} {ds : List Bytes}
    (hdirectory : directory.lexical = some ds) (roots : List (PathUri × FileSystemAccessMode)) :
    reopens path directory roots ↔ Reopened (lexicalRules roots) ps ds := by
  simp only [reopens, any_eq_true, Bool.and_eq_true, Reopened, mem_lexicalRules]
  constructor
  · rintro ⟨⟨u, a⟩, hmem, ⟨hwrite, hover⟩, hinside⟩
    obtain ⟨rs, hrs, hover⟩ := (startsWith_iff hpath).mp hover
    obtain ⟨ds', hds', hinside⟩ := (startsWith_iff hrs).mp hinside
    rw [hdirectory, Option.some.injEq] at hds'
    exact ⟨⟨rs, a⟩, ⟨u, hmem, hrs⟩, hwrite, hover, hds' ▸ hinside⟩
  · rintro ⟨r, ⟨u, hmem, hrs⟩, hwrite, hover, hinside⟩
    refine ⟨(u, r.access), hmem, ⟨hwrite, ?_⟩, ?_⟩
    · exact (startsWith_iff hpath).mpr ⟨r.root, hrs, hover⟩
    · exact (startsWith_iff hrs).mpr ⟨ds, hdirectory, hinside⟩

theorem metadataWriteDenial_isSome_iff (entries : List FileSystemSandboxEntry)
    (hpath : path.lexical = some ps) (hkept : KeepsMetadataNames context.crates) :
    ((restricted entries).metadataWriteDenial path context).isSome ↔
      MetadataDenied (rulesOf context entries) metadataNames ps := by
  have hfirst := lexical_findSome?_protectedDirectory hpath hkept
    ((restricted entries).resolvedEntries context)
  rw [metadataWriteDenial, if_neg (by simp [restricted])]
  simp only [MetadataDenied, rulesOf]
  cases hfound : (((restricted entries).resolvedEntries context).filter (·.2.canWrite)).findSome?
      (protectedDirectory context path ·.1) with
  | none =>
    rw [hfound, map_none, eq_comm, map_eq_none_iff] at hfirst
    simp [hfirst]
  | some found =>
    obtain ⟨directory, name⟩ := found
    rw [hfound, map_some, eq_comm, map_eq_some_iff] at hfirst
    obtain ⟨ds, hds, hdirectory⟩ := hfirst
    simp only [hds, Option.some.injEq, exists_eq_left', ← reopens_iff hpath hdirectory.symm]
    split
    · next hreopens => simp [hreopens]
    · next hreopens => simp [hreopens]

theorem canWritePath_iff (entries : List FileSystemSandboxEntry) (hpath : path.lexical = some ps)
    {cs : List Bytes} (hcwd : context.cwd.uri.lexical = some cs)
    (hkept : KeepsMetadataNames context.crates) (hamb : ¬ hasAmbiguous entries context) :
    (restricted entries).canWritePath path context ↔
      resolve (rulesOf context entries) ps = .write ∧
        ((restricted entries).hasFullDiskWriteAccess ∨
          ¬ MetadataDenied (rulesOf context entries) metadataNames ps) := by
  rw [canWritePath, Bool.and_eq_true, Bool.or_eq_true,
    resolveAccess_eq_resolve entries path context hpath hcwd hamb,
    ← metadataWriteDenial_isSome_iff entries hpath hkept]
  simp [FileSystemAccessMode.canWrite]

theorem canWritePath_eq_false {entries : List FileSystemSandboxEntry}
    (h : (restricted entries).resolveAccess path context = .deny) :
    (restricted entries).canWritePath path context = false := by
  rw [canWritePath, h]
  rfl

end Permissions

end Codex

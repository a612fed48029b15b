import Codex.PathUri.Lexical

/-! The components of a URI are the non-empty parts of its native path. -/

namespace Codex.PathUri
open Codex.Lib Codex.Lib.Percent List

def components (path : Bytes) : List Bytes := (path.splitOn slash).filter fun s => !s.isEmpty

theorem isEmpty_decode (s : Bytes) : (decode s).isEmpty = s.isEmpty := by
  match s with
  | [] => rfl
  | [a] => rfl
  | [a, b] => rfl
  | a :: b :: c :: rest =>
    rw [decode]
    split
    · split <;> rfl
    · rfl

theorem filter_map_decode (segments : List Bytes) :
    (segments.map decode).filter (fun s => !s.isEmpty) =
      (segments.filter fun s => !s.isEmpty).map decode := by
  simp only [filter_map, Function.comp_def, isEmpty_decode]

variable {segments : List Bytes} {encode : SegmentEncoding}

theorem slash_notMem_of_containment {path : List Bytes}
    (h : containmentPathSegments segments .posix = some path) :
    ∀ s ∈ segments.map decode, slash ∉ s := by
  intro d hd hmem
  obtain ⟨s, hs, rfl⟩ := mem_map.mp hd
  unfold containmentPathSegments at h
  simp only [] at h
  split at h
  · exact absurd h (by simp)
  · next hnone =>
    have hne : s ≠ [] := by
      rintro rfl
      exact not_mem_nil hmem
    refine hnone (any_eq_true.mpr ⟨s, mem_filter.mpr ⟨hs, by simpa using hne⟩, ?_⟩)
    exact any_eq_true.mpr ⟨slash, hmem, by simp⟩

theorem hasNativeSeparator_eq_false {s : Bytes} (h : slash ∉ decode s) :
    hasNativeSeparator .posix s = false := by
  rw [hasNativeSeparator, any_eq_false]
  intro b hb hsep
  simp only [reduceCtorEq, decide_false, Bool.false_and, Bool.or_false, decide_eq_true_eq] at hsep
  exact h (hsep ▸ hb)

theorem splitOn_decodedPathBytes {path : List Bytes}
    (h : containmentPathSegments segments .posix = some path) :
    (decodedPathBytes segments).splitOn slash = [] :: segments.map decode := by
  have hdecode := decode_flatMap_sep slash slash_isSeparator [] segments
  simp only [nil_append, decode_nil] at hdecode
  rw [decodedPathBytes, encodedPath, hdecode]
  exact splitOn_flatMap_sep slash [] _ not_mem_nil (slash_notMem_of_containment h)

theorem lexical_eq_some {host : Option Text} {ps : List Bytes}
    (h : (file host segments).lexical = some ps) :
    (containmentPathSegments segments .posix).isSome ∧
      ps = (segments.filter fun s => !s.isEmpty).map decode := by
  simp only [lexical, lexical_posix h, if_true, Option.map_eq_some_iff] at h
  obtain ⟨path, hpath, rfl⟩ := h
  refine ⟨by rw [hpath]; rfl, ?_⟩
  unfold containmentPathSegments at hpath
  simp only [] at hpath
  split at hpath
  · exact absurd hpath (by simp)
  · rw [Option.some.inj hpath]

def Kept (encode : SegmentEncoding) (segment : Text) : Prop :=
  ∀ segments, decode (encode segments segment) = segment.bytes

def segmentsOf (encoded : List Bytes) : List Bytes :=
  if encoded = [] then rootSegments else encoded

theorem isAsciiAlphabetic_upper {b : UInt8} (h : isAsciiAlphabetic b) :
    isAsciiAlphabetic (if 97 ≤ b && b ≤ 122 then b - 32 else b) := by
  split
  · next hlower =>
    simp only [Bool.and_eq_true, decide_eq_true_eq, UInt8.le_iff_toNat_le] at hlower
    have hsub : (b - 32).toNat = b.toNat - 32 := by
      rw [UInt8.toNat_sub_of_le]
      · rfl
      · rw [UInt8.le_iff_toNat_le]
        exact le_trans (by decide) hlower.1
    simp only [isAsciiAlphabetic, Bool.or_eq_true, Bool.and_eq_true, decide_eq_true_eq,
      UInt8.le_iff_toNat_le, hsub]
    have h97 : (97 : UInt8).toNat = 97 := rfl
    have h122 : (122 : UInt8).toNat = 122 := rfl
    have h65 : (65 : UInt8).toNat = 65 := rfl
    have h90 : (90 : UInt8).toNat = 90 := rfl
    omega
  · exact h

theorem isWindowsDriveUriSegment_upper {s : Bytes} (h : isWindowsDriveUriSegment s) :
    isWindowsDriveUriSegment (s.modifyHead fun b => if 97 ≤ b && b ≤ 122 then b - 32 else b) =
      true := by
  unfold isWindowsDriveUriSegment at h
  split at h
  · simp only [Bool.and_eq_true] at h
    simp only [modifyHead_cons, isWindowsDriveUriSegment, isAsciiAlphabetic_upper h.1, h.2,
      Bool.and_self]
  · simp only [Bool.and_eq_true] at h
    simp only [modifyHead_cons, isWindowsDriveUriSegment, isAsciiAlphabetic_upper h.1.1.1,
      h.1.1.2, h.1.2, h.2, Bool.and_self]
  · exact absurd h Bool.false_ne_true

theorem normalizeDriveLetter_of_posix
    (h : (file none (normalizeDriveLetter segments)).inferPathConvention = some .posix) :
    normalizeDriveLetter segments = segments := by
  rw [posix_file_iff] at h
  induction segments with
  | nil => rfl
  | cons s segments ih =>
    by_cases hempty : s.isEmpty
    · rw [normalizeDriveLetter, if_pos hempty] at h ⊢
      rw [find?_cons_of_neg (by simp [hempty])] at h
      rw [ih h]
    · by_cases hdrive : isWindowsDriveUriSegment s
      · have hupper := isWindowsDriveUriSegment_upper hdrive
        rw [normalizeDriveLetter, if_neg hempty, if_pos hdrive] at h
        rw [find?_cons_of_pos, Option.any_some, hupper] at h
        · exact absurd h (by decide)
        · cases s with
          | nil => exact absurd rfl hempty
          | cons b s => rfl
      · rw [normalizeDriveLetter, if_neg hempty, if_neg hdrive]

end Codex.PathUri

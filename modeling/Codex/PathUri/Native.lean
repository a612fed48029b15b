import Codex.AbsolutePath
import Codex.PathUri.Absolute

/-! `from_abs_path` and `to_abs_path` of `utils/path-uri`. How `Url::from_file_path` encodes a
component is a parameter. -/

namespace Codex
open Codex.Lib Codex.Lib.Percent List

namespace PathUri

def fromFilePath (encode : Bytes → Bytes) (path : AbsolutePathBuf) : PathUri :=
  file none (segmentsOf (path.components.map encode))

/-- A fallback URI where the URL would be read as a Windows path. -/
def fromAbsPath (encode : Bytes → Bytes) (path : AbsolutePathBuf) : PathUri :=
  if (fromFilePath encode path).inferPathConvention = some .posix then fromFilePath encode path
  else fallback path.bytes

/-- The fallback URI of a text that is not the path itself is refused. -/
def toAbsPath (encode : Bytes → Bytes) (self : PathUri) : Option AbsolutePathBuf :=
  if self.inferPathConvention ≠ some .posix then none
  else
    match self with
    | fallback payload =>
      let path := AbsolutePathBuf.root.normalizePath payload
      if (fromAbsPath encode path).eq self then some path else none
    | file _ segments => some (AbsolutePathBuf.root.normalizePath (decodedPathBytes segments))

theorem decode_drive {s : Bytes} (h : isWindowsDriveUriSegment s) :
    ∃ drive, isAsciiAlphabetic drive ∧ decode s = [drive, 58] := by
  unfold isWindowsDriveUriSegment at h
  split at h
  · next drive c =>
    simp only [Bool.and_eq_true, decide_eq_true_eq] at h
    exact ⟨drive, h.1, by rw [h.2]; rfl⟩
  · next drive p t a =>
    simp only [Bool.and_eq_true, Bool.or_eq_true, decide_eq_true_eq] at h
    obtain ⟨⟨⟨hdrive, rfl⟩, rfl⟩, ha⟩ := h
    refine ⟨drive, hdrive, ?_⟩
    have hpercent : drive ≠ percent := by
      rintro rfl
      exact absurd hdrive (by decide)
    rw [decode_cons_of_ne drive _ hpercent]
    rcases ha with rfl | rfl <;> rfl
  · exact absurd h Bool.false_ne_true

theorem toAbsPath_of_lexical {encode : Bytes → Bytes} {host : Option Text} {segments : List Bytes}
    {path : AbsolutePathBuf} (h : (file host segments).lexical = some path.components) :
    (file host segments).toAbsPath encode = some path := by
  obtain ⟨hsome, hcomponents⟩ := lexical_eq_some h
  obtain ⟨contained, hcontained⟩ := Option.isSome_iff_exists.mp hsome
  have hnames : ∀ c ∈ [] :: segments.map decode, c ≠ [] → IsNormalComponent c := by
    intro c hc hne
    apply path.normal
    rw [hcomponents, ← filter_map_decode, mem_filter]
    rw [mem_cons, or_iff_right hne] at hc
    exact ⟨hc, by simpa using hne⟩
  rw [toAbsPath, if_neg (not_not.mpr (lexical_posix h))]
  simp only [AbsolutePathBuf.normalizePath, splitOn_decodedPathBytes hcontained, Option.some.injEq]
  apply AbsolutePathBuf.ext_components
  rw [AbsolutePathBuf.components_foldl_pushComponent _ hnames, hcomponents, ← filter_map_decode]
  rfl

end PathUri

namespace AbsolutePathBuf
open PathUri

def IsOrdinary (encode : Bytes → Bytes) (self : AbsolutePathBuf) : Prop :=
  (fromAbsPath encode self).lexical ≠ none

section Decodable
variable {encode : Bytes → Bytes} (hencode : ∀ c, decode (encode c) = c)
include hencode

theorem encode_ne_nil {c : Bytes} (h : IsNormalComponent c) : encode c ≠ [] := by
  intro hnil
  have hdecode := hencode c
  rw [hnil, decode_nil] at hdecode
  exact h.1 hdecode.symm

variable (self : AbsolutePathBuf)

theorem filter_segmentsOf : (segmentsOf (self.components.map encode)).filter (fun s => !s.isEmpty) =
      self.components.map encode := by
  unfold segmentsOf
  split
  · next hnil => rw [hnil]; rfl
  · rw [filter_eq_self]
    intro s hs
    obtain ⟨c, hc, rfl⟩ := mem_map.mp hs
    simpa using encode_ne_nil hencode (self.normal c hc)

theorem lexical_fromFilePath (h : (fromFilePath encode self).inferPathConvention = some .posix) :
    (fromFilePath encode self).lexical = some self.components := by
  have hseparators : (self.components.map encode).any (hasNativeSeparator .posix) = false := by
    rw [any_eq_false]
    intro s hs
    obtain ⟨c, hc, rfl⟩ := mem_map.mp hs
    rw [hasNativeSeparator_eq_false]
    · exact Bool.false_ne_true
    · rw [hencode]
      exact (self.normal c hc).2.2.2
  rw [fromFilePath] at h ⊢
  simp only [PathUri.lexical, h, if_true, containmentPathSegments, filter_segmentsOf hencode,
    hseparators, Bool.false_eq_true, if_false, Option.map_some, map_map]
  congr 1
  exact (map_congr_left fun c _ => hencode c).trans (map_id _)

theorem IsOrdinary.lexical {self : AbsolutePathBuf} (h : self.IsOrdinary encode) :
    (fromAbsPath encode self).lexical = some self.components := by
  rw [IsOrdinary, fromAbsPath] at h
  rw [fromAbsPath]
  split at h
  · next hposix => rw [if_pos hposix, lexical_fromFilePath hencode self hposix]
  · exact absurd rfl h

theorem posix_fromFilePath_iff : (fromFilePath encode self).inferPathConvention = some .posix ↔
      ∀ c ∈ self.components.head?, isWindowsDriveUriSegment (encode c) = false := by
  rw [fromFilePath, posix_file_iff, ← head?_filter, filter_segmentsOf hencode, head?_map]
  cases self.components.head? <;> simp

theorem isOrdinary_iff : self.IsOrdinary encode ↔
      ∀ c ∈ self.components.head?, isWindowsDriveUriSegment (encode c) = false := by
  rw [← posix_fromFilePath_iff hencode, IsOrdinary, fromAbsPath]
  split
  · next hposix => simp [hposix, lexical_fromFilePath hencode self hposix]
  · next hposix => simp [hposix, PathUri.lexical]

theorem IsOrdinary.below {p q : AbsolutePathBuf} (h : p.IsOrdinary encode)
    (hne : p.components ≠ []) (hq : p.components <+: q.components) : q.IsOrdinary encode := by
  rw [isOrdinary_iff hencode] at h ⊢
  obtain ⟨rest, hrest⟩ := hq
  rwa [← hrest, head?_append_of_ne_nil _ hne]

theorem IsOrdinary.join {p q : AbsolutePathBuf} (h : p.IsOrdinary encode) {c : Bytes}
    (hc : ∀ drive, isAsciiAlphabetic drive → c ≠ [drive, 58])
    (hq : q.components = p.components ++ [c]) : q.IsOrdinary encode := by
  by_cases hnil : p.components = []
  · rw [isOrdinary_iff hencode, hq, hnil]
    rintro _ ⟨⟩
    rw [← Bool.not_eq_true]
    intro hdrive
    obtain ⟨drive, halpha, hdecode⟩ := decode_drive hdrive
    rw [hencode] at hdecode
    exact hc drive halpha hdecode
  · exact h.below hencode hnil (hq ▸ prefix_append _ _)

theorem lexical_fromAbsPath_iff {self : AbsolutePathBuf} {x : List Bytes} :
    (fromAbsPath encode self).lexical = some x ↔ self.IsOrdinary encode ∧ self.components = x := by
  constructor
  · intro h
    have hordinary : self.IsOrdinary encode := by
      rw [IsOrdinary, h]
      exact Option.some_ne_none x
    exact ⟨hordinary, Option.some.inj ((hordinary.lexical hencode).symm.trans h)⟩
  · rintro ⟨hordinary, rfl⟩
    exact hordinary.lexical hencode

theorem fromAbsPath_posix : (fromAbsPath encode self).inferPathConvention = some .posix := by
  rw [fromAbsPath]
  split
  · next hposix => exact hposix
  · next hposix =>
    rw [posix_fromFilePath_iff hencode] at hposix
    simp only [not_forall, Bool.not_eq_false] at hposix
    obtain ⟨c, hc, hdrive⟩ := hposix
    obtain ⟨drive, halpha, hdecode⟩ := decode_drive hdrive
    obtain ⟨rest, hcomponents⟩ := head?_eq_some_iff.mp hc
    have hbytes : self.bytes = slash :: drive :: 58 :: rest.flatMap (slash :: ·) := by
      rw [bytes, hcomponents, if_neg (cons_ne_nil c rest), flatMap_cons, ← hencode c, hdecode]
      rfl
    have hdrive0 : drive ≠ 0 := by
      rintro rfl
      exact absurd halpha (by decide)
    simp [inferPathConvention, inferOpaquePathConvention, hbytes, hdrive0]

end Decodable

end AbsolutePathBuf

end Codex

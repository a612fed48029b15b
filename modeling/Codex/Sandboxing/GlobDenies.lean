import Codex.PathUri.Absolute
import Codex.Sandboxing.Bounds

/-! Which deny globs `intersect_permission_profiles_with_context` keeps. A glob is dropped when the
path before its first wildcard lies apart from all accepted grants. -/

namespace Codex.Sandboxing
open Codex.Lib Codex.Lib.Percent Codex.Permissions FileSystemSandboxPolicy List Option Text PathUri

def staticText (pattern : Text) : Text :=
  pattern.takeWhile fun c => !(c = '*' || c = '?' || c = '[' || c = ']')

def keptSegments (pattern : Text) : List Text :=
  if staticText pattern = pattern then (staticText pattern).splitOn '/'
  else ((staticText pattern).splitOn '/').dropLast

/-- The first named segments before the wildcards, as many as `depth`. -/
def namesTo (pattern : Text) (depth : Nat) : List Text :=
  ((keptSegments pattern).filter fun s => !s.isEmpty).take depth

/-- Down to `depth`, the path that the glob is compared as has the names of the pattern, and these
have no alternatives or escapes. -/
def NamedTo (context : Context) (pattern : Text) (depth : Nat) : Prop :=
  (∀ s ∈ namesTo pattern depth, ∀ c ∈ s, c ∉ ['\x7b', '\x7d', '\\']) ∧
    ∀ v ∈ globStaticPrefixPath context pattern, v.lexicalDepth = none ∨
      ∃ vs ∈ v.lexical, vs.take depth <+: (namesTo pattern depth).map bytes

def LiteralText (text : Text) : Prop :=
  ∀ c ∈ text, c ∉ ['*', '?', '[', ']', '\x7b', '\x7d', '\\']

/-- The documented meaning of other characters in `globset`: they match themselves. -/
structure GlobLiterals (crates : Crates) : Prop where
  literal_start : ∀ text rest matcher path, LiteralText text →
    crates.buildGlobMatcher (text ++ rest) = some matcher → matcher path = true →
      text.bytes <+: path
  literal : ∀ text matcher path, LiteralText text →
    crates.buildGlobMatcher text = some matcher → matcher path = true → path = text.bytes

theorem wildcard_of_mem_staticText (pattern : Text) {c : Char} (h : c ∈ staticText pattern) :
    c ∉ ['*', '?', '[', ']'] := by
  have hc := mem_takeWhile_imp h
  simp only [Bool.not_eq_true', Bool.or_eq_false_iff, decide_eq_false_iff_not] at hc
  simp only [mem_cons, not_mem_nil, or_false, not_or]
  exact ⟨hc.1.1.1, hc.1.1.2, hc.1.2, hc.2⟩

theorem literalText_of {text : Text} (hwild : ∀ c ∈ text, c ∉ ['*', '?', '[', ']'])
    (hbrace : ∀ c ∈ text, c ∉ ['\x7b', '\x7d', '\\']) : LiteralText text := by
  intro c hc hmem
  rcases mem_append (s := ['*', '?', '[', ']']).mp hmem with h | h
  · exact hwild c hc h
  · exact hbrace c hc h

theorem parts_of_literal_start {parts : List Text} {path : Bytes} (hparts : ∀ s ∈ parts, '/' ∉ s)
    (h : bytes (parts.flatMap (· ++ ['/'])) <+: path) :
    parts.map bytes <+: path.splitOn slash := by
  obtain ⟨rest, rfl⟩ := h
  rw [bytes_flatMap_slash, Split.splitOn_flatMap_append]
  · exact prefix_append _ _
  · intro s hs
    obtain ⟨t, ht, rfl⟩ := List.mem_map.mp hs
    exact slash_notMem_bytes (hparts t ht)

theorem filter_map_bytes (parts : List Text) :
    (parts.map bytes).filter (fun s => !s.isEmpty) =
      (parts.filter fun s => !s.isEmpty).map bytes := by
  have hempty (s : Text) : (bytes s).isEmpty = s.isEmpty := by
    rw [Bool.eq_iff_iff, List.isEmpty_iff, List.isEmpty_iff, ← bytes_nil, bytes_injective.eq_iff]
  simp only [List.filter_map, Function.comp_def, hempty]

section Pattern

variable {context : Context} (laws : GlobLiterals context.crates) {pattern : Text}
  {matcher : Bytes → Bool} {path : Bytes}
  (hbuild : context.crates.buildGlobMatcher pattern = some matcher) (hmatch : matcher path)
include laws hbuild hmatch

theorem parts_prefix_of_match {parts : List Text} {last : Text}
    (hstatic : staticText pattern = parts.flatMap (· ++ ['/']) ++ last)
    (hnoslash : ∀ s ∈ parts, '/' ∉ s)
    (hplain : ∀ s ∈ parts, ∀ c ∈ s, c ∉ ['\x7b', '\x7d', '\\']) :
    parts.map bytes <+: path.splitOn slash := by
  obtain ⟨tail, htail⟩ : staticText pattern <+: pattern := List.takeWhile_prefix _
  have hliteral : LiteralText (parts.flatMap (· ++ ['/'])) := by
    refine literalText_of (fun c hc => wildcard_of_mem_staticText pattern ?_) fun c hc => ?_
    · rw [hstatic]
      exact mem_append_left _ hc
    · obtain ⟨s, hs, hcs⟩ := mem_flatMap.mp hc
      rcases mem_append.mp hcs with hcs | hcs
      · exact hplain s hs c hcs
      · rw [mem_singleton.mp hcs]
        decide
  refine parts_of_literal_start hnoslash ?_
  refine laws.literal_start _ (last ++ tail) matcher _ hliteral ?_ hmatch
  rw [← append_assoc, ← hstatic, htail]
  exact hbuild

theorem splitOn_of_no_wildcard (hnone : staticText pattern = pattern)
    (hplain : ∀ s ∈ pattern.splitOn '/', ∀ c ∈ s, c ∉ ['\x7b', '\x7d', '\\']) :
    path.splitOn slash = (pattern.splitOn '/').map bytes := by
  have hliteral : LiteralText pattern := by
    refine literalText_of (fun c hc => wildcard_of_mem_staticText pattern (by rwa [hnone]))
      fun c hc => ?_
    by_cases hslash : c = '/'
    · rw [hslash]
      decide
    · obtain ⟨s, hs, hcs⟩ := Split.exists_mem_splitOn '/' c pattern hc hslash
      exact hplain s hs c hcs
  rw [laws.literal pattern matcher _ hliteral hbuild hmatch, splitOn_bytes]

/-- A path that the glob matches starts with the names that stand before the wildcards. -/
theorem namesTo_prefix_of_match {depth : Nat}
    (hplain : ∀ s ∈ namesTo pattern depth, ∀ c ∈ s, c ∉ ['\x7b', '\x7d', '\\']) :
    (namesTo pattern depth).map bytes <+: components path := by
  obtain ⟨front, back, hkept, hfront, -⟩ := filter_eq_append_iff.mp
    (take_append_drop depth ((keptSegments pattern).filter fun s => !s.isEmpty)).symm
  have hfrontplain : ∀ s ∈ front, ∀ c ∈ s, c ∉ ['\x7b', '\x7d', '\\'] := by
    intro s hs c hc
    refine hplain s ?_ c hc
    rw [namesTo, ← hfront, mem_filter]
    exact ⟨hs, by simpa using ne_nil_of_mem hc⟩
  have hstart : front.map bytes <+: path.splitOn slash := by
    obtain ⟨parts, last, hsplit, hparts, htext⟩ :=
      Split.exists_eq_flatMap_append '/' (staticText pattern)
    have habove : front <+: parts → front.map bytes <+: path.splitOn slash := by
      rintro ⟨more, rfl⟩
      rw [flatMap_append, append_assoc] at htext
      exact parts_prefix_of_match laws hbuild hmatch htext (fun s hs => hparts s (by simp [hs]))
        hfrontplain
    by_cases hnone : staticText pattern = pattern
    · rw [keptSegments, if_pos hnone] at hkept
      rcases eq_nil_or_concat back with rfl | ⟨more, t, rfl⟩
      · rw [append_nil, hnone] at hkept
        rw [splitOn_of_no_wildcard laws hbuild hmatch hnone (hkept ▸ hfrontplain), hkept]
      · rw [hsplit, concat_eq_append, ← append_assoc] at hkept
        exact habove ⟨more, (append_inj_left' hkept rfl).symm⟩
    · rw [keptSegments, if_neg hnone, hsplit, dropLast_concat] at hkept
      exact habove ⟨back, hkept.symm⟩
  rw [namesTo, ← hfront, ← filter_map_bytes]
  exact hstart.filter _

/-- The path that the glob is compared as overlaps a grant above a path that it matches. -/
theorem globStaticPrefixPath_overlaps {u : PathUri} {us : List Bytes} (hu : u.lexical = some us)
    (hsub : us <+: components path) (hnamed : NamedTo context pattern us.length) :
    (globStaticPrefixPath context pattern).all fun v => pathsOverlap v u := by
  cases hv : globStaticPrefixPath context pattern with
  | none => rfl
  | some v =>
    rw [all_some]
    rcases hnamed.2 v hv with hdepth | ⟨vs, hvs, htake⟩
    · exact overlaps_of_no_depth hdepth
    · have hpath : vs.take us.length <+: components path :=
        htake.trans (namesTo_prefix_of_match laws hbuild hmatch hnamed.1)
      refine overlaps_of_lexical hvs hu ?_
      rcases le_total vs.length us.length with hle | hle
      · rw [take_of_length_le hle] at hpath
        exact List.prefix_or_prefix_of_prefix hsub hpath
      · have heq : us = vs.take us.length := by
          refine List.IsPrefix.eq_of_length (List.prefix_of_prefix_length_le hsub hpath ?_) ?_ <;>
            simp [length_take, hle]
        left
        rw [heq]
        exact List.take_prefix _ _

end Pattern

theorem components_decodedPathBytes {segments ps : List Bytes}
    (h : (PathUri.file none segments).lexical = some ps) :
    components (decodedPathBytes segments) = ps := by
  obtain ⟨hsome, hps⟩ := lexical_eq_some h
  obtain ⟨path, hpath⟩ := isSome_iff_exists.mp hsome
  rw [components, splitOn_decodedPathBytes hpath, hps, ← filter_map_decode]
  rfl

theorem lexical_of_startsWith {p u : PathUri} {us : List Bytes} (hu : u.lexical = some us)
    (h : p.startsWith u) : ∃ ps, p.lexical = some ps ∧ us <+: ps := by
  have hposix := lexical_posix hu
  have hlexical : ∃ ps, p.lexical = some ps := by
    unfold startsWith at h
    split at h
    · next heq =>
      rw [(eq_iff_of_posix_right hposix).mp heq]
      exact ⟨us, hu⟩
    · split at h
      · next host segments baseHost baseSegments _ =>
        split at h
        · exact absurd h Bool.false_ne_true
        · next hsame =>
          rw [not_or, not_not, not_not] at hsame
          have hp := hsame.2.trans hposix
          simp only [hp, getD_some] at h
          split at h
          · next path _ hpath _ => exact ⟨path.map decode, by simp [lexical, hp, hpath]⟩
          · exact absurd h Bool.false_ne_true
      · exact absurd h Bool.false_ne_true
  obtain ⟨ps, hps⟩ := hlexical
  obtain ⟨rs, hrs, hpre⟩ := (startsWith_iff hps).mp h
  rw [hu] at hrs
  exact ⟨ps, hps, Option.some.inj hrs ▸ hpre⟩

theorem denyEntryConstrains_glob {context : Context} {d e : FileSystemSandboxEntry} {u : PathUri}
    {pattern : Text} (hpath : d.path = .globPattern pattern)
    (hu : resolvePermissionPath context e.path = some u)
    (h : (globStaticPrefixPath context pattern).all (fun v => pathsOverlap v u)) :
    denyEntryConstrains context d e := by
  unfold denyEntryConstrains
  split
  · rfl
  · simpa [hu, hpath] using h

def hexUpper (n : UInt8) : UInt8 := if n < 10 then 48 + n else 55 + n

/-- The path-segment set of the `url` crate, on texts without tabs and line breaks. -/
def encodePathSegment (text : Text) : Bytes :=
  text.bytes.flatMap fun b =>
    if b < 33 || 126 < b || b ∈ [34, 35, 37, 47, 60, 62, 63, 96, 123, 125] then
      [percent, hexUpper (b / 16), hexUpper (b % 16)]
    else [b]

instance (text : Text) : Decidable (LiteralText text) := List.decidableBAll _ text

def treeCrates : Crates where
  encode _ text := encodePathSegment text
  buildGlobMatcher pattern :=
    let directory : Text := pattern.dropLast.dropLast
    if LiteralText pattern then some fun path => path = pattern.bytes
    else if pattern = directory ++ ['*', '*'] ∧ LiteralText directory ∧
        directory.getLast? = some '/' then
      some fun path => directory.bytes.isPrefixOf path
    else none

theorem isPrefix_of_append_stars {text rest directory : Text} (htext : LiteralText text)
    (h : text ++ rest = directory ++ ['*', '*']) : text <+: directory := by
  rcases List.prefix_or_prefix_of_prefix (prefix_append text rest)
    (h ▸ prefix_append directory ['*', '*']) with hpre | ⟨more, rfl⟩
  · exact hpre
  · cases more with
    | nil => rw [append_nil]
    | cons c more =>
      rw [append_assoc, append_cancel_left_eq, cons_append] at h
      exact absurd (htext c (by simp)) (by simp [(List.cons.inj h).1])

theorem globLiterals_treeCrates : GlobLiterals treeCrates where
  literal_start text rest matcher path htext hbuild hmatch := by
    simp only [treeCrates] at hbuild
    split at hbuild
    · obtain rfl := Option.some.inj hbuild
      rw [of_decide_eq_true hmatch, bytes_append]
      exact prefix_append _ _
    · split at hbuild
      · next htree =>
        obtain rfl := Option.some.inj hbuild
        obtain ⟨more, hmore⟩ := isPrefix_of_append_stars htext htree.1
        refine List.IsPrefix.trans ?_ (List.isPrefixOf_iff_prefix.mp hmatch)
        exact ⟨bytes more, by rw [← bytes_append, hmore]⟩
      · exact absurd hbuild (by simp)
  literal text matcher path htext hbuild hmatch := by
    simp only [treeCrates, if_pos htext] at hbuild
    obtain rfl := Option.some.inj hbuild
    exact of_decide_eq_true hmatch

def readExcept (directory : String) (pattern : String) : AdditionalPermissionProfile where
  network := none
  fileSystem := some ⟨[⟨.path (localFile [directory]), .read, false⟩,
    ⟨.globPattern pattern.toList, .deny, false⟩], none⟩

/-- Globs with at most one group of alternatives and no other syntax. -/
def alternatives (pattern : Text) : List Text :=
  match pattern.splitOn '\x7b' with
  | [before, group] =>
    match group.splitOn '\x7d' with
    | [inside, after] => (inside.splitOn ',').map fun part => before ++ part ++ after
    | _ => [pattern]
  | _ => [pattern]

def alternativesCrates : Crates where
  encode _ text := encodePathSegment text
  buildGlobMatcher pattern := some fun path => (alternatives pattern).any fun t => t.bytes = path

end Codex.Sandboxing

import Codex.PathUri.Join

/-! The lexical meaning of a POSIX URI is the list of its decoded components. Containment of URIs is
the prefix order on these lists. -/

namespace Codex.PathUri
open Codex.Lib Codex.Lib.Percent List

def lexical (self : PathUri) : Option (List Bytes) :=
  match self with
  | fallback _ => none
  | file _ segments =>
    if self.inferPathConvention = some .posix then
      (containmentPathSegments segments .posix).map (List.map decode)
    else none

def isAmbiguous (self : PathUri) : Bool :=
  self.inferPathConvention = some .posix && !self.isOpaque && self.lexicalDepth.isNone

theorem host_eq_none {host : Option Text} {segments : List Bytes}
    (h : (file host segments).inferPathConvention = some .posix) : host = none := by
  cases host with
  | none => rfl
  | some host => simp [inferPathConvention] at h

theorem lexical_posix {u : PathUri} {us : List Bytes} (h : u.lexical = some us) :
    u.inferPathConvention = some .posix := by
  unfold lexical at h
  cases u with
  | fallback payload => simp at h
  | file host segments =>
    by_contra hc
    simp [hc] at h

theorem lexicalDepth_of_posix {u : PathUri} (h : u.inferPathConvention = some .posix) :
    u.lexicalDepth = u.lexical.map List.length := by
  cases u with
  | fallback payload => rfl
  | file host segments =>
    simp only [lexicalDepth, lexical, h, Option.bind_some, if_true, Option.map_map]
    congr 1
    funext l
    simp

theorem lexicalDepth_of_lexical {u : PathUri} {us : List Bytes} (h : u.lexical = some us) :
    u.lexicalDepth = some us.length := by
  rw [lexicalDepth_of_posix (lexical_posix h), h, Option.map_some]

theorem lexical_eq_none_iff {u : PathUri} :
    u.lexical = none ↔ u.inferPathConvention ≠ some .posix ∨ u.lexicalDepth = none := by
  by_cases h : u.inferPathConvention = some .posix
  · simp [h, lexicalDepth_of_posix h]
  · simp only [ne_eq, h, not_false_eq_true, true_or, iff_true]
    cases hl : u.lexical with
    | none => rfl
    | some us => exact absurd (lexical_posix hl) h

theorem eq_iff_of_posix {u v : PathUri} (h : u.inferPathConvention = some .posix) :
    u.eq v ↔ u = v := by
  have hid : u.windowsIdentity = none := by
    cases u with
    | fallback payload => rfl
    | file host segments => simp [windowsIdentity, h]
  simp [eq, hid]

theorem eq_iff_of_posix_right {u v : PathUri} (h : v.inferPathConvention = some .posix) :
    u.eq v ↔ u = v := by
  have hid : v.windowsIdentity = none := by
    cases v with
    | fallback payload => rfl
    | file host segments => simp [windowsIdentity, h]
  cases hu : u.windowsIdentity <;> simp [eq, hid, hu]

theorem nativePathSegmentsStartWith_iff (path base : List Bytes) :
    nativePathSegmentsStartWith path base .posix ↔ base.map decode <+: path.map decode := by
  induction base generalizing path with
  | nil => simp [nativePathSegmentsStartWith]
  | cons b base ih =>
    cases path with
    | nil => simp [nativePathSegmentsStartWith]
    | cons a path =>
      have hrest := ih path
      simp only [nativePathSegmentsStartWith, nativeSegmentEq, Bool.and_eq_true,
        decide_eq_true_eq, all_eq_true] at hrest
      simp only [nativePathSegmentsStartWith, nativeSegmentEq, length_cons,
        zip_cons_cons, all_cons, Bool.and_eq_true, decide_eq_true_eq, map_cons,
        cons_prefix_cons, all_eq_true, Nat.add_le_add_iff_right]
      rw [← hrest]
      constructor
      · rintro ⟨hlen, hab, hall⟩
        exact ⟨hab.symm, hlen, hall⟩
      · rintro ⟨hab, hlen, hall⟩
        exact ⟨hlen, hab.symm, hall⟩

theorem startsWith_iff {p r : PathUri} {ps : List Bytes} (hp : p.lexical = some ps) :
    p.startsWith r ↔ ∃ rs, r.lexical = some rs ∧ rs <+: ps := by
  have hposix := lexical_posix hp
  by_cases heq : p = r
  · subst heq
    simp only [startsWith, (eq_iff_of_posix hposix).mpr rfl, if_true, hp, true_iff]
    exact ⟨ps, rfl, prefix_rfl⟩
  · have hne : p.eq r = false := by
      rw [← Bool.not_eq_true, eq_iff_of_posix hposix]
      exact heq
    cases p with
    | fallback payload => simp [lexical] at hp
    | file host segments =>
      cases r with
      | fallback payload => simp [startsWith, hne, lexical]
      | file baseHost baseSegments =>
        simp only [lexical, hposix, if_true, Option.map_eq_some_iff] at hp
        obtain ⟨path, hpath, rfl⟩ := hp
        simp only [startsWith, hne, hposix, Option.getD_some, hpath, lexical]
        by_cases hbase : (file baseHost baseSegments).inferPathConvention = some .posix
        · have hhost : host = baseHost := (host_eq_none hposix).trans (host_eq_none hbase).symm
          simp only [hbase, hhost, if_true, ne_eq, not_true_eq_false, or_self, if_false]
          cases hb : containmentPathSegments baseSegments .posix with
          | none => simp
          | some base => simp [nativePathSegmentsStartWith_iff]
        · have hbase' : some PathConvention.posix ≠
              (file baseHost baseSegments).inferPathConvention := fun h => hbase h.symm
          simp [hbase, hbase']

theorem overlaps_of_lexical {p r : PathUri} {ps rs : List Bytes} (hp : p.lexical = some ps)
    (hr : r.lexical = some rs) (h : rs <+: ps ∨ ps <+: rs) : (p.overlaps r).getD true := by
  have h1 : p.startsWith r ∨ r.startsWith p := by
    rcases h with h | h
    · exact .inl ((startsWith_iff hp).mpr ⟨rs, hr, h⟩)
    · exact .inr ((startsWith_iff hr).mpr ⟨ps, hp, h⟩)
  simp only [overlaps, lexicalDepth_of_lexical hp, lexicalDepth_of_lexical hr]
  split
  · rfl
  · simpa using h1

theorem overlaps_of_no_depth {p r : PathUri} (h : p.lexicalDepth = none) :
    (p.overlaps r).getD true := by
  simp only [overlaps, h]
  split
  · rfl
  · simp

theorem posix_file_iff (segments : List Bytes) :
    (file none segments).inferPathConvention = some .posix ↔
      (segments.find? fun s => !s.isEmpty).any isWindowsDriveUriSegment = false := by
  cases h : (segments.find? fun s => !s.isEmpty).any isWindowsDriveUriSegment <;>
    simp [inferPathConvention, h]

theorem posix_of_isPrefix {segments segments' : List Bytes} (hp : segments' <+: segments)
    (h : (file none segments).inferPathConvention = some .posix) :
    (file none segments').inferPathConvention = some .posix := by
  rw [posix_file_iff] at h ⊢
  obtain ⟨rest, rfl⟩ := hp
  rw [find?_append] at h
  cases hf : segments'.find? fun s => !s.isEmpty with
  | none => rfl
  | some s => simpa [hf] using h

theorem popIfEmpty_isPrefix (segments : List Bytes) : popIfEmpty segments <+: segments := by
  unfold popIfEmpty
  split
  · exact List.dropLast_prefix segments
  · exact prefix_rfl

theorem lexical_of_nonemptyCount_zero {segments : List Bytes} (h : nonemptyCount segments = 0)
    (hp : (file none segments).inferPathConvention = some .posix) :
    (file none segments).lexical = some [] := by
  have hnil : (segments.filter fun s => !s.isEmpty) = [] := eq_nil_of_length_eq_zero h
  simp [lexical, hp, containmentPathSegments, hnil]

theorem parent_posix (segments : List Bytes)
    (hp : (file none segments).inferPathConvention = some .posix) :
    (file none segments).parent =
      if nonemptyCount segments = 0 then none
      else some (file none (popSegments (popIfEmpty segments))) := by
  simp [parent, hp]

theorem lastAncestor_lexical (n : Nat) (segments : List Bytes) (hn : segments.length ≤ n)
    (hp : (file none segments).inferPathConvention = some .posix) :
    (lastAncestor n (file none segments)).lexical = some [] := by
  induction n generalizing segments with
  | zero =>
    have hnil : segments = [] := eq_nil_of_length_eq_zero (by omega)
    exact lexical_of_nonemptyCount_zero (by rw [hnil]; rfl) hp
  | succ n ih =>
    by_cases hzero : nonemptyCount segments = 0
    · simp only [lastAncestor, parent_posix segments hp, hzero, if_true]
      exact lexical_of_nonemptyCount_zero hzero hp
    · simp only [lastAncestor, parent_posix segments hp, hzero, if_false]
      by_cases hlen : (popIfEmpty segments).length ≤ 1
      · -- One segment is left, and popping it leaves the path `/`.
        have hroot : lastAncestor n (file none rootSegments) = file none rootSegments := by
          cases n <;> rfl
        rw [popSegments, if_pos hlen, hroot]
        rfl
      · rw [popSegments, if_neg hlen]
        have hpre : (popIfEmpty segments).dropLast <+: segments :=
          (List.dropLast_prefix _).trans (popIfEmpty_isPrefix segments)
        have hle := (popIfEmpty_isPrefix segments).length_le
        refine ih _ ?_ (posix_of_isPrefix hpre hp)
        rw [length_dropLast]
        omega

theorem root_lexical {u : PathUri} {us : List Bytes} (h : u.lexical = some us) :
    u.root.lexical = some [] := by
  cases u with
  | fallback payload => simp [lexical] at h
  | file host segments =>
    have hp := lexical_posix h
    obtain rfl := host_eq_none hp
    exact lastAncestor_lexical segments.length segments le_rfl hp

end Codex.PathUri

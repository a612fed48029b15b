import Codex.Lib.Split
import Codex.Lib.Text
import Mathlib.Logic.Function.Iterate

/-! Percent decoding of byte strings, splitting at a separator, and removal of dot segments (RFC
3986, section 5.2.4). -/

namespace Codex.Lib.Percent
open List Option

def percent : UInt8 := 37
def dot : UInt8 := 46
def slash : UInt8 := 47
def backslash : UInt8 := 92

def hexDigit (b : UInt8) : Option UInt8 :=
  if 48 ≤ b ∧ b ≤ 57 then some (b - 48)
  else if 97 ≤ b ∧ b ≤ 102 then some (b - 97 + 10)
  else if 65 ≤ b ∧ b ≤ 70 then some (b - 65 + 10)
  else none

def escape (h l : UInt8) : Option UInt8 :=
  (hexDigit h).bind fun hi => (hexDigit l).map fun lo => hi <<< 4 ||| lo

/-- One pass of percent decoding; a `%` that starts no escape is kept as it is. -/
def decode : Bytes → Bytes
  | [] => []
  | [a] => [a]
  | [a, b] => [a, b]
  | a :: b :: c :: rest =>
    if a = percent then
      match escape b c with
      | some v => v :: decode rest
      | none => a :: decode (b :: c :: rest)
    else a :: decode (b :: c :: rest)

@[simp] theorem decode_nil : decode [] = [] := rfl

theorem decode_cons_plain (a : UInt8) (s : Bytes)
    (h : a = percent → ∀ b c r, s = b :: c :: r → escape b c = none) :
    decode (a :: s) = a :: decode s := by
  match s with
  | [] => rfl
  | [b] => rfl
  | b :: c :: rest =>
    rw [decode]
    split_ifs with ha
    · rw [h ha b c rest rfl]
    · rfl

theorem decode_cons_of_ne (a : UInt8) (s : Bytes) (ha : a ≠ percent) :
    decode (a :: s) = a :: decode s :=
  decode_cons_plain a s fun h => absurd h ha

theorem decode_escape (b c v : UInt8) (s : Bytes) (hv : escape b c = some v) :
    decode (percent :: b :: c :: s) = v :: decode s := by
  rw [decode, if_pos rfl, hv]

theorem decode_eq_self (s : Bytes) (hs : percent ∉ s) : decode s = s := by
  induction s with
  | nil => rfl
  | cons a s ih =>
    have ha : a ≠ percent := fun h => hs (h ▸ mem_cons_self)
    rw [decode_cons_of_ne a s ha, ih (fun h => hs (mem_cons_of_mem _ h))]

theorem decode_iterate_eq_self (s : Bytes) (hs : percent ∉ s) (k : Nat) : decode^[k] s = s :=
  Function.iterate_fixed (decode_eq_self s hs) k

def escapePercent (s : Bytes) : Bytes :=
  s.flatMap fun b => if b = percent then [percent, 50, 53] else [b]

theorem decode_escapePercent (s : Bytes) : decode (escapePercent s) = s := by
  induction s with
  | nil => rfl
  | cons b s ih =>
    rw [escapePercent, flatMap_cons]
    split
    · next hb =>
      rw [cons_append, cons_append, cons_append, nil_append,
        decode_escape 50 53 percent _ (by decide), ← escapePercent, ih, hb]
    · next hb =>
      rw [singleton_append, decode_cons_of_ne b _ hb, ← escapePercent, ih]

/-- A byte that can stand inside no escape, so that decoding never reads across it. -/
structure IsSeparator (sep : UInt8) : Prop where
  ne_percent : sep ≠ percent
  not_hex : hexDigit sep = none

theorem slash_isSeparator : IsSeparator slash := ⟨by decide, by decide⟩

theorem escape_sep_left (sep c : UInt8) (h : IsSeparator sep) : escape sep c = none := by
  rw [escape, h.not_hex, bind_none]

theorem escape_sep_right (b sep : UInt8) (h : IsSeparator sep) : escape b sep = none := by
  cases hb : hexDigit b with
  | none => rw [escape, hb, bind_none]
  | some v => rw [escape, hb, bind_some, h.not_hex, map_none]

theorem decode_append_sep (sep : UInt8) (h : IsSeparator sep) (a b : Bytes) :
    decode (a ++ sep :: b) = decode a ++ sep :: decode b := by
  -- The cases are those of `decode a`: an escape of `a` never reaches past the separator.
  induction a using decode.induct with
  | case1 => exact decode_cons_of_ne sep b h.ne_percent
  | case2 x =>
    show decode (x :: sep :: b) = x :: sep :: decode b
    rw [decode_cons_plain x, decode_cons_of_ne sep b h.ne_percent]
    rintro - _ c r ⟨⟩
    exact escape_sep_left sep c h
  | case3 x y =>
    show decode (x :: y :: sep :: b) = x :: y :: sep :: decode b
    rw [decode_cons_plain x, decode_cons_plain y, decode_cons_of_ne sep b h.ne_percent]
    · rintro - _ c r ⟨⟩
      exact escape_sep_left sep c h
    · rintro - _ c r ⟨⟩
      exact escape_sep_right y sep h
  | case4 y z rest v hv ih =>
    show decode (percent :: y :: z :: (rest ++ sep :: b)) = _
    rw [decode_escape y z v _ hv, decode_escape y z v _ hv, ih, cons_append]
  | case5 y z rest hv ih =>
    have hp : ∀ s, decode (percent :: y :: z :: s) = percent :: decode (y :: z :: s) := by
      intro s
      refine decode_cons_plain _ _ ?_
      rintro - _ _ r ⟨⟩
      exact hv
    show decode (percent :: y :: z :: (rest ++ sep :: b)) = _
    rw [hp, hp]
    exact congrArg (percent :: ·) ih
  | case6 x y z rest hx ih =>
    show decode (x :: y :: z :: (rest ++ sep :: b)) = _
    rw [decode_cons_of_ne x _ hx, decode_cons_of_ne x _ hx]
    exact congrArg (x :: ·) ih

theorem splitOn_decode (sep : UInt8) (h : IsSeparator sep) (q : Bytes)
    (hq : ∀ s ∈ q.splitOn sep, sep ∉ decode s) :
    (decode q).splitOn sep = (q.splitOn sep).map decode :=
  Split.splitOn_map (decode_append_sep sep h) q hq

theorem decode_flatMap_sep (sep : UInt8) (h : IsSeparator sep) (s : Bytes) (ss : List Bytes) :
    decode (s ++ ss.flatMap (sep :: ·)) = decode s ++ (ss.map decode).flatMap (sep :: ·) := by
  induction ss generalizing s with
  | nil => simp
  | cons t ss ih =>
    rw [flatMap_cons, cons_append, decode_append_sep sep h, ih]
    rfl

theorem splitOn_flatMap_sep (sep : UInt8) (s : Bytes) (ss : List Bytes) (hs : sep ∉ s)
    (h : ∀ t ∈ ss, sep ∉ t) : (s ++ ss.flatMap (sep :: ·)).splitOn sep = s :: ss := by
  induction ss generalizing s with
  | nil => simpa using splitOn_eq_singleton hs
  | cons t ss ih =>
    rw [flatMap_cons, cons_append, splitOn_append_cons_self_of_not_mem hs,
      ih t (h t mem_cons_self) fun x hx => h x (mem_cons_of_mem t hx)]

/-- Only the slash itself has its byte: the bytes of longer encodings are not below 128. -/
theorem eq_slash_of_mem_utf8EncodeChar {c : Char} (h : slash ∈ String.utf8EncodeChar c) :
    c = '/' := by
  have hbyte : ∀ n, slash = UInt8.ofNat n → n % 256 = 47 := by
    intro n hn
    have htoNat := congrArg UInt8.toNat hn
    rw [UInt8.toNat_ofNat'] at htoNat
    exact htoNat.symm
  have hval : c.val.toNat = 47 := by
    unfold String.utf8EncodeChar at h
    simp only [] at h
    split at h
    · have hn := hbyte _ (mem_singleton.mp h)
      omega
    · split at h
      · simp only [mem_cons, not_mem_nil, or_false] at h
        rcases h with h | h <;> have hn := hbyte _ h <;> omega
      · split at h
        · simp only [mem_cons, not_mem_nil, or_false] at h
          rcases h with h | h | h <;> have hn := hbyte _ h <;> omega
        · simp only [mem_cons, not_mem_nil, or_false] at h
          rcases h with h | h | h | h <;> have hn := hbyte _ h <;> omega
  exact Char.ext (UInt32.toNat_inj.mp hval)

theorem slash_notMem_bytes {s : Text} (h : '/' ∉ s) : slash ∉ s.bytes := by
  intro hmem
  obtain ⟨c, hc, hb⟩ := mem_flatMap.mp hmem
  exact h (eq_slash_of_mem_utf8EncodeChar hb ▸ hc)

theorem bytes_flatMap_slash (parts : List Text) :
    Text.bytes (parts.flatMap (· ++ ['/'])) = (parts.map Text.bytes).flatMap (· ++ [slash]) := by
  induction parts with
  | nil => rfl
  | cons s parts ih =>
    rw [flatMap_cons, Text.bytes_append, Text.bytes_append, ih]
    rfl

theorem splitOn_bytes (q : Text) : q.bytes.splitOn slash = (q.splitOn '/').map Text.bytes :=
  Split.splitOn_map (fun a b => Text.bytes_append a ('/' :: b)) q fun s hs =>
    slash_notMem_bytes (Split.sep_not_mem_of_mem_splitOn '/' q s hs)

def popSegment (out : List Bytes) : List Bytes :=
  if out.length ≤ 1 then out else out.dropLast

/-- The loop of section 5.2.4 on segments: `out` is the output buffer. A dot segment in the
last place leaves an empty segment, which is the trailing slash of the result. -/
def removeDotSegmentsFrom (out : List Bytes) : List Bytes → List Bytes
  | [] => out
  | s :: rest =>
    if s = [dot] then
      removeDotSegmentsFrom (if rest.isEmpty then out ++ [[]] else out) rest
    else if s = [dot, dot] then
      removeDotSegmentsFrom
        (if rest.isEmpty then popSegment out ++ [[]] else popSegment out) rest
    else removeDotSegmentsFrom (out ++ [s]) rest

def removeDotSegments (segments : List Bytes) : List Bytes :=
  removeDotSegmentsFrom [] segments

def IsDotSegment (s : Bytes) : Prop := s = [dot] ∨ s = [dot, dot]

instance (s : Bytes) : Decidable (IsDotSegment s) := instDecidableOr

theorem removeDotSegmentsFrom_eq_append (out segments : List Bytes)
    (h : ∀ s ∈ segments, ¬ IsDotSegment s) :
    removeDotSegmentsFrom out segments = out ++ segments := by
  induction segments generalizing out with
  | nil => rw [removeDotSegmentsFrom, append_nil]
  | cons s rest ih =>
    have hs := not_or.mp (h s mem_cons_self)
    rw [removeDotSegmentsFrom, if_neg hs.1, if_neg hs.2,
      ih _ fun x hx => h x (mem_cons_of_mem _ hx), append_assoc, singleton_append]

theorem removeDotSegments_eq_self (segments : List Bytes)
    (h : ∀ s ∈ segments, ¬ IsDotSegment s) : removeDotSegments segments = segments :=
  removeDotSegmentsFrom_eq_append [] segments h

end Codex.Lib.Percent

import Codex.Lib.Percent

/-! `network-proxy/src/authorization_path.rs`, and what every later decoding of an accepted path can
look like. -/

namespace Codex.NetworkProxy.AuthorizationPath
open Codex.Lib Codex.Lib.Percent List

def decodeHexDigit (byte : UInt8) : Option UInt8 :=
  if 48 ≤ byte ∧ byte ≤ 57 then some (byte - 48)
  else if 97 ≤ byte ∧ byte ≤ 102 then some (byte - 97 + 10)
  else if 65 ≤ byte ∧ byte ≤ 70 then some (byte - 65 + 10)
  else none

theorem decodeHexDigit_eq_hexDigit : decodeHexDigit = hexDigit := rfl

/-- The `while` loop of `is_safe_segment_for_authorization` (authorization_path.rs:15), with
its two counters as arguments. -/
def scanSegment (decodedDots : Nat) (hasNonDot : Bool) : Bytes → Bool
  | [] => hasNonDot || !(decodedDots == 1 || decodedDots == 2)
  | b :: rest =>
    if b = dot then scanSegment (decodedDots + 1) hasNonDot rest
    else if b = backslash then false
    else if b = percent then
      match rest with
      | h :: l :: rest' =>
        match decodeHexDigit h, decodeHexDigit l with
        | some high, some low =>
          let decoded := high <<< 4 ||| low
          if decoded = percent ∨ decoded = slash ∨ decoded = backslash then false
          else if decoded = dot then scanSegment (decodedDots + 1) hasNonDot rest'
          else scanSegment decodedDots true rest'
        | _, _ => false
      | _ => false
    else scanSegment decodedDots true rest

def isSafeSegmentForAuthorization (segment : Bytes) : Bool := scanSegment 0 false segment

def isSafeForAuthorization (path : Bytes) : Bool :=
  (path.splitOn slash).all isSafeSegmentForAuthorization

/-- What an accepted segment guarantees: its raw text has no backslash, and one decoding pass
leaves no `%`, no separator that was not already there, and no dot segment. -/
structure SafeSegment (s : Bytes) : Prop where
  raw_backslash : backslash ∉ s
  decoded_percent : percent ∉ decode s
  decoded_backslash : backslash ∉ decode s
  decoded_slash : slash ∈ decode s → slash ∈ s
  decoded_not_dot : ¬ IsDotSegment (decode s)

def CleanDecoding (s : Bytes) : Prop :=
  ∀ b ∈ decode s, b ≠ percent ∧ b ≠ backslash ∧ (b = slash → slash ∈ s)

theorem cleanDecoding_cons_plain (b : UInt8) (rest : Bytes) (hp : b ≠ percent)
    (hb : b ≠ backslash) (h : CleanDecoding rest) : CleanDecoding (b :: rest) := by
  intro x hx
  rw [decode_cons_of_ne b rest hp] at hx
  rcases mem_cons.mp hx with rfl | hx
  · exact ⟨hp, hb, fun hs => hs ▸ mem_cons_self⟩
  · obtain ⟨h1, h2, h3⟩ := h x hx
    exact ⟨h1, h2, fun hs => mem_cons_of_mem _ (h3 hs)⟩

theorem cleanDecoding_escape (h l v : UInt8) (rest : Bytes) (hv : escape h l = some v)
    (hp : v ≠ percent) (hs : v ≠ slash) (hb : v ≠ backslash) (hr : CleanDecoding rest) :
    CleanDecoding (percent :: h :: l :: rest) := by
  intro x hx
  rw [decode_escape h l v rest hv] at hx
  rcases mem_cons.mp hx with rfl | hx
  · exact ⟨hp, hb, fun he => absurd he hs⟩
  · obtain ⟨h1, h2, h3⟩ := hr x hx
    refine ⟨h1, h2, fun he => ?_⟩
    exact mem_cons_of_mem _ (mem_cons_of_mem _ (mem_cons_of_mem _ (h3 he)))

def CountersAccept (decodedDots : Nat) (hasNonDot : Bool) (decoded : Bytes) : Prop :=
  hasNonDot = true ∨ (∃ b ∈ decoded, b ≠ dot) ∨
    (decodedDots + decoded.length ≠ 1 ∧ decodedDots + decoded.length ≠ 2)

theorem CountersAccept.cons_dot {n : Nat} {nd : Bool} {d : Bytes}
    (h : CountersAccept (n + 1) nd d) : CountersAccept n nd (dot :: d) := by
  rcases h with h | ⟨b, hb, hne⟩ | ⟨h1, h2⟩
  · exact .inl h
  · exact .inr (.inl ⟨b, mem_cons_of_mem _ hb, hne⟩)
  · refine .inr (.inr ?_)
    rw [length_cons]
    omega

theorem CountersAccept.cons_of_ne {n : Nat} {nd : Bool} {b : UInt8} (d : Bytes) (hb : b ≠ dot) :
    CountersAccept n nd (b :: d) :=
  .inr (.inl ⟨b, mem_cons_self, hb⟩)

theorem escape_of_digits {h l high low : UInt8} (hh : decodeHexDigit h = some high)
    (hl : decodeHexDigit l = some low) : escape h l = some (high <<< 4 ||| low) := by
  rw [decodeHexDigit_eq_hexDigit] at hh hl
  rw [escape, hh, hl]
  rfl

theorem backslash_not_mem_escape {h l high low : UInt8} {rest : Bytes}
    (hh : decodeHexDigit h = some high) (hl : decodeHexDigit l = some low)
    (hr : backslash ∉ rest) : backslash ∉ percent :: h :: l :: rest := by
  have hnone : decodeHexDigit backslash = none := by decide
  simp only [mem_cons, not_or]
  refine ⟨by decide, ?_, ?_, hr⟩
  · rintro rfl
    simp [hnone] at hh
  · rintro rfl
    simp [hnone] at hl

theorem scanSegment_sound (n : Nat) (nd : Bool) (s : Bytes) (hs : scanSegment n nd s) :
    backslash ∉ s ∧ CleanDecoding s ∧ CountersAccept n nd (decode s) := by
  fun_induction scanSegment n nd s with
  | case1 n nd =>
    refine ⟨not_mem_nil, fun b hb => absurd hb not_mem_nil, ?_⟩
    cases nd with
    | true => exact .inl rfl
    | false => exact .inr (.inr (by simpa using hs))
  | case2 n nd rest ih =>
    obtain ⟨hb, hc, ha⟩ := ih hs
    refine ⟨not_mem_cons_of_ne_of_not_mem (by decide) hb,
      cleanDecoding_cons_plain dot rest (by decide) (by decide) hc, ?_⟩
    rw [decode_cons_of_ne dot rest (by decide)]
    exact ha.cons_dot
  | case3 | case4 | case7 | case8 => exact absurd hs Bool.false_ne_true
  | case5 n nd h l rest high low hl hh decoded hbad hdot _ _ ih =>
    -- `%2e`: the scanner counts it as a dot.
    obtain ⟨hb, hc, ha⟩ := ih hs
    have hv := escape_of_digits hh hl
    simp only [not_or] at hbad
    refine ⟨backslash_not_mem_escape hh hl hb,
      cleanDecoding_escape h l _ rest hv hbad.1 hbad.2.1 hbad.2.2 hc, ?_⟩
    rw [decode_escape h l _ rest hv, show high <<< 4 ||| low = dot from hdot]
    exact ha.cons_dot
  | case6 n nd h l rest high low hl hh decoded hbad hdot _ _ ih =>
    obtain ⟨hb, hc, _⟩ := ih hs
    have hv := escape_of_digits hh hl
    simp only [not_or] at hbad
    refine ⟨backslash_not_mem_escape hh hl hb,
      cleanDecoding_escape h l _ rest hv hbad.1 hbad.2.1 hbad.2.2 hc, ?_⟩
    rw [decode_escape h l _ rest hv]
    exact .cons_of_ne _ hdot
  | case9 n nd b rest hdot hbs hp ih =>
    obtain ⟨hb, hc, _⟩ := ih hs
    refine ⟨not_mem_cons_of_ne_of_not_mem (Ne.symm hbs) hb,
      cleanDecoding_cons_plain b rest hp hbs hc, ?_⟩
    rw [decode_cons_of_ne b rest hp]
    exact .cons_of_ne _ hdot

theorem isSafeSegmentForAuthorization_sound (s : Bytes)
    (hs : isSafeSegmentForAuthorization s) : SafeSegment s := by
  obtain ⟨hb, hc, ha⟩ := scanSegment_sound 0 false s hs
  refine ⟨hb, fun h => (hc _ h).1 rfl, fun h => (hc _ h).2.1 rfl, fun h => (hc _ h).2.2 rfl, ?_⟩
  rintro (hd | hd) <;> simp [CountersAccept, hd] at ha

theorem SafeSegment.raw_not_dot {s : Bytes} (h : SafeSegment s) : ¬ IsDotSegment s := by
  intro hd
  have hp : percent ∉ s := by
    rcases hd with rfl | rfl <;> decide
  exact h.decoded_not_dot ((decode_eq_self s hp).symm ▸ hd)

/-- A path as a later component may read it: `k` passes of percent decoding, backslashes taken
for slashes, dot segments removed. -/
def reinterpret (k : Nat) (path : Bytes) : List Bytes :=
  removeDotSegments
    (((decode^[k] path).map fun b => if b = backslash then slash else b).splitOn slash)

theorem map_backslash_eq_self (p : Bytes) (h : backslash ∉ p) :
    (p.map fun b => if b = backslash then slash else b) = p := by
  have hid : ∀ b ∈ p, (if b = backslash then slash else b) = id b := by
    intro b hb
    have hne : b ≠ backslash := fun he => h (he ▸ hb)
    rw [if_neg hne, id]
  rw [map_congr_left hid, map_id]

theorem reinterpret_of_splitOn (k : Nat) (q : Bytes) (segments : List Bytes)
    (hs : (decode^[k] q).splitOn slash = segments) (hb : ∀ s ∈ segments, backslash ∉ s)
    (hd : ∀ s ∈ segments, ¬ IsDotSegment s) : reinterpret k q = segments := by
  have hq : backslash ∉ decode^[k] q := by
    intro h
    obtain ⟨s, hs', hm⟩ := Split.exists_mem_splitOn slash backslash _ h (by decide)
    exact hb s (hs ▸ hs') hm
  rw [reinterpret, map_backslash_eq_self _ hq, hs, removeDotSegments_eq_self segments hd]

/-- However often an accepted path is decoded, it is read as its own segments, each decoded on
its own: no decoding pass moves a segment boundary or makes a dot segment. -/
theorem reinterpret_of_safe (q : Bytes) (hq : isSafeForAuthorization q) (k : Nat) :
    reinterpret k q = (q.splitOn slash).map decode^[k] := by
  have hsafe : ∀ s ∈ q.splitOn slash, SafeSegment s := fun s hs =>
    isSafeSegmentForAuthorization_sound s (all_eq_true.mp hq s hs)
  cases k with
  | zero =>
    rw [Function.iterate_zero, map_id]
    exact reinterpret_of_splitOn 0 q _ rfl (fun s hs => (hsafe s hs).raw_backslash)
      (fun s hs => (hsafe s hs).raw_not_dot)
  | succ k =>
    have hsplit : (decode q).splitOn slash = (q.splitOn slash).map decode :=
      splitOn_decode slash slash_isSeparator q fun s hs h =>
        Split.sep_not_mem_of_mem_splitOn slash q s hs ((hsafe s hs).decoded_slash h)
    -- One pass removes every `%`, so the other `k` passes change nothing.
    have hpercent : percent ∉ decode q := by
      intro h
      obtain ⟨t, ht, hm⟩ := Split.exists_mem_splitOn slash percent _ h (by decide)
      obtain ⟨s, hs, rfl⟩ := mem_map.mp (hsplit ▸ ht)
      exact (hsafe s hs).decoded_percent hm
    have honce : ∀ s ∈ q.splitOn slash, decode^[k + 1] s = decode s := fun s hs =>
      (Function.iterate_succ_apply decode k s).trans
        (decode_iterate_eq_self _ (hsafe s hs).decoded_percent k)
    rw [map_congr_left honce]
    refine reinterpret_of_splitOn (k + 1) q _ ?_ ?_ ?_
    · rw [Function.iterate_succ_apply, decode_iterate_eq_self _ hpercent k, hsplit]
    · intro t ht
      obtain ⟨s, hs, rfl⟩ := mem_map.mp ht
      exact (hsafe s hs).decoded_backslash
    · intro t ht
      obtain ⟨s, hs, rfl⟩ := mem_map.mp ht
      exact (hsafe s hs).decoded_not_dot

theorem reinterpret_succ_of_safe (q : Bytes) (hq : isSafeForAuthorization q) (k : Nat) :
    reinterpret (k + 1) q = reinterpret 1 q := by
  rw [reinterpret_of_safe q hq, reinterpret_of_safe q hq]
  refine map_congr_left fun s hs => ?_
  have hs' := isSafeSegmentForAuthorization_sound s (all_eq_true.mp hq s hs)
  rw [Function.iterate_succ_apply, decode_iterate_eq_self _ hs'.decoded_percent k,
    Function.iterate_one]

end Codex.NetworkProxy.AuthorizationPath

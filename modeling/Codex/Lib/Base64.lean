import Codex.Lib.Text

/-! Base64 with the standard alphabet. Decoding accepts what encoding can produce and nothing else:
the padding must be there and the bits it leaves unused must be zero. -/

namespace Codex.Lib.Base64
open List Option

def symbol (i : Nat) : Char :=
  if i < 26 then Char.ofNat (i + 65)
  else if i < 52 then Char.ofNat (i + 71)
  else if i < 62 then Char.ofNat (i - 4)
  else if i = 62 then '+'
  else '/'

def value? (c : Char) : Option Nat :=
  if 'A' ≤ c ∧ c ≤ 'Z' then some (c.toNat - 65)
  else if 'a' ≤ c ∧ c ≤ 'z' then some (c.toNat - 71)
  else if '0' ≤ c ∧ c ≤ '9' then some (c.toNat + 4)
  else if c = '+' then some 62
  else if c = '/' then some 63
  else none

def encode : Bytes → Text
  | [] => []
  | [a] => [symbol (a.toNat / 4), symbol (a.toNat % 4 * 16), '=', '=']
  | [a, b] =>
    [symbol (a.toNat / 4), symbol (a.toNat % 4 * 16 + b.toNat / 16), symbol (b.toNat % 16 * 4), '=']
  | a :: b :: c :: rest =>
    symbol (a.toNat / 4) :: symbol (a.toNat % 4 * 16 + b.toNat / 16) ::
      symbol (b.toNat % 16 * 4 + c.toNat / 64) :: symbol (c.toNat % 64) :: encode rest

def octets (w x y z : Nat) : Bytes :=
  [UInt8.ofNat (w * 4 + x / 16), UInt8.ofNat (x % 16 * 16 + y / 4), UInt8.ofNat (y % 4 * 64 + z)]

def decodeGroup (w x y z : Char) : Option Bytes := do
  return octets (← value? w) (← value? x) (← value? y) (← value? z)

/-- A group that may end in padding. -/
def decodeLast (w x y z : Char) : Option Bytes :=
  if z = '=' then
    if y = '=' then do
      let w ← value? w
      let x ← value? x
      if x % 16 = 0 then some ((octets w x 0 0).take 1) else none
    else do
      let w ← value? w
      let x ← value? x
      let y ← value? y
      if y % 4 = 0 then some ((octets w x y 0).take 2) else none
  else decodeGroup w x y z

def decode : Text → Option Bytes
  | [] => some []
  | [w, x, y, z] => decodeLast w x y z
  | w :: x :: y :: z :: rest => do return (← decodeGroup w x y z) ++ (← decode rest)
  | _ => none

theorem value?_symbol {i : Nat} (h : i < 64) : value? (symbol i) = some i := by
  have hall : ∀ i < 64, value? (symbol i) = some i := by decide
  exact hall i h

theorem symbol_ne_padding {i : Nat} (h : i < 64) : symbol i ≠ '=' := by
  have hall : ∀ i < 64, symbol i ≠ '=' := by decide
  exact hall i h

theorem octets_eq (a b c : UInt8) :
    octets (a.toNat / 4) (a.toNat % 4 * 16 + b.toNat / 16) (b.toNat % 16 * 4 + c.toNat / 64)
      (c.toNat % 64) = [a, b, c] := by
  have ha := a.toNat_lt
  have hb := b.toNat_lt
  have hc := c.toNat_lt
  have hfirst : a.toNat / 4 * 4 + (a.toNat % 4 * 16 + b.toNat / 16) / 16 = a.toNat := by omega
  have hsecond : (a.toNat % 4 * 16 + b.toNat / 16) % 16 * 16 +
      (b.toNat % 16 * 4 + c.toNat / 64) / 4 = b.toNat := by omega
  have hthird : (b.toNat % 16 * 4 + c.toNat / 64) % 4 * 64 + c.toNat % 64 = c.toNat := by omega
  rw [octets, hfirst, hsecond, hthird, UInt8.ofNat_toNat, UInt8.ofNat_toNat, UInt8.ofNat_toNat]

theorem decodeGroup_symbols {w x y z : Nat} (hw : w < 64) (hx : x < 64) (hy : y < 64)
    (hz : z < 64) :
    decodeGroup (symbol w) (symbol x) (symbol y) (symbol z) = some (octets w x y z) := by
  simp [decodeGroup, value?_symbol, hw, hx, hy, hz]

theorem decode_encode (bytes : Bytes) : decode (encode bytes) = some bytes := by
  induction bytes using encode.induct with
  | case1 => rfl
  | case2 a =>
    have ha := a.toNat_lt
    have hoctets := octets_eq a 0 0
    rw [encode, decode, decodeLast, if_pos rfl, if_pos rfl, value?_symbol (by omega),
      value?_symbol (by omega)]
    simp at hoctets
    simp [hoctets, Nat.mul_mod_left]
  | case3 a b =>
    have ha := a.toNat_lt
    have hb := b.toNat_lt
    have hoctets := octets_eq a b 0
    rw [encode, decode, decodeLast, if_pos rfl, if_neg (symbol_ne_padding (by omega)),
      value?_symbol (by omega), value?_symbol (by omega), value?_symbol (by omega)]
    simp at hoctets
    simp [hoctets, Nat.mul_mod_left]
  | case4 a b c rest ih =>
    have ha := a.toNat_lt
    have hb := b.toNat_lt
    have hc := c.toNat_lt
    have hgroup := decodeGroup_symbols (w := a.toNat / 4) (x := a.toNat % 4 * 16 + b.toNat / 16)
      (y := b.toNat % 16 * 4 + c.toNat / 64) (z := c.toNat % 64) (by omega) (by omega) (by omega)
      (by omega)
    rw [octets_eq] at hgroup
    rw [encode]
    cases hrest : encode rest with
    | nil =>
      rw [hrest] at ih
      cases ih
      rw [decode, decodeLast, if_neg (symbol_ne_padding (by omega)), hgroup]
    | cons s more =>
      rw [hrest] at ih
      rw [decode, hgroup, ih]
      · rfl
      · simp

theorem length_encode (bytes : Bytes) : (encode bytes).length = (bytes.length + 2) / 3 * 4 := by
  induction bytes using encode.induct with
  | case1 => rfl
  | case2 a => simp [encode]
  | case3 a b => simp [encode]
  | case4 a b c rest ih =>
    rw [encode]
    simp only [length_cons, ih]
    omega

theorem mem_encode {bytes : Bytes} {c : Char} (h : c ∈ encode bytes) :
    c = '=' ∨ ∃ i < 64, c = symbol i := by
  induction bytes using encode.induct with
  | case1 => cases h
  | case2 a =>
    have ha := a.toNat_lt
    simp only [encode, mem_cons, not_mem_nil, or_false] at h
    rcases h with rfl | rfl | rfl | rfl
    · exact .inr ⟨_, by omega, rfl⟩
    · exact .inr ⟨_, by omega, rfl⟩
    · exact .inl rfl
    · exact .inl rfl
  | case3 a b =>
    have ha := a.toNat_lt
    have hb := b.toNat_lt
    simp only [encode, mem_cons, not_mem_nil, or_false] at h
    rcases h with rfl | rfl | rfl | rfl
    · exact .inr ⟨_, by omega, rfl⟩
    · exact .inr ⟨_, by omega, rfl⟩
    · exact .inr ⟨_, by omega, rfl⟩
    · exact .inl rfl
  | case4 a b c' rest ih =>
    have ha := a.toNat_lt
    have hb := b.toNat_lt
    have hc := c'.toNat_lt
    simp only [encode, mem_cons] at h
    rcases h with rfl | rfl | rfl | rfl | hrest
    · exact .inr ⟨_, by omega, rfl⟩
    · exact .inr ⟨_, by omega, rfl⟩
    · exact .inr ⟨_, by omega, rfl⟩
    · exact .inr ⟨_, by omega, rfl⟩
    · exact ih hrest

theorem length_of_decodeGroup {w x y z : Char} {bytes : Bytes}
    (h : decodeGroup w x y z = some bytes) : bytes.length = 3 := by
  simp only [decodeGroup, Option.pure_def, Option.bind_eq_bind, Option.bind_eq_some_iff,
    Option.some.injEq] at h
  obtain ⟨_, _, _, _, _, _, _, _, rfl⟩ := h
  rfl

theorem length_le_of_decodeLast {w x y z : Char} {bytes : Bytes}
    (h : decodeLast w x y z = some bytes) : bytes.length ≤ 3 := by
  rw [decodeLast] at h
  split at h
  · split at h
    · simp only [bind_eq_bind, bind_eq_some_iff] at h
      obtain ⟨_, _, _, _, h⟩ := h
      split at h <;> cases h
      simp [octets]
    · simp only [bind_eq_bind, bind_eq_some_iff] at h
      obtain ⟨_, _, _, _, _, _, h⟩ := h
      split at h <;> cases h
      simp [octets]
  · exact (length_of_decodeGroup h).le

theorem length_le_of_decode {text : Text} {bytes : Bytes} (h : decode text = some bytes) :
    bytes.length ≤ text.length / 4 * 3 := by
  induction text using decode.induct generalizing bytes with
  | case1 =>
    cases h
    exact Nat.le_refl _
  | case2 w x y z =>
    have hle := length_le_of_decodeLast h
    simpa using hle
  | case3 w x y z rest hrest ih =>
    rw [decode] at h
    · simp only [Option.pure_def, Option.bind_eq_bind, Option.bind_eq_some_iff,
        Option.some.injEq] at h
      obtain ⟨group, hgroup, more, hmore, rfl⟩ := h
      have hthree := length_of_decodeGroup hgroup
      have hle := ih hmore
      simp only [length_append, length_cons]
      omega
    · exact hrest
  | case4 text hnil hlast hmore =>
    rw [decode] at h
    · cases h
    all_goals assumption

end Codex.Lib.Base64

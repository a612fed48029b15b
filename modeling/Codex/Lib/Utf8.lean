import Codex.Lib.Framing
import Codex.Lib.Text

/-! `str::from_utf8` with the place and the length of the first error. A beginning of an encoding is
decoded up to its last complete character. -/

namespace Codex.Lib.Text
open List UInt8

structure Utf8Error where
  validUpTo : Nat
  errorLen : Option Nat
  deriving DecidableEq, Repr

/-- The characters up to the first error, and the bytes from there on; `skip` bytes of the
character before are still to be passed over. -/
def decodeUpTo (skip : Nat) : Bytes → Text × Bytes
  | [] => ([], [])
  | b :: rest =>
    match skip with
    | skip + 1 => decodeUpTo skip rest
    | 0 =>
      match decodeFirst b rest with
      | (some c, n) => (c :: (decodeUpTo n rest).1, (decodeUpTo n rest).2)
      | (none, _) => ([], b :: rest)

def isLeadingByte (b : UInt8) : Bool := 0xC2 ≤ b && b ≤ 0xF4

def errorLen (b : UInt8) (rest : Bytes) : Option Nat :=
  if isLeadingByte b ∧ rest.length ≤ (decodeFirst b rest).2 then none
  else some ((decodeFirst b rest).2 + 1)

def fromUtf8 (bytes : Bytes) : Except Utf8Error Text :=
  match decodeUpTo 0 bytes with
  | (text, []) => .ok text
  | (_, b :: rest) => .error ⟨bytes.length - (rest.length + 1), errorLen b rest⟩

theorem isContinuation_iff {b : UInt8} :
    isContinuation b ↔ 0x80 ≤ b.toNat ∧ b.toNat ≤ 0xBF := by
  simp [isContinuation, le_iff_toNat_le]

theorem secondByteOk_of {b0 b1 : UInt8} (h : 0x80 ≤ b1.toNat ∧ b1.toNat ≤ 0xBF)
    (hE0 : b0.toNat = 0xE0 → 0xA0 ≤ b1.toNat) (hED : b0.toNat = 0xED → b1.toNat ≤ 0x9F)
    (hF0 : b0.toNat = 0xF0 → 0x90 ≤ b1.toNat) (hF4 : b0.toNat = 0xF4 → b1.toNat ≤ 0x8F) :
    secondByteOk b0 b1 := by
  have heq : ∀ k : UInt8, b0 = k ↔ b0.toNat = k.toNat := fun k => UInt8.toNat_inj.symm
  simp only [secondByteOk, isContinuation, heq, UInt8.le_iff_toNat_le, UInt8.reduceToNat]
  split
  · next hb0 => simp [hE0 hb0, h.2]
  · split
    · next hb0 => simp [hED hb0, h.1]
    · split
      · next hb0 => simp [hF0 hb0, h.2]
      · split
        · next hb0 => simp [hF4 hb0, h.1]
        · simp [h.1, h.2]

/-- A leading byte and its other bytes are decoded to a character, whatever follows, and no part
of them is. -/
structure Decodes (b : UInt8) (tail : Bytes) (c : Char) : Prop where
  complete : ∀ rest, decodeFirst b (tail ++ rest) = (some c, tail.length)
  incomplete : ∀ start, start <+: tail → start ≠ tail →
    isLeadingByte b = true ∧ decodeFirst b start = (none, start.length)

theorem isLeadingByte_of {b : UInt8} (h : 0xC2 ≤ b.toNat ∧ b.toNat ≤ 0xF4) :
    isLeadingByte b := by
  simpa [isLeadingByte, le_iff_toNat_le] using h

section Decodes
variable {b b1 b2 b3 : UInt8} {v : Nat}

theorem decodes_one (h : b.toNat = v) (hv : v < 0x80) : Decodes b [] (Char.ofNat v) where
  complete := fun rest => by simp [decodeFirst, lt_iff_toNat_lt, h, hv]
  incomplete := fun start hstart hne => absurd (prefix_nil.mp hstart) hne

theorem exists_take_of_ne {start tail : Bytes} (h : start <+: tail) (hne : start ≠ tail) :
    ∃ n < tail.length, start = tail.take n :=
  ⟨start.length, h.length_le.lt_of_ne fun hlength => hne (h.eq_of_length hlength),
    prefix_iff_eq_take.mp h⟩

theorem decodes_two (h : 0xC2 ≤ b.toNat ∧ b.toNat ≤ 0xDF) (h1 : isContinuation b1)
    (hv : b.toNat % 32 * 64 + b1.toNat % 64 = v) : Decodes b [b1] (Char.ofNat v) := by
  have hone : ¬ b.toNat < 0x80 := by omega
  refine ⟨fun rest => ?_, fun start hstart hne => ⟨isLeadingByte_of (by omega), ?_⟩⟩
  · simp [decodeFirst, lt_iff_toNat_lt, le_iff_toNat_le, hone, h, h1, codePoint, ← hv]
  · obtain ⟨n, hn, rfl⟩ := exists_take_of_ne hstart hne
    obtain rfl := Nat.lt_one_iff.mp hn
    simp [decodeFirst, lt_iff_toNat_lt, le_iff_toNat_le, hone, h]

theorem decodes_three (h : 0xE0 ≤ b.toNat ∧ b.toNat ≤ 0xEF) (h1 : secondByteOk b b1)
    (h2 : isContinuation b2)
    (hv : (b.toNat % 16 * 64 + b1.toNat % 64) * 64 + b2.toNat % 64 = v) :
    Decodes b [b1, b2] (Char.ofNat v) := by
  have hone : ¬ b.toNat < 0x80 := by omega
  have htwo : ¬ (0xC2 ≤ b.toNat ∧ b.toNat ≤ 0xDF) := by omega
  refine ⟨fun rest => ?_, fun start hstart hne => ⟨isLeadingByte_of (by omega), ?_⟩⟩
  · simp [decodeFirst, lt_iff_toNat_lt, le_iff_toNat_le, hone, htwo, h, h1, h2, codePoint, ← hv]
  · obtain ⟨n, hn, rfl⟩ := exists_take_of_ne hstart hne
    rcases Nat.le_one_iff_eq_zero_or_eq_one.mp (Nat.le_of_lt_succ hn) with rfl | rfl <;>
      simp [decodeFirst, lt_iff_toNat_lt, le_iff_toNat_le, hone, htwo, h, h1]

theorem decodes_four (h : 0xF0 ≤ b.toNat ∧ b.toNat ≤ 0xF4) (h1 : secondByteOk b b1)
    (h2 : isContinuation b2) (h3 : isContinuation b3)
    (hv : ((b.toNat % 8 * 64 + b1.toNat % 64) * 64 + b2.toNat % 64) * 64 + b3.toNat % 64 = v) :
    Decodes b [b1, b2, b3] (Char.ofNat v) := by
  have hone : ¬ b.toNat < 0x80 := by omega
  have htwo : ¬ (0xC2 ≤ b.toNat ∧ b.toNat ≤ 0xDF) := by omega
  have hthree : ¬ (0xE0 ≤ b.toNat ∧ b.toNat ≤ 0xEF) := by omega
  refine ⟨fun rest => ?_, fun start hstart hne => ⟨isLeadingByte_of (by omega), ?_⟩⟩
  · simp [decodeFirst, lt_iff_toNat_lt, le_iff_toNat_le, hone, htwo, hthree, h, h1,
      h2, h3, codePoint, ← hv]
  · obtain ⟨n, hn, rfl⟩ := exists_take_of_ne hstart hne
    have hcases : n = 0 ∨ n = 1 ∨ n = 2 := by
      simp only [length_cons, length_nil] at hn
      omega
    rcases hcases with rfl | rfl | rfl <;>
      simp [decodeFirst, lt_iff_toNat_lt, le_iff_toNat_le, hone, htwo, hthree, h, h1, h2]

end Decodes

theorem decodes_utf8EncodeChar (c : Char) :
    ∃ b tail, String.utf8EncodeChar c = b :: tail ∧ Decodes b tail c := by
  have hbyte : ∀ n, n < 256 → (ofNat n).toNat = n := fun n hn =>
    toNat_ofNat_of_lt' hn
  have hvalid : c.val.toNat < 0xD800 ∨ 0xDFFF < c.val.toNat ∧ c.val.toNat < 0x110000 := c.valid
  have hchar : Char.ofNat c.val.toNat = c := Char.ofNat_toNat c
  simp only [String.utf8EncodeChar]
  generalize c.val.toNat = v at hvalid hchar ⊢
  subst hchar
  have e1 := hbyte (v % 0x40 + 0x80) (by omega)
  have e2 := hbyte (v / 64 % 0x40 + 0x80) (by omega)
  have e3 := hbyte (v / 4096 % 0x40 + 0x80) (by omega)
  split
  · next hone => exact ⟨_, _, rfl, decodes_one (hbyte v (by omega)) (by omega)⟩
  · split
    · have e0 := hbyte (v / 64 % 0x20 + 0xc0) (by omega)
      exact ⟨_, _, rfl, decodes_two (by omega) (isContinuation_iff.mpr (by omega)) (by omega)⟩
    · split
      · have e0 := hbyte (v / 4096 % 0x10 + 0xe0) (by omega)
        refine ⟨_, _, rfl, decodes_three (by omega) (secondByteOk_of ?_ ?_ ?_ ?_ ?_)
          (isContinuation_iff.mpr (by omega)) (by omega)⟩ <;> omega
      · have e0 := hbyte (v / 262144 % 0x08 + 0xf0) (by omega)
        refine ⟨_, _, rfl, decodes_four (by omega) (secondByteOk_of ?_ ?_ ?_ ?_ ?_)
          (isContinuation_iff.mpr (by omega)) (isContinuation_iff.mpr (by omega)) (by omega)⟩ <;>
          omega

theorem decodeUpTo_skip (skipped rest : Bytes) :
    decodeUpTo skipped.length (skipped ++ rest) = decodeUpTo 0 rest := by
  induction skipped with
  | nil => rfl
  | cons b skipped ih => exact ih

theorem decodeUpTo_bytes_append (text : Text) (rest : Bytes) :
    decodeUpTo 0 (bytes text ++ rest) = (text ++ (decodeUpTo 0 rest).1, (decodeUpTo 0 rest).2) := by
  induction text with
  | nil => rfl
  | cons c text ih =>
    obtain ⟨b, tail, hbytes, hdecodes⟩ := decodes_utf8EncodeChar c
    have hcons : bytes (c :: text) ++ rest = b :: (tail ++ (bytes text ++ rest)) := by
      rw [bytes, flatMap_cons, hbytes]
      simp [bytes]
    rw [hcons, decodeUpTo, hdecodes.complete]
    simp [decodeUpTo_skip, ih]

theorem fromUtf8_bytes (text : Text) : fromUtf8 (bytes text) = .ok text := by
  have h := decodeUpTo_bytes_append text []
  rw [append_nil] at h
  rw [fromUtf8, h]
  simp [decodeUpTo]

theorem fromUtf8_unfinished {text rest : Text} {tail : Bytes} (hne : tail ≠ [])
    (htail : Framing.Unfinished String.utf8EncodeChar rest tail) :
    fromUtf8 (bytes text ++ tail) = .error ⟨(bytes text).length, none⟩ := by
  cases rest with
  | nil => exact absurd htail hne
  | cons c rest =>
    obtain ⟨b, others, hbytes, hdecodes⟩ := decodes_utf8EncodeChar c
    obtain ⟨hstart, hpart⟩ := htail
    rw [hbytes] at hstart hpart
    obtain rfl | ⟨start, rfl, hothers⟩ := prefix_cons_iff.mp hstart
    · exact absurd rfl hne
    · have hstartNe : start ≠ others := fun heq => hpart (by rw [heq])
      obtain ⟨hleading, hfirst⟩ := hdecodes.incomplete start hothers hstartNe
      have hstop : decodeUpTo 0 (b :: start) = ([], b :: start) := by rw [decodeUpTo, hfirst]
      have hlen : errorLen b start = none := by simp [errorLen, hleading, hfirst]
      rw [fromUtf8, decodeUpTo_bytes_append, hstop]
      simp [hlen]

end Codex.Lib.Text

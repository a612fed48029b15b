import Mathlib.Data.List.Basic
import Mathlib.Data.List.DropRight

/-! The string operations of the Rust standard library that the models use, on lists of characters.
-/

namespace Codex.Lib

abbrev Text := List Char

instance instLawfulBEqText : LawfulBEq Text := inferInstanceAs (LawfulBEq (List Char))

abbrev Bytes := List UInt8

namespace Text

def bytes (s : Text) : Bytes := s.flatMap String.utf8EncodeChar

@[simp] theorem bytes_nil : bytes [] = [] := rfl

@[simp] theorem bytes_append (s t : Text) : bytes (s ++ t) = bytes s ++ bytes t :=
  List.flatMap_append

theorem bytes_injective : Function.Injective bytes := by
  intro s t h
  have hencode : s.utf8Encode = t.utf8Encode := by
    rw [List.utf8Encode, List.utf8Encode]
    exact congrArg List.toByteArray h
  have hst : s <+: t := List.isPrefix_of_utf8Encode_append_eq_utf8Encode _ (by
    rw [hencode, ByteArray.append_empty])
  have hts : t <+: s := List.isPrefix_of_utf8Encode_append_eq_utf8Encode _ (by
    rw [hencode, ByteArray.append_empty])
  exact hst.eq_of_length_le hts.length_le

def isContinuation (b : UInt8) : Bool := 0x80 ≤ b && b ≤ 0xBF

def secondByteOk (b0 b1 : UInt8) : Bool :=
  if b0 = 0xE0 then 0xA0 ≤ b1 && b1 ≤ 0xBF
  else if b0 = 0xED then 0x80 ≤ b1 && b1 ≤ 0x9F
  else if b0 = 0xF0 then 0x90 ≤ b1 && b1 ≤ 0xBF
  else if b0 = 0xF4 then 0x80 ≤ b1 && b1 ≤ 0x8F
  else isContinuation b1

def codePoint (b0 : Nat) (rest : List UInt8) : Char :=
  Char.ofNat (rest.foldl (fun n b => n * 64 + b.toNat % 64) b0)

/-- The first character of a byte string, or the maximal invalid sequence at its front, with the
number of bytes that it takes besides the first. -/
def decodeFirst (b0 : UInt8) (rest : Bytes) : Option Char × Nat :=
  if b0 < 0x80 then (some (Char.ofNat b0.toNat), 0)
  else if 0xC2 ≤ b0 && b0 ≤ 0xDF then
    match rest with
    | b1 :: _ =>
      if isContinuation b1 then (some (codePoint (b0.toNat % 32) [b1]), 1) else (none, 0)
    | [] => (none, 0)
  else if 0xE0 ≤ b0 && b0 ≤ 0xEF then
    match rest with
    | b1 :: b2 :: _ =>
      if !secondByteOk b0 b1 then (none, 0)
      else if isContinuation b2 then (some (codePoint (b0.toNat % 16) [b1, b2]), 2)
      else (none, 1)
    | [b1] => if secondByteOk b0 b1 then (none, 1) else (none, 0)
    | [] => (none, 0)
  else if 0xF0 ≤ b0 && b0 ≤ 0xF4 then
    match rest with
    | b1 :: b2 :: b3 :: _ =>
      if !secondByteOk b0 b1 then (none, 0)
      else if !isContinuation b2 then (none, 1)
      else if isContinuation b3 then (some (codePoint (b0.toNat % 8) [b1, b2, b3]), 3)
      else (none, 2)
    | [b1, b2] =>
      if !secondByteOk b0 b1 then (none, 0) else if isContinuation b2 then (none, 2) else (none, 1)
    | [b1] => if secondByteOk b0 b1 then (none, 1) else (none, 0)
    | [] => (none, 0)
  else (none, 0)

/-- The characters of a byte string in turn, `none` for each invalid sequence; `skip` bytes of the
character before are still to be passed over. -/
def decodeChars (skip : Nat) : Bytes → List (Option Char)
  | [] => []
  | b :: rest =>
    match skip with
    | skip + 1 => decodeChars skip rest
    | 0 => (decodeFirst b rest).1 :: decodeChars (decodeFirst b rest).2 rest

def ofBytesLossy (bytes : Bytes) : Text :=
  (decodeChars 0 bytes).map fun c => c.getD (Char.ofNat 0xFFFD)

def ofBytes? (bytes : Bytes) : Option Text := (decodeChars 0 bytes).mapM id

example : ofBytesLossy [97, 0xE2, 0x82, 98, 0xC3, 0xA9] = ['a', Char.ofNat 0xFFFD, 'b', 'é'] := by
  decide

def decimal (n : Nat) : Text := Nat.toDigits 10 n

end Text

end Codex.Lib

import Codex.Lib.Framing
import Codex.NoiseRelay.OrderedCiphertext

/-! `frame_message` and `MessageDecoder` of `exec-server/src/noise_relay/message_framing.rs`. -/

namespace Codex.NoiseRelay
open Codex.Lib Codex.Lib.Framing List UInt8

def lengthPrefixBytes : Nat := 4

def maxNoiseJsonrpcMessageLen : Nat := 64 * 1024 * 1024

def noiseRecordPlaintextLen : Nat := 60 * 1024

def toBeBytes (n : Nat) : Bytes :=
  [UInt8.ofNat (n / 2 ^ 24), UInt8.ofNat (n / 2 ^ 16), UInt8.ofNat (n / 2 ^ 8), UInt8.ofNat n]

def fromBeBytes (a b c d : UInt8) : Nat :=
  a.toNat * 2 ^ 24 + b.toNat * 2 ^ 16 + c.toNat * 2 ^ 8 + d.toNat

theorem length_toBeBytes (n : Nat) : (toBeBytes n).length = lengthPrefixBytes := rfl

theorem fromBeBytes_toBeBytes {n : Nat} (h : n < 2 ^ 32) :
    fromBeBytes (ofNat (n / 2 ^ 24)) (ofNat (n / 2 ^ 16)) (ofNat (n / 2 ^ 8)) (ofNat n) = n := by
  simp only [fromBeBytes, toNat_ofNat']
  omega

def messageLengthPrefix (messageLen : Nat) : Except ExecServerError Bytes :=
  if messageLen = 0 ∨ messageLen > maxNoiseJsonrpcMessageLen then
    .error (.protocol "Noise relay JSON-RPC message exceeds maximum length".toList)
  else .ok (toBeBytes messageLen)

def frameMessage (message : Bytes) : Except ExecServerError Bytes := do
  let start ← messageLengthPrefix message.length
  return start ++ message

/-- The loop of `push`. Every round takes at least five bytes, so the length of the buffer bounds
the rounds. -/
def decodeMessages : Nat → Bytes → Except ExecServerError (Bytes × List Bytes)
  | 0, buffered => .ok (buffered, [])
  | fuel + 1, buffered =>
    match buffered with
    | a :: b :: c :: d :: rest =>
      let messageLen := fromBeBytes a b c d
      if messageLen = 0 ∨ messageLen > maxNoiseJsonrpcMessageLen then
        .error (.protocol "Noise relay JSON-RPC message has invalid length".toList)
      else if buffered.length < lengthPrefixBytes + messageLen then .ok (buffered, [])
      else do
        let (buffered, messages) ← decodeMessages fuel (rest.drop messageLen)
        return (buffered, rest.take messageLen :: messages)
    | _ => .ok (buffered, [])

structure MessageDecoder where
  buffered : Bytes

def MessageDecoder.push (s : MessageDecoder) (plaintextRecord : Bytes) :
    Except ExecServerError (MessageDecoder × List Bytes) :=
  if plaintextRecord.length > noiseRecordPlaintextLen then
    .error (.protocol "Noise relay plaintext record exceeds maximum length".toList)
  else do
    let buffered := s.buffered ++ plaintextRecord
    let (buffered, messages) ← decodeMessages buffered.length buffered
    if buffered.length > lengthPrefixBytes + maxNoiseJsonrpcMessageLen then
      .error (.protocol "Noise relay JSON-RPC reassembly buffer exceeds maximum length".toList)
    else return (⟨buffered⟩, messages)

def Sendable (message : Bytes) : Prop :=
  1 ≤ message.length ∧ message.length ≤ maxNoiseJsonrpcMessageLen

instance (message : Bytes) : Decidable (Sendable message) := inferInstanceAs (Decidable (_ ∧ _))

def frame (message : Bytes) : Bytes := toBeBytes message.length ++ message

theorem Sendable.length_valid {message : Bytes} (h : Sendable message) :
    fromBeBytes (ofNat (message.length / 2 ^ 24)) (ofNat (message.length / 2 ^ 16))
        (ofNat (message.length / 2 ^ 8)) (ofNat message.length) = message.length ∧
      ¬ (message.length = 0 ∨ message.length > maxNoiseJsonrpcMessageLen) := by
  obtain ⟨hpos, hle⟩ := h
  refine ⟨?_, by omega⟩
  apply fromBeBytes_toBeBytes
  rw [maxNoiseJsonrpcMessageLen] at hle
  omega

theorem frameMessage_eq_ok {message : Bytes} (h : Sendable message) :
    frameMessage message = .ok (frame message) := by
  rw [frameMessage, messageLengthPrefix, if_neg h.length_valid.2]
  rfl

theorem length_frame (message : Bytes) :
    (frame message).length = lengthPrefixBytes + message.length := by
  rw [frame, length_append, length_toBeBytes]

theorem frame_ne_nil (message : Bytes) : frame message ≠ [] := by
  simp [frame, toBeBytes]

theorem decodeMessages_unfinished {fuel : Nat} {rest : List Bytes} {tail : Bytes}
    (hrest : ∀ m ∈ rest, Sendable m) (h : Unfinished frame rest tail) :
    decodeMessages fuel tail = .ok (tail, []) := by
  cases fuel with
  | zero => rfl
  | succ fuel =>
    match tail, h with
    | [], _ | [_], _ | [_, _], _ | [_, _, _], _ => rfl
    | a :: b :: c :: d :: tail, h =>
      cases rest with
      | nil => exact nomatch h
      | cons m rest =>
        obtain ⟨hlen, hvalid⟩ := (hrest m mem_cons_self).length_valid
        have hlt := h.length_lt
        rw [length_frame] at hlt
        -- four bytes of the frame are its length
        obtain ⟨more, hmore⟩ := h.1
        simp only [frame, toBeBytes, cons_append, nil_append, List.cons.injEq] at hmore
        obtain ⟨rfl, rfl, rfl, rfl, _⟩ := hmore
        simp only [decodeMessages, hlen, if_neg hvalid, if_pos hlt]

theorem decodeMessages_frames {fuel : Nat} {complete rest : List Bytes} {tail : Bytes}
    (hcomplete : ∀ m ∈ complete, Sendable m) (hrest : ∀ m ∈ rest, Sendable m)
    (h : Unfinished frame rest tail) (hfuel : complete.length ≤ fuel) :
    decodeMessages fuel (complete.flatMap frame ++ tail) = .ok (tail, complete) := by
  induction complete generalizing fuel with
  | nil => exact decodeMessages_unfinished hrest h
  | cons m complete ih =>
    obtain ⟨fuel, rfl⟩ : ∃ n, fuel = n + 1 := Nat.exists_eq_add_one.mpr (by simp at hfuel; omega)
    obtain ⟨hlen, hvalid⟩ := (hcomplete m mem_cons_self).length_valid
    have hnext := ih (fun x hx => hcomplete x (mem_cons_of_mem _ hx)) (Nat.le_of_succ_le_succ hfuel)
    rw [flatMap_cons, append_assoc, frame, append_assoc]
    have henough : ¬ (toBeBytes m.length ++ (m ++ (complete.flatMap frame ++ tail))).length <
        lengthPrefixBytes + m.length := by
      simp only [length_append, length_toBeBytes]
      omega
    simp only [toBeBytes, cons_append, nil_append] at henough ⊢
    simp only [decodeMessages, hlen, if_neg hvalid, if_neg henough, drop_left, hnext, ok_bind,
      take_left]
    rfl

theorem length_le_flatMap_frame (messages : List Bytes) :
    messages.length ≤ (messages.flatMap frame).length := by
  induction messages with
  | nil => exact Nat.zero_le _
  | cons m messages ih =>
    rw [flatMap_cons, length_append, length_frame, length_cons, lengthPrefixBytes]
    omega

theorem length_unfinished_le {rest : List Bytes} {tail : Bytes}
    (hrest : ∀ m ∈ rest, Sendable m) (h : Unfinished frame rest tail) :
    tail.length ≤ lengthPrefixBytes + maxNoiseJsonrpcMessageLen := by
  cases rest with
  | nil =>
    obtain rfl : tail = [] := h
    exact Nat.zero_le _
  | cons m rest =>
    obtain ⟨_, hle⟩ := hrest m mem_cons_self
    have hlt := h.length_lt
    rw [length_frame] at hlt
    omega

theorem MessageDecoder.push_spec {rest : List Bytes} {tail plaintextRecord : Bytes}
    (hrest : ∀ m ∈ rest, Sendable m) (hlen : plaintextRecord.length ≤ noiseRecordPlaintextLen)
    (hstream : tail ++ plaintextRecord <+: rest.flatMap frame) :
    ∃ complete rest' tail', rest = complete ++ rest' ∧
      tail ++ plaintextRecord = complete.flatMap frame ++ tail' ∧
      Unfinished frame rest' tail' ∧
      MessageDecoder.push ⟨tail⟩ plaintextRecord = .ok (⟨tail'⟩, complete) := by
  obtain ⟨complete, rest', tail', rfl, hsplit, htail⟩ := exists_unfinished hstream
  refine ⟨complete, rest', tail', rfl, hsplit, htail, ?_⟩
  have hcomplete : ∀ m ∈ complete, Sendable m := fun m hm => hrest m (mem_append_left _ hm)
  have hrest' : ∀ m ∈ rest', Sendable m := fun m hm => hrest m (mem_append_right _ hm)
  have hfuel : complete.length ≤ (complete.flatMap frame ++ tail').length := by
    rw [length_append]
    exact (length_le_flatMap_frame complete).trans (Nat.le_add_right _ _)
  have hbound := length_unfinished_le hrest' htail
  rw [push, if_neg (Nat.not_lt.mpr hlen)]
  simp only [hsplit, decodeMessages_frames hcomplete hrest' htail hfuel, ok_bind,
    if_neg (Nat.not_lt.mpr hbound)]
  rfl

end Codex.NoiseRelay

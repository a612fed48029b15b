import Codex.Lib.Base64
import Codex.Lib.Chunked
import Codex.RemoteControl.SegmentReassembler
import Mathlib.Data.Nat.Digits.Defs

/-! `split_server_envelope_for_transport` of `remote_control/segment.rs` with the JSON text of the
envelopes; that of the message itself is given by `serde_json`. -/

namespace Codex.RemoteControl.Segment
open Codex.Lib List Text

def remoteControlSegmentTargetBytes : Nat := 100 * 1024
def remoteControlSegmentMaxBytes : Nat := 150 * 1024
def internalErrorCode : Int := -32603

/-- `serde_json::to_vec` of a message. No value has an empty JSON text. -/
structure Serializer (RequestId Payload : Type) where
  toVec : OutgoingMessage RequestId Payload → Except Text Bytes
  toVec_ne_nil : ∀ message raw, toVec message = .ok raw → raw ≠ []

def hexDigit (n : Nat) : Char := Nat.digitChar n

def escapeChar (c : Char) : Text :=
  if c = '"' then ['\\', '"']
  else if c = '\\' then ['\\', '\\']
  else if c = Char.ofNat 8 then ['\\', 'b']
  else if c = Char.ofNat 9 then ['\\', 't']
  else if c = Char.ofNat 10 then ['\\', 'n']
  else if c = Char.ofNat 12 then ['\\', 'f']
  else if c = Char.ofNat 13 then ['\\', 'r']
  else if c.toNat < 32 then ['\\', 'u', '0', '0', hexDigit (c.toNat / 16), hexDigit (c.toNat % 16)]
  else [c]

def quote (text : Text) : Text := ['"'] ++ text.flatMap escapeChar ++ ['"']

variable {RequestId Payload : Type}

def serializeEvent (serializer : Serializer RequestId Payload) :
    ServerEvent RequestId Payload → Except Text Bytes
  | .serverMessage message => do
    let raw ← serializer.toVec message
    return Text.bytes "\"type\":\"server_message\",\"message\":".toList ++ raw
  | .serverMessageChunk segmentId segmentCount messageSizeBytes messageChunkBase64 =>
    return Text.bytes ("\"type\":\"server_message_chunk\",\"segment_id\":".toList ++
      decimal segmentId ++ ",\"segment_count\":".toList ++ decimal segmentCount ++
      ",\"message_size_bytes\":".toList ++ decimal messageSizeBytes ++
      ",\"message_chunk_base64\":".toList ++ quote messageChunkBase64)
  | .ack => return Text.bytes "\"type\":\"ack\"".toList
  | .pong .active => return Text.bytes "\"type\":\"pong\",\"status\":\"active\"".toList
  | .pong .unknown => return Text.bytes "\"type\":\"pong\",\"status\":\"unknown\"".toList

def serializeIds (envelope : ServerEnvelope RequestId Payload) : Bytes :=
  Text.bytes (",\"client_id\":".toList ++ quote envelope.clientId ++
    ",\"stream_id\":".toList ++ quote envelope.streamId ++
    ",\"seq_id\":".toList ++ decimal envelope.seqId)

def serialize (serializer : Serializer RequestId Payload)
    (envelope : ServerEnvelope RequestId Payload) : Except Text Bytes := do
  let event ← serializeEvent serializer envelope.event
  return Text.bytes ['\x7b'] ++ event ++ serializeIds envelope ++ Text.bytes ['\x7d']

def serializedLen (serializer : Serializer RequestId Payload)
    (envelope : ServerEnvelope RequestId Payload) : Except Text Nat := do
  let json ← serialize serializer envelope
  return json.length

def buildChunkEnvelope (envelope : ServerEnvelope RequestId Payload)
    (segmentId segmentCount messageSizeBytes : Nat) (chunk : Bytes) :
    Except Text (ServerEnvelope RequestId Payload) :=
  if segmentCount > remoteControlSegmentCountMax then
    .error "remote-control segment count exceeds maximum".toList
  else
    .ok { envelope with
      event := .serverMessageChunk segmentId segmentCount messageSizeBytes (Base64.encode chunk) }

def serializedChunkLen (serializer : Serializer RequestId Payload)
    (envelope : ServerEnvelope RequestId Payload) (segmentId segmentCount messageSizeBytes : Nat)
    (chunk : Bytes) : Except Text Nat := do
  serializedLen serializer
    (← buildChunkEnvelope envelope segmentId segmentCount messageSizeBytes chunk)

def segmentsFit (serializer : Serializer RequestId Payload)
    (envelope : ServerEnvelope RequestId Payload) (raw : Bytes) (chunkSize segmentCount : Nat) :
    Bool :=
  (Chunked.chunks chunkSize raw).zipIdx.all fun (chunk, segmentId) =>
    match serializedChunkLen serializer envelope segmentId segmentCount raw.length chunk with
    | .ok size => size ≤ remoteControlSegmentMaxBytes
    | .error _ => false

def chunkSizeOf (messageSizeBytes segmentCount : Nat) : Nat :=
  max 1 (messageSizeBytes ⌈/⌉ segmentCount)

theorem chunkSizeOf_pos (messageSizeBytes segmentCount : Nat) :
    0 < chunkSizeOf messageSizeBytes segmentCount :=
  Nat.lt_of_lt_of_le Nat.one_pos (Nat.le_max_left _ _)

theorem chunkSizeOf_succ_le {messageSizeBytes size : Nat} (hsize : 0 < size) :
    chunkSizeOf messageSizeBytes (messageSizeBytes ⌈/⌉ size + 1) ≤ size := by
  refine Nat.max_le.mpr ⟨hsize, (ceilDiv_le_iff_le_mul (Nat.succ_pos _)).mpr ?_⟩
  have hle : messageSizeBytes ≤ size * (messageSizeBytes ⌈/⌉ size) := le_smul_ceilDiv hsize
  rw [Nat.succ_mul, Nat.mul_comm]
  omega

theorem chunkSizeOf_self (messageSizeBytes : Nat) :
    chunkSizeOf messageSizeBytes messageSizeBytes = 1 := by
  rcases Nat.eq_zero_or_pos messageSizeBytes with rfl | hpos
  · rfl
  · refine Nat.max_eq_left ((ceilDiv_le_iff_le_mul hpos).mpr ?_)
    rw [Nat.mul_one]

/-- The number of segments that is tried after chunks of a size have not fit. One more segment may
leave the size as it is. Then only chunks of one byte are tried. -/
def nextSegmentCount (messageSizeBytes chunkSize : Nat) : Nat :=
  let nextSegmentCount := messageSizeBytes ⌈/⌉ chunkSize + 1
  if chunkSizeOf messageSizeBytes nextSegmentCount = chunkSize then messageSizeBytes
  else nextSegmentCount

theorem chunkSizeOf_nextSegmentCount_lt {messageSizeBytes size : Nat} (hpos : 0 < size)
    (hne : size ≠ 1) : chunkSizeOf messageSizeBytes (nextSegmentCount messageSizeBytes size) <
      size := by
  have hle : chunkSizeOf messageSizeBytes (messageSizeBytes ⌈/⌉ size + 1) ≤ size :=
    chunkSizeOf_succ_le hpos
  rw [nextSegmentCount]
  split
  · rw [chunkSizeOf_self]
    omega
  · omega

def findChunkSize (messageSizeBytes : Nat) (fit : Nat → Nat → Bool) (segmentCount : Nat) :
    Option (Nat × Nat) :=
  let chunkSize := chunkSizeOf messageSizeBytes segmentCount
  if fit chunkSize (messageSizeBytes ⌈/⌉ chunkSize) then
    some (chunkSize, messageSizeBytes ⌈/⌉ chunkSize)
  else if chunkSize = 1 then none
  else findChunkSize messageSizeBytes fit (nextSegmentCount messageSizeBytes chunkSize)
termination_by chunkSizeOf messageSizeBytes segmentCount
decreasing_by
  exact chunkSizeOf_nextSegmentCount_lt (chunkSizeOf_pos _ _) (by assumption)

def responseSerializationError (requestId : RequestId) (err : Text) :
    OutgoingMessage RequestId Payload :=
  .error ⟨internalErrorCode, "failed to serialize response: ".toList ++ err⟩ requestId

def splitServerEnvelopeForTransport (serializer : Serializer RequestId Payload)
    (envelope : ServerEnvelope RequestId Payload) :
    Except Text (List (ServerEnvelope RequestId Payload)) :=
  match envelope.event with
  | .serverMessage message =>
    match serializedLen serializer envelope with
    | .error err =>
      match message with
      | .response id _ =>
        .ok [{ envelope with event := .serverMessage (responseSerializationError id err) }]
      | _ => .error err
    | .ok envelopeSizeBytes =>
      if envelopeSizeBytes ≤ remoteControlSegmentMaxBytes then .ok [envelope]
      else do
        let raw ← serializer.toVec message
        let messageSizeBytes := raw.length
        if messageSizeBytes > remoteControlReassembledMaxBytes then return []
        let minimalSegmentCount := min (max messageSizeBytes 1) remoteControlSegmentCountMax
        let minimalChunk := raw.take (min raw.length 1)
        let minimalLen ←
          serializedChunkLen serializer envelope 0 minimalSegmentCount messageSizeBytes minimalChunk
        if minimalLen > remoteControlSegmentMaxBytes then return []
        match findChunkSize messageSizeBytes (segmentsFit serializer envelope raw)
            (max 2 (messageSizeBytes ⌈/⌉ remoteControlSegmentTargetBytes)) with
        | none => return []
        | some (chunkSize, segmentCount) =>
          (Chunked.chunks chunkSize raw).zipIdx.mapM fun (chunk, segmentId) =>
            buildChunkEnvelope envelope segmentId segmentCount messageSizeBytes chunk
  | _ => .ok [envelope]

section Search
variable {size count k : Nat} {fit : Nat → Nat → Bool}

/-- The search comes from `start` to `k`: up to there, one more segment makes the chunks
smaller. -/
def Reached (size start k : Nat) : Prop :=
  start ≤ k ∧ ∀ j, start ≤ j → j < k → size ⌈/⌉ (j + 1) < size ⌈/⌉ j

theorem Reached.refl (size k : Nat) : Reached size k k :=
  ⟨Nat.le_refl k, fun _ hle hlt => absurd hle (Nat.not_le.mpr hlt)⟩

theorem reached_iff {size start k : Nat} :
    Reached size start k ↔
      start = k ∨ size ⌈/⌉ (start + 1) < size ⌈/⌉ start ∧ Reached size (start + 1) k := by
  constructor
  · rintro ⟨hle, hfalls⟩
    rcases Nat.eq_or_lt_of_le hle with heq | hlt
    · exact .inl heq
    · exact .inr ⟨hfalls start (Nat.le_refl _) hlt, hlt, fun j hj hjk => hfalls j (by omega) hjk⟩
  · rintro (rfl | ⟨hfirst, hle, hfalls⟩)
    · exact .refl _ _
    · refine ⟨by omega, fun j hj hjk => ?_⟩
      rcases Nat.eq_or_lt_of_le hj with rfl | hlt
      · exact hfirst
      · exact hfalls j hlt hjk

theorem ceilDiv_pos (hsize : 0 < size) (hcount : 0 < count) : 0 < size ⌈/⌉ count := by
  by_contra hzero
  have hle : size ⌈/⌉ count ≤ 0 := Nat.not_lt.mp hzero
  rw [ceilDiv_le_iff_le_mul hcount] at hle
  omega

theorem chunkSizeOf_eq (hsize : 0 < size) (hcount : 0 < count) :
    chunkSizeOf size count = size ⌈/⌉ count :=
  Nat.max_eq_right (ceilDiv_pos hsize hcount)

theorem ceilDiv_ceilDiv_le (hsize : 0 < size) (hk : 0 < k) : size ⌈/⌉ (size ⌈/⌉ k) ≤ k := by
  rw [ceilDiv_le_iff_le_mul (ceilDiv_pos hsize hk), Nat.mul_comm]
  exact le_smul_ceilDiv hk

theorem ceilDiv_ceilDiv_succ (hsize : 0 < size) (hk : 0 < k)
    (hlt : size ⌈/⌉ (k + 1) < size ⌈/⌉ k) : size ⌈/⌉ (size ⌈/⌉ (k + 1)) = k + 1 := by
  refine Nat.le_antisymm (ceilDiv_ceilDiv_le hsize (Nat.succ_pos k)) ?_
  by_contra hfewer
  have hle : size ⌈/⌉ (size ⌈/⌉ (k + 1)) ≤ k := by omega
  have hmul : size ≤ size ⌈/⌉ (k + 1) * k :=
    (ceilDiv_le_iff_le_mul (ceilDiv_pos hsize (Nat.succ_pos k))).mp hle
  rw [Nat.mul_comm] at hmul
  have hge : size ⌈/⌉ k ≤ size ⌈/⌉ (k + 1) := (ceilDiv_le_iff_le_mul hk).mpr hmul
  omega

theorem ceilDiv_self (hsize : 0 < size) : size ⌈/⌉ size = 1 := by
  rw [← chunkSizeOf_eq hsize hsize, chunkSizeOf_self]

theorem ceilDiv_succ_le (hk : 0 < k) : size ⌈/⌉ (k + 1) ≤ size ⌈/⌉ k := by
  rw [ceilDiv_le_iff_le_mul (Nat.succ_pos k)]
  have hle : size ≤ k * (size ⌈/⌉ k) := le_smul_ceilDiv hk
  rw [Nat.succ_mul]
  omega

theorem Reached.eq_of_ceilDiv_eq_one {start : Nat} (hsize : 0 < size)
    (h : Reached size start k) (hone : size ⌈/⌉ start = 1) : start = k := by
  rcases reached_iff.mp h with heq | ⟨hlt, -⟩
  · exact heq
  · have hpos : 0 < size ⌈/⌉ (start + 1) := ceilDiv_pos hsize (Nat.succ_pos start)
    omega

theorem findChunkSize_eq_none_iff (hsize : 0 < size) (hcount : 0 < count)
    (hexact : size ⌈/⌉ (size ⌈/⌉ count) = count ∨ size ⌈/⌉ count = 1) :
    findChunkSize size fit count = none ↔
      fit 1 size = false ∧
        ∀ k, Reached size count k → fit (size ⌈/⌉ k) (size ⌈/⌉ (size ⌈/⌉ k)) = false := by
  have hall : size ⌈/⌉ 1 = size := ceilDiv_one size
  fun_induction findChunkSize size fit count with
  | case1 count chunkSize hfit =>
    rw [show chunkSize = size ⌈/⌉ count from chunkSizeOf_eq hsize hcount] at hfit
    refine iff_of_false (Option.some_ne_none _) fun h => ?_
    rw [h.2 count (.refl _ _)] at hfit
    cases hfit
  | case2 count chunkSize hfit hone =>
    have heq : size ⌈/⌉ count = 1 := (chunkSizeOf_eq hsize hcount).symm.trans hone
    rw [hone, hall, Bool.not_eq_true] at hfit
    refine iff_of_true rfl ⟨hfit, fun k hk => ?_⟩
    rw [← hk.eq_of_ceilDiv_eq_one hsize heq, heq, hall]
    exact hfit
  | case3 count chunkSize hfit hone ih =>
    have hchunk : chunkSize = size ⌈/⌉ count := chunkSizeOf_eq hsize hcount
    rw [hchunk] at hfit hone ih
    have hcurrent := hexact.resolve_right hone
    rw [Bool.not_eq_true] at hfit
    rw [nextSegmentCount, hcurrent, chunkSizeOf_eq hsize (Nat.succ_pos count)] at ih
    rw [hchunk, nextSegmentCount, hcurrent, chunkSizeOf_eq hsize (Nat.succ_pos count)]
    have hle : size ⌈/⌉ (count + 1) ≤ size ⌈/⌉ count := ceilDiv_succ_le hcount
    by_cases hstall : size ⌈/⌉ (count + 1) = size ⌈/⌉ count
    · -- one byte each is all that is left to try
      have hself : size ⌈/⌉ size = 1 := ceilDiv_self hsize
      rw [if_pos hstall] at ih ⊢
      refine (ih hsize (.inr hself)).trans ?_
      refine and_congr_right fun hbyte => iff_of_true (fun k hk => ?_) fun k hk => ?_
      · rw [← hk.eq_of_ceilDiv_eq_one hsize hself, hself, hall]
        exact hbyte
      · rcases reached_iff.mp hk with rfl | ⟨hlt, -⟩
        · exact hfit
        · omega
    · have hlt : size ⌈/⌉ (count + 1) < size ⌈/⌉ count := by omega
      rw [if_neg hstall] at ih ⊢
      refine (ih (Nat.succ_pos count) (.inl (ceilDiv_ceilDiv_succ hsize hcount hlt))).trans ?_
      refine and_congr_right fun _ => ⟨fun h k hk => ?_, fun h k hk => ?_⟩
      · rcases reached_iff.mp hk with rfl | ⟨-, hk⟩
        · exact hfit
        · exact h k hk
      · exact h k (reached_iff.mpr (.inr ⟨hlt, hk⟩))

theorem fit_of_findChunkSize {chunkSize segmentCount : Nat}
    (h : findChunkSize size fit count = some (chunkSize, segmentCount)) :
    0 < chunkSize ∧ segmentCount = size ⌈/⌉ chunkSize ∧ fit chunkSize segmentCount := by
  fun_induction findChunkSize size fit count with
  | case1 count found hfit =>
    obtain ⟨hsize, hcount⟩ := Prod.mk.inj (Option.some.inj h)
    subst hcount
    rw [← hsize]
    exact ⟨chunkSizeOf_pos _ _, rfl, hfit⟩
  | case2 count found hfit hone => cases h
  | case3 count found hfit hone ih => exact ih h

end Search

def digits (n : Nat) : Nat := (Text.bytes (decimal n)).length

theorem length_escapeChar {bytes : Bytes} {c : Char} (h : c ∈ Base64.encode bytes) :
    (Text.bytes (escapeChar c)).length = 1 := by
  have hsymbols : ∀ i < 64, (Text.bytes (escapeChar (Base64.symbol i))).length = 1 := by decide
  rcases Base64.mem_encode h with rfl | ⟨i, hi, rfl⟩
  · decide
  · exact hsymbols i hi

theorem length_flatMap_escapeChar {text : Text}
    (h : ∀ c ∈ text, (bytes (escapeChar c)).length = 1) :
    (bytes (text.flatMap escapeChar)).length = text.length := by
  induction text with
  | nil => rfl
  | cons c text ih =>
    have hfirst := h c mem_cons_self
    have hrest := ih fun c hc => h c (mem_cons_of_mem _ hc)
    rw [flatMap_cons, bytes_append, length_append, hfirst, hrest, length_cons, Nat.add_comm]

theorem length_quote_encode (chunk : Bytes) :
    (Text.bytes (quote (Base64.encode chunk))).length = (chunk.length + 2) / 3 * 4 + 2 := by
  have hquote : (Text.bytes ['"']).length = 1 := by decide
  rw [quote, Text.bytes_append, Text.bytes_append, List.length_append, List.length_append, hquote,
    length_flatMap_escapeChar fun c hc => length_escapeChar hc, Base64.length_encode]
  omega

variable {serializer : Serializer RequestId Payload} {envelope : ServerEnvelope RequestId Payload}

theorem serializedLen_message {message : OutgoingMessage RequestId Payload} {raw : Bytes}
    (hevent : envelope.event = .serverMessage message) (hraw : serializer.toVec message = .ok raw) :
    serializedLen serializer envelope = .ok (36 + raw.length + (serializeIds envelope).length) := by
  have htag : (Text.bytes "\"type\":\"server_message\",\"message\":".toList).length = 34 := by
    decide
  have hopen : (bytes ['\x7b']).length = 1 := by decide
  have hclose : (bytes ['\x7d']).length = 1 := by decide
  rw [serializedLen, serialize, hevent, serializeEvent, hraw]
  change Except.ok _ = _
  simp only [length_append, htag, hopen, hclose]
  congr 1
  omega

def chunkEnvelope (envelope : ServerEnvelope RequestId Payload)
    (segmentId segmentCount messageSizeBytes : Nat) (chunk : Bytes) :
    ServerEnvelope RequestId Payload :=
  { envelope with
    event := .serverMessageChunk segmentId segmentCount messageSizeBytes (Base64.encode chunk) }

def chunkLen (envelope : ServerEnvelope RequestId Payload)
    (segmentId segmentCount messageSizeBytes length : Nat) : Nat :=
  110 + digits segmentId + digits segmentCount + digits messageSizeBytes + (length + 2) / 3 * 4 +
    (serializeIds envelope).length

theorem serializedLen_chunkEnvelope (serializer : Serializer RequestId Payload)
    (envelope : ServerEnvelope RequestId Payload) (segmentId segmentCount messageSizeBytes : Nat)
    (chunk : Bytes) :
    serializedLen serializer
        (chunkEnvelope envelope segmentId segmentCount messageSizeBytes chunk) =
      .ok (chunkLen envelope segmentId segmentCount messageSizeBytes chunk.length) := by
  have htag : (bytes
      "\"type\":\"server_message_chunk\",\"segment_id\":".toList).length = 43 := by
    decide
  have hcount : (bytes ",\"segment_count\":".toList).length = 17 := by decide
  have hsize : (bytes ",\"message_size_bytes\":".toList).length = 22 := by decide
  have hchunk : (bytes ",\"message_chunk_base64\":".toList).length = 24 := by decide
  have hopen : (bytes ['\x7b']).length = 1 := by decide
  have hclose : (bytes ['\x7d']).length = 1 := by decide
  have hids : serializeIds (chunkEnvelope envelope segmentId segmentCount messageSizeBytes chunk) =
      serializeIds envelope := rfl
  rw [serializedLen, serialize, hids, chunkEnvelope, serializeEvent]
  change Except.ok _ = _
  simp only [length_append, bytes_append, htag, hcount, hsize, hchunk, hopen, hclose,
    length_quote_encode, chunkLen, digits]
  congr 1
  omega

theorem buildChunkEnvelope_of_le {segmentCount : Nat}
    (h : segmentCount ≤ remoteControlSegmentCountMax) (segmentId messageSizeBytes : Nat)
    (chunk : Bytes) :
    buildChunkEnvelope envelope segmentId segmentCount messageSizeBytes chunk =
      .ok (chunkEnvelope envelope segmentId segmentCount messageSizeBytes chunk) :=
  if_neg (Nat.not_lt.mpr h)

theorem serializedChunkLen_of_le {segmentCount : Nat}
    (h : segmentCount ≤ remoteControlSegmentCountMax) (segmentId messageSizeBytes : Nat)
    (chunk : Bytes) :
    serializedChunkLen serializer envelope segmentId segmentCount messageSizeBytes chunk =
      .ok (chunkLen envelope segmentId segmentCount messageSizeBytes chunk.length) := by
  rw [serializedChunkLen, buildChunkEnvelope_of_le h]
  exact serializedLen_chunkEnvelope serializer envelope segmentId segmentCount messageSizeBytes
    chunk

theorem segmentsFit_iff {raw : Bytes} {chunkSize : Nat} (hraw : raw ≠ []) (hchunk : 0 < chunkSize) :
    segmentsFit serializer envelope raw chunkSize (raw.length ⌈/⌉ chunkSize) ↔
      raw.length ⌈/⌉ chunkSize ≤ remoteControlSegmentCountMax ∧
        ∀ i < raw.length ⌈/⌉ chunkSize,
          chunkLen envelope i (raw.length ⌈/⌉ chunkSize) raw.length
            (min chunkSize (raw.length - i * chunkSize)) ≤ remoteControlSegmentMaxBytes := by
  have hsize : 0 < raw.length := length_pos_iff.mpr hraw
  have hsome : 0 < raw.length ⌈/⌉ chunkSize := ceilDiv_pos hsize hchunk
  rw [segmentsFit, Chunked.zipIdx_chunks, all_map, all_eq_true]
  simp only [mem_range, Function.comp_apply]
  by_cases hcount : raw.length ⌈/⌉ chunkSize ≤ remoteControlSegmentCountMax
  · simp only [serializedChunkLen_of_le hcount, Chunked.length_chunk, decide_eq_true_eq, hcount,
      true_and]
  · refine iff_of_false (fun h => ?_) fun h => hcount h.1
    have hfirst := h 0 hsome
    rw [serializedChunkLen, buildChunkEnvelope, if_pos (Nat.not_le.mp hcount)] at hfirst
    cases hfirst

end Codex.RemoteControl.Segment

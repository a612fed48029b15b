import Codex.Lib.Fallible
import Codex.RemoteControl.ServerSegments

/-! A split is always right. The search for it can pass over counts of segments that would fit, and
exactly then a message is dropped that could have been sent. -/

namespace Codex.RemoteControl.Segment
open Codex.Lib List

variable {RequestId Payload : Type} {serializer : Serializer RequestId Payload}
  {envelope : ServerEnvelope RequestId Payload} {message : OutgoingMessage RequestId Payload}
  {raw : Bytes}

def fitsIn (serializer : Serializer RequestId Payload) (envelope : ServerEnvelope RequestId Payload)
    (raw : Bytes) (k : Nat) : Bool :=
  segmentsFit serializer envelope raw (raw.length ⌈/⌉ k) (raw.length ⌈/⌉ (raw.length ⌈/⌉ k))

def decodedChunk? (envelope : ServerEnvelope RequestId Payload) : Option Bytes :=
  match envelope.event with
  | .serverMessageChunk _ _ _ messageChunkBase64 => Base64.decode messageChunkBase64
  | _ => none

/-- The envelopes are the `k` chunks of the message, each within the limit. -/
structure IsSplitOf (serializer : Serializer RequestId Payload)
    (envelope : ServerEnvelope RequestId Payload) (raw : Bytes) (k : Nat)
    (envelopes : List (ServerEnvelope RequestId Payload)) : Prop where
  length : envelopes.length = k
  count_le : k ≤ remoteControlSegmentCountMax
  chunk : ∀ i < k, ∃ text, envelopes[i]? =
    some { envelope with event := .serverMessageChunk i k raw.length text }
  fits : ∀ chunk ∈ envelopes, ∃ size, serializedLen serializer chunk = .ok size ∧
    size ≤ remoteControlSegmentMaxBytes
  decodes : ∃ parts : List Bytes,
    envelopes.map decodedChunk? = parts.map some ∧ parts.flatten = raw

def SplitsCorrectly (serializer : Serializer RequestId Payload)
    (envelope : ServerEnvelope RequestId Payload) (raw : Bytes) : Prop :=
  ∃ envelopes, splitServerEnvelopeForTransport serializer envelope = .ok envelopes ∧
    ((envelopes = [envelope] ∧ ∃ size, serializedLen serializer envelope = .ok size ∧
        size ≤ remoteControlSegmentMaxBytes) ∨
      (∃ k, 0 < k ∧ IsSplitOf serializer envelope raw k envelopes) ∨
      (envelopes = [] ∧ (remoteControlReassembledMaxBytes < raw.length ∨
        ∀ k, 0 < k → k ≤ remoteControlSegmentCountMax →
          fitsIn serializer envelope raw k = false)))

def firstSegmentCount (messageSizeBytes : Nat) : Nat :=
  max 2 (messageSizeBytes ⌈/⌉ remoteControlSegmentTargetBytes)

theorem digits_bounds : ∀ n < 1025, (10 ≤ n → 2 ≤ digits n) ∧ (100 ≤ n → 3 ≤ digits n) ∧
    1 ≤ digits n ∧ digits n ≤ 4 ∧ (n < 100 → digits n ≤ 2) ∧ (n < 1000 → digits n ≤ 3) := by
  decide +kernel

theorem minimalLen_le {chunkSize : Nat} (hraw : raw ≠ []) (hchunk : 0 < chunkSize)
    (hlarge : remoteControlSegmentMaxBytes < 36 + raw.length + (serializeIds envelope).length)
    (hfit : segmentsFit serializer envelope raw chunkSize (raw.length ⌈/⌉ chunkSize)) :
    chunkLen envelope 0 (min (max raw.length 1) remoteControlSegmentCountMax) raw.length 1 ≤
      remoteControlSegmentMaxBytes := by
  obtain ⟨hcount, hchunks⟩ := (segmentsFit_iff hraw hchunk).mp hfit
  have hsize : 0 < raw.length := length_pos_iff.mpr hraw
  have hsome : 0 < raw.length ⌈/⌉ chunkSize := ceilDiv_pos hsize hchunk
  have hcover : raw.length ≤ chunkSize * (raw.length ⌈/⌉ chunkSize) := le_smul_ceilDiv hchunk
  have hzero : digits 0 = 1 := by decide
  have hmax : remoteControlSegmentCountMax = 1024 := rfl
  rw [hmax] at hcount ⊢
  have hminimal := digits_bounds (min (max raw.length 1) 1024) (by omega)
  have hn := digits_bounds (raw.length ⌈/⌉ chunkSize) (by omega)
  have hlast := digits_bounds (raw.length ⌈/⌉ chunkSize - 1) (by omega)
  have hfirst := hchunks 0 hsome
  have hfinal := hchunks (raw.length ⌈/⌉ chunkSize - 1) (by omega)
  have hrest : (raw.length ⌈/⌉ chunkSize - 1) * chunkSize < raw.length :=
    Chunked.mul_lt_of_lt_ceilDiv hchunk (by omega)
  rw [chunkLen] at hfirst hfinal ⊢
  rw [Nat.zero_mul, Nat.sub_zero] at hfirst
  -- the frame of a chunk is larger than that of a message by more than 27 bytes
  have hlong : 27 < raw.length := by omega
  rcases Nat.lt_or_ge 3 chunkSize with hwide | hnarrow
  · omega
  · obtain rfl | htwo : chunkSize = 1 ∨ 2 ≤ chunkSize := by omega
    · have hone : raw.length ⌈/⌉ 1 = raw.length := ceilDiv_one _
      rw [hone] at hcount hfirst
      rw [show min (max raw.length 1) 1024 = raw.length by omega]
      omega
    · -- there are at least ten segments, so the last one has more digits than the first
      have hthree : chunkSize * (raw.length ⌈/⌉ chunkSize) ≤ 3 * (raw.length ⌈/⌉ chunkSize) :=
        Nat.mul_le_mul_right _ hnarrow
      omega

section
variable {size k : Nat}

theorem firstSegmentCount_pos (size : Nat) : 0 < firstSegmentCount size :=
  Nat.lt_of_lt_of_le Nat.two_pos (Nat.le_max_left _ _)

theorem firstSegmentCount_exact (hsize : 0 < size) :
    size ⌈/⌉ (size ⌈/⌉ firstSegmentCount size) = firstSegmentCount size ∨
      size ⌈/⌉ firstSegmentCount size = 1 := by
  have htarget : 0 < remoteControlSegmentTargetBytes := by decide
  have hpos : 0 < size ⌈/⌉ firstSegmentCount size := ceilDiv_pos hsize (firstSegmentCount_pos size)
  have hle := ceilDiv_ceilDiv_le hsize (firstSegmentCount_pos size)
  by_contra hboth
  push Not at hboth
  obtain ⟨hexact, hone⟩ := hboth
  have hfewer : size ⌈/⌉ (size ⌈/⌉ firstSegmentCount size) < firstSegmentCount size := by omega
  have hcover : size ≤ size ⌈/⌉ firstSegmentCount size *
      (size ⌈/⌉ (size ⌈/⌉ firstSegmentCount size)) := le_smul_ceilDiv hpos
  rcases Nat.le_total (size ⌈/⌉ remoteControlSegmentTargetBytes) 2 with htwo | hmore
  · -- two segments: a single one would hold half of the message
    have hfirst : firstSegmentCount size = 2 := Nat.max_eq_left htwo
    rw [hfirst] at hfewer hcover hone hpos
    have hhalf : size ⌈/⌉ 2 * (size ⌈/⌉ (size ⌈/⌉ 2)) ≤ size ⌈/⌉ 2 * 1 :=
      Nat.mul_le_mul_left _ (by omega)
    have hdiv : size ⌈/⌉ 2 = (size + 2 - 1) / 2 := Nat.ceilDiv_eq_add_pred_div size 2
    omega
  · -- chunks within the target: fewer of them would not hold the message
    have hfirst : firstSegmentCount size = size ⌈/⌉ remoteControlSegmentTargetBytes :=
      Nat.max_eq_right hmore
    have hreach : size ≤ remoteControlSegmentTargetBytes *
        (size ⌈/⌉ remoteControlSegmentTargetBytes) := le_smul_ceilDiv htarget
    have hwithin : size ⌈/⌉ firstSegmentCount size ≤ remoteControlSegmentTargetBytes := by
      rw [ceilDiv_le_iff_le_mul (firstSegmentCount_pos size), hfirst, Nat.mul_comm]
      exact hreach
    have henough : size ≤ remoteControlSegmentTargetBytes *
        (size ⌈/⌉ (size ⌈/⌉ firstSegmentCount size)) :=
      hcover.trans (Nat.mul_le_mul_right _ hwithin)
    rw [← ceilDiv_le_iff_le_mul htarget] at henough
    omega

theorem Reached.exact (hsize : 0 < size) (h : Reached size (firstSegmentCount size) k) :
    size ⌈/⌉ (size ⌈/⌉ k) = k ∨ size ⌈/⌉ k = 1 := by
  obtain ⟨hle, hfalls⟩ := h
  rcases Nat.eq_or_lt_of_le hle with rfl | hlt
  · exact firstSegmentCount_exact hsize
  · have hpos := firstSegmentCount_pos size
    obtain ⟨j, rfl⟩ : ∃ j, k = j + 1 := ⟨k - 1, by omega⟩
    exact .inl (ceilDiv_ceilDiv_succ hsize (by omega) (hfalls j (by omega) (by omega)))

end

def chunkEnvelopes (envelope : ServerEnvelope RequestId Payload) (raw : Bytes)
    (chunkSize segmentCount : Nat) : List (ServerEnvelope RequestId Payload) :=
  (List.range segmentCount).map fun i =>
    chunkEnvelope envelope i segmentCount raw.length ((raw.drop (i * chunkSize)).take chunkSize)

theorem mapM_buildChunkEnvelope {chunkSize : Nat}
    (hcount : raw.length ⌈/⌉ chunkSize ≤ remoteControlSegmentCountMax) :
    ((Chunked.chunks chunkSize raw).zipIdx.mapM fun (chunk, segmentId) =>
        buildChunkEnvelope envelope segmentId (raw.length ⌈/⌉ chunkSize) raw.length chunk) =
      .ok (chunkEnvelopes envelope raw chunkSize (raw.length ⌈/⌉ chunkSize)) := by
  simp only [buildChunkEnvelope_of_le hcount]
  rw [Chunked.zipIdx_chunks, chunkEnvelopes]
  exact (mapM_pure).trans (by simp [Function.comp_def]; rfl)

/-- What a message is split into that is serialized to `raw`. -/
theorem split_of_message (hevent : envelope.event = .serverMessage message)
    (hraw : serializer.toVec message = .ok raw) :
    splitServerEnvelopeForTransport serializer envelope = .ok
      (if 36 + raw.length + (serializeIds envelope).length ≤ remoteControlSegmentMaxBytes then
        [envelope]
      else if remoteControlReassembledMaxBytes < raw.length then []
      else match findChunkSize raw.length (segmentsFit serializer envelope raw)
          (firstSegmentCount raw.length) with
        | none => []
        | some (chunkSize, segmentCount) =>
          chunkEnvelopes envelope raw chunkSize segmentCount) := by
  have hne : raw ≠ [] := serializer.toVec_ne_nil message raw hraw
  have hsize : 0 < raw.length := length_pos_iff.mpr hne
  rw [splitServerEnvelopeForTransport, hevent, serializedLen_message hevent hraw]
  by_cases hsmall : 36 + raw.length + (serializeIds envelope).length ≤ remoteControlSegmentMaxBytes
  · rw [if_pos hsmall]
    exact if_pos hsmall
  rw [if_neg hsmall]
  refine (if_neg hsmall).trans ?_
  rw [hraw, ok_bind]
  by_cases hlimit : remoteControlReassembledMaxBytes < raw.length
  · rw [if_pos hlimit, if_pos hlimit]
    rfl
  rw [if_neg hlimit, if_neg hlimit]
  extract_lets minimalSegmentCount minimalChunk
  have hminimal : minimalChunk.length = 1 := by
    rw [length_take]
    omega
  have hlen : serializedChunkLen serializer envelope 0 minimalSegmentCount raw.length minimalChunk =
      .ok (chunkLen envelope 0 minimalSegmentCount raw.length 1) := by
    rw [serializedChunkLen_of_le (Nat.min_le_right _ _), hminimal]
  rw [hlen, ok_bind, ← firstSegmentCount]
  cases hfind : findChunkSize raw.length (segmentsFit serializer envelope raw)
      (firstSegmentCount raw.length) with
  | none =>
    dsimp only
    split <;> rfl
  | some found =>
    obtain ⟨chunkSize, segmentCount⟩ := found
    obtain ⟨hchunk, rfl, hfit⟩ := fit_of_findChunkSize hfind
    have hcount := ((segmentsFit_iff hne hchunk).mp hfit).1
    rw [if_neg (Nat.not_lt.mpr (minimalLen_le hne hchunk (Nat.not_le.mp hsmall) hfit))]
    exact mapM_buildChunkEnvelope hcount

theorem isSplitOf_chunkEnvelopes {chunkSize : Nat} (hraw : raw ≠ []) (hchunk : 0 < chunkSize)
    (hfit : segmentsFit serializer envelope raw chunkSize (raw.length ⌈/⌉ chunkSize)) :
    IsSplitOf serializer envelope raw (raw.length ⌈/⌉ chunkSize)
      (chunkEnvelopes envelope raw chunkSize (raw.length ⌈/⌉ chunkSize)) := by
  obtain ⟨hcount, hchunks⟩ := (segmentsFit_iff hraw hchunk).mp hfit
  refine ⟨by rw [chunkEnvelopes, length_map, length_range], hcount, ?_, ?_, ?_⟩
  · intro i hi
    refine ⟨Base64.encode ((raw.drop (i * chunkSize)).take chunkSize), ?_⟩
    rw [chunkEnvelopes, getElem?_map, getElem?_range hi]
    rfl
  · intro chunk hmem
    obtain ⟨i, hi, rfl⟩ := mem_map.mp hmem
    refine ⟨_, serializedLen_chunkEnvelope _ _ _ _ _ _, ?_⟩
    rw [Chunked.length_chunk]
    exact hchunks i (mem_range.mp hi)
  · refine ⟨Chunked.chunks chunkSize raw, ?_, Chunked.flatten_chunks hchunk raw⟩
    rw [chunkEnvelopes, Chunked.chunks, map_map, map_map]
    refine map_congr_left fun i _ => ?_
    exact Base64.decode_encode _

theorem fitsIn_length (hraw : raw ≠ []) :
    fitsIn serializer envelope raw raw.length =
      segmentsFit serializer envelope raw 1 raw.length := by
  have hself : raw.length ⌈/⌉ raw.length = 1 := ceilDiv_self (length_pos_iff.mpr hraw)
  have hone : raw.length ⌈/⌉ 1 = raw.length := ceilDiv_one _
  rw [fitsIn, hself, hone]

theorem findChunkSize_segmentsFit_eq_none_iff (hraw : raw ≠ []) :
    findChunkSize raw.length (segmentsFit serializer envelope raw)
        (firstSegmentCount raw.length) = none ↔
      ¬ ∃ k, 0 < k ∧ k ≤ remoteControlSegmentCountMax ∧
        fitsIn serializer envelope raw k = true ∧
        (k = raw.length ∨ Reached raw.length (firstSegmentCount raw.length) k) := by
  have hsize : 0 < raw.length := length_pos_iff.mpr hraw
  have hone : raw.length ⌈/⌉ 1 = raw.length := ceilDiv_one _
  rw [findChunkSize_eq_none_iff hsize (firstSegmentCount_pos _) (firstSegmentCount_exact hsize)]
  constructor
  · rintro ⟨hbyte, hreached⟩ ⟨k, -, -, hfit, rfl | hk⟩
    · rw [fitsIn_length hraw, hbyte] at hfit
      cases hfit
    · exact absurd ((hreached k hk).symm.trans hfit) Bool.false_ne_true
  · intro h
    have hbyte : segmentsFit serializer envelope raw 1 raw.length = false := by
      rw [← Bool.not_eq_true]
      intro hfit
      have hcount := ((segmentsFit_iff hraw Nat.one_pos).mp (by rwa [hone])).1
      rw [hone] at hcount
      rw [← fitsIn_length hraw] at hfit
      exact h ⟨raw.length, hsize, hcount, hfit, .inl rfl⟩
    refine ⟨hbyte, fun k hk => ?_⟩
    have hkpos : 0 < k := (firstSegmentCount_pos _).trans_le hk.1
    rcases hk.exact hsize with hexact | hall
    · rw [← Bool.not_eq_true]
      intro hfit
      have hcount := ((segmentsFit_iff hraw (ceilDiv_pos hsize hkpos)).mp hfit).1
      rw [hexact] at hcount
      exact h ⟨k, hkpos, hcount, hfit, .inr hk⟩
    · rw [hall, hone]
      exact hbyte

/-- A message is split as expected exactly where the search comes to a count that fits, if there is
one. -/
theorem splitsCorrectly_iff (hevent : envelope.event = .serverMessage message)
    (hraw : serializer.toVec message = .ok raw) :
    SplitsCorrectly serializer envelope raw ↔
      (∃ size, serializedLen serializer envelope = .ok size ∧
          size ≤ remoteControlSegmentMaxBytes) ∨
        remoteControlReassembledMaxBytes < raw.length ∨
        ((∃ k, 0 < k ∧ k ≤ remoteControlSegmentCountMax ∧
            fitsIn serializer envelope raw k = true) →
          ∃ k, 0 < k ∧ k ≤ remoteControlSegmentCountMax ∧
            fitsIn serializer envelope raw k = true ∧
            (k = raw.length ∨ Reached raw.length (firstSegmentCount raw.length) k)) := by
  have hne : raw ≠ [] := serializer.toVec_ne_nil message raw hraw
  have hlen := serializedLen_message hevent hraw
  have hsplit := split_of_message hevent hraw
  by_cases hsmall : 36 + raw.length + (serializeIds envelope).length ≤ remoteControlSegmentMaxBytes
  · rw [if_pos hsmall] at hsplit
    exact iff_of_true ⟨_, hsplit, .inl ⟨rfl, _, hlen, hsmall⟩⟩ (.inl ⟨_, hlen, hsmall⟩)
  have hnotSmall : ¬ ∃ size, serializedLen serializer envelope = .ok size ∧
      size ≤ remoteControlSegmentMaxBytes := by
    rintro ⟨size, hsize, hle⟩
    cases hlen.symm.trans hsize
    exact hsmall hle
  rw [or_iff_right hnotSmall]
  rw [if_neg hsmall] at hsplit
  by_cases hlimit : remoteControlReassembledMaxBytes < raw.length
  · rw [if_pos hlimit] at hsplit
    exact iff_of_true ⟨_, hsplit, .inr (.inr ⟨rfl, .inl hlimit⟩)⟩ (.inl hlimit)
  rw [or_iff_right hlimit]
  rw [if_neg hlimit] at hsplit
  cases hfind : findChunkSize raw.length (segmentsFit serializer envelope raw)
      (firstSegmentCount raw.length) with
  | none =>
    have hnone := (findChunkSize_segmentsFit_eq_none_iff hne).mp hfind
    rw [hfind] at hsplit
    constructor
    · rintro ⟨envelopes, hresult, hcorrect⟩ ⟨k, hpos, hle, hfit⟩
      obtain rfl : [] = envelopes := Except.ok.inj (hsplit.symm.trans hresult)
      rcases hcorrect with ⟨habsurd, -⟩ | ⟨n, hn, hsplitOf⟩ | ⟨-, hover | hall⟩
      · cases habsurd
      · have hzero : 0 = n := hsplitOf.length
        omega
      · exact absurd hover hlimit
      · rw [hall k hpos hle] at hfit
        cases hfit
    · intro h
      refine ⟨[], hsplit, .inr (.inr ⟨rfl, .inr fun k hpos hle => ?_⟩)⟩
      rw [← Bool.not_eq_true]
      intro hfit
      exact hnone (h ⟨k, hpos, hle, hfit⟩)
  | some found =>
    obtain ⟨chunkSize, segmentCount⟩ := found
    obtain ⟨hchunk, rfl, hfit⟩ := fit_of_findChunkSize hfind
    rw [hfind] at hsplit
    have hsomeCount : 0 < raw.length ⌈/⌉ chunkSize := ceilDiv_pos (length_pos_iff.mpr hne) hchunk
    refine iff_of_true ⟨_, hsplit, .inr (.inl ⟨_, hsomeCount,
      isSplitOf_chunkEnvelopes hne hchunk hfit⟩)⟩ fun _ => ?_
    by_contra hall
    rw [(findChunkSize_segmentsFit_eq_none_iff hne).mpr hall] at hfind
    cases hfind

def plainSerializer : Serializer Nat Bytes where
  toVec
    | .request (byte :: bytes) => .ok (byte :: bytes)
    | _ => .error []
  toVec_ne_nil := by
    intro message raw h
    split at h
    · cases h
      exact cons_ne_nil _ _
    · cases h

theorem toVec_plainSerializer {raw : Bytes} (h : raw ≠ []) :
    plainSerializer.toVec (.request raw) = .ok raw := by
  cases raw with
  | nil => exact absurd rfl h
  | cons byte bytes => rfl

def largeEnvelope (raw : Bytes) : ServerEnvelope Nat Bytes :=
  ⟨.serverMessage (.request raw), ['c'], ['s'], 7⟩

theorem length_serializeIds_largeEnvelope (raw : Bytes) :
    (serializeIds (largeEnvelope raw)).length = 43 := by
  have hids : serializeIds (largeEnvelope raw) = serializeIds (largeEnvelope []) := rfl
  rw [hids]
  decide

theorem fitsIn_largeEnvelope {raw : Bytes} (hlength : raw.length = 200000) :
    fitsIn plainSerializer (largeEnvelope raw) raw 2 = true := by
  have hchunk : raw.length ⌈/⌉ 2 = 100000 := by
    rw [hlength]
    decide
  have hcount : 200000 ⌈/⌉ 100000 = 2 := by decide
  have hsize : digits 200000 = 6 := by decide
  have hbytes : remoteControlSegmentMaxBytes = 153600 := rfl
  have htwo := (digits_bounds 2 (by decide)).2.2.2.1
  rw [fitsIn, hchunk, segmentsFit_iff (ne_nil_of_length_eq_add_one hlength) (by decide), hlength,
    hcount]
  refine ⟨by decide, fun i hi => ?_⟩
  have hone := (digits_bounds i (by omega)).2.2.2.1
  rw [chunkLen, length_serializeIds_largeEnvelope, hsize, hbytes]
  omega

theorem splitsCorrectly_iff_twoSegments :
    let raw : Bytes := List.replicate 200000 48
    serializedLen plainSerializer (largeEnvelope raw) = .ok 200079 ∧
      fitsIn plainSerializer (largeEnvelope raw) raw 2 = true ∧
      SplitsCorrectly plainSerializer (largeEnvelope raw) raw := by
  intro raw
  have hlength : raw.length = 200000 := length_replicate
  clear_value raw
  have hraw := toVec_plainSerializer (ne_nil_of_length_eq_add_one hlength)
  have hfit := fitsIn_largeEnvelope hlength
  refine ⟨?_, hfit, (splitsCorrectly_iff rfl hraw).mpr (.inr (.inr fun _ => ?_))⟩
  · rw [serializedLen_message rfl hraw, hlength, length_serializeIds_largeEnvelope]
  · refine ⟨2, by decide, by decide, hfit, .inr ⟨?_, fun j hle hlt => ?_⟩⟩
    · rw [hlength]
      decide
    · rw [hlength] at hle
      have hfirst : firstSegmentCount 200000 = 2 := by decide
      omega

/-! ### A message that is dropped

The ids leave room for chunks of 36 bytes. Two thousand bytes in fifty segments are chunks of forty
bytes, and so they are in fifty-one. -/

def longIdEnvelope : ServerEnvelope Nat Bytes :=
  ⟨.serverMessage (.request (List.replicate 2000 48)), List.replicate 153392 'a', ['s'], 7⟩

theorem length_serializeIds_longIdEnvelope : (serializeIds longIdEnvelope).length = 153434 := by
  have hplain : ∀ c ∈ List.replicate 153392 'a', (Text.bytes (escapeChar c)).length = 1 := by
    intro c hc
    rw [eq_of_mem_replicate hc]
    decide
  have hid := length_flatMap_escapeChar hplain
  rw [length_replicate] at hid
  have hquote : (Text.bytes ['"']).length = 1 := by decide
  have hclient : (Text.bytes ",\"client_id\":".toList).length = 13 := by decide
  have hrest : (Text.bytes (",\"stream_id\":".toList ++ quote ['s'] ++ ",\"seq_id\":".toList ++
    Text.decimal 7)).length = 27 := by decide
  simp only [Text.bytes_append, length_append] at hrest
  simp only [serializeIds, longIdEnvelope, quote, Text.bytes_append, length_append, hid,
    hquote, hclient] at hrest ⊢
  omega

theorem reached_le_fifty {k : Nat} (h : Reached 2000 2 k) : k ≤ 50 := by
  by_contra hmore
  have hfalls := h.2 50 (by decide) (by omega)
  exact absurd hfalls (by decide)

theorem fitsIn_longIdEnvelope {k : Nat} (hle : k ≤ remoteControlSegmentCountMax)
    (h : k = 2000 ∨ Reached 2000 2 k) :
    fitsIn plainSerializer longIdEnvelope (List.replicate 2000 48) k = false := by
  have hids := length_serializeIds_longIdEnvelope
  have hlength : (List.replicate 2000 (48 : UInt8)).length = 2000 := length_replicate
  have hne : List.replicate 2000 (48 : UInt8) ≠ [] := ne_nil_of_length_eq_add_one hlength
  have hmax : remoteControlSegmentCountMax = 1024 := rfl
  have hbytes : remoteControlSegmentMaxBytes = 153600 := rfl
  have hwide : ∀ k < 51, 2 ≤ k → 40 ≤ 2000 ⌈/⌉ k ∧ 2000 ⌈/⌉ k ≤ 2000 := by decide
  have hreached : Reached 2000 2 k := h.resolve_left (by omega)
  obtain ⟨hchunk, hwhole⟩ := hwide k (Nat.lt_succ_of_le (reached_le_fifty hreached)) hreached.1
  by_contra hfit
  rw [Bool.not_eq_false, fitsIn, segmentsFit_iff hne (by rw [hlength]; omega), hlength] at hfit
  have hsome : 0 < 2000 ⌈/⌉ (2000 ⌈/⌉ k) := ceilDiv_pos (by decide) (by omega)
  have hfirst := hfit.2 0 hsome
  have hcount := (digits_bounds _ (Nat.lt_succ_of_le hfit.1)).2.2.1
  have hzero : digits 0 = 1 := by decide
  have hsize : digits 2000 = 4 := by decide
  rw [chunkLen, hids, hzero, hsize, hbytes] at hfirst
  omega

theorem split_drops_fitting_message :
    splitServerEnvelopeForTransport plainSerializer longIdEnvelope = .ok [] ∧
      fitsIn plainSerializer longIdEnvelope (List.replicate 2000 48) 60 = true := by
  have hraw : plainSerializer.toVec (.request (List.replicate 2000 48)) =
      .ok (List.replicate 2000 48) := rfl
  have hids := length_serializeIds_longIdEnvelope
  have hlength : (List.replicate 2000 (48 : UInt8)).length = 2000 := length_replicate
  have hne : List.replicate 2000 (48 : UInt8) ≠ [] := ne_nil_of_length_eq_add_one hlength
  have hbytes : remoteControlSegmentMaxBytes = 153600 := rfl
  constructor
  · have hfind : findChunkSize (List.replicate 2000 (48 : UInt8)).length
        (segmentsFit plainSerializer longIdEnvelope (List.replicate 2000 48))
        (firstSegmentCount (List.replicate 2000 (48 : UInt8)).length) = none := by
      refine (findChunkSize_segmentsFit_eq_none_iff hne).mpr ?_
      rintro ⟨k, -, hle, hfit, hk⟩
      rw [hlength] at hk
      rw [fitsIn_longIdEnvelope hle hk] at hfit
      cases hfit
    rw [split_of_message rfl hraw, if_neg (by rw [hlength, hids, hbytes]; decide),
      if_neg (by rw [hlength]; decide), hfind]
  · have hchunk : (List.replicate 2000 (48 : UInt8)).length ⌈/⌉ 60 = 34 := by
      rw [hlength]
      decide
    have hcount : 2000 ⌈/⌉ 34 = 59 := by decide
    have hdigits : ∀ i < 60, digits i ≤ 2 := by decide
    have hsize : digits 2000 = 4 := by decide
    rw [fitsIn, hchunk, segmentsFit_iff hne (by decide), hlength, hcount]
    refine ⟨by decide, fun i hi => ?_⟩
    have hi2 := hdigits i (by omega)
    have hn2 := hdigits 59 (by decide)
    rw [chunkLen, hids, hsize, hbytes]
    omega

end Codex.RemoteControl.Segment

import Codex.Lib.Chunked
import Codex.NoiseRelay.MessageFraming
import Mathlib.Data.List.Forall2

/-! Both ends of a stream of `exec-server/src/noise_relay/executor_stream.rs`. The nonces of the
Noise transport count the records of one direction, so the ciphertexts have to be decrypted in the
order they were made. -/

namespace Codex.NoiseRelay
open Codex.Lib Codex.Lib.Framing OrderedCiphertextFrames List

/-- What is used of the transport, at the nonce that it has reached. -/
structure Cipher where
  encrypt : ℕ → Bytes → Bytes
  decrypt : ℕ → Bytes → Except Text Bytes

def Cipher.Ideal (cipher : Cipher) : Prop :=
  ∀ nonce plaintext, cipher.decrypt nonce (cipher.encrypt nonce plaintext) = .ok plaintext

structure RelayData where
  seq : ℕ
  payload : Bytes

def messageRecords (message : Bytes) : Except ExecServerError (List Bytes) := do
  let framed ← frameMessage message
  return Chunked.chunks noiseRecordPlaintextLen framed

theorem messageRecords_spec {message : Bytes} (h : Sendable message) :
    ∃ cut, messageRecords message = .ok cut ∧ frameMessage message = .ok cut.flatten ∧
      ∀ record ∈ cut, record.length ≤ noiseRecordPlaintextLen := by
  have hframe := frameMessage_eq_ok h
  refine ⟨Chunked.chunks noiseRecordPlaintextLen (frame message), ?_, ?_, ?_⟩
  · rw [messageRecords, hframe]
    rfl
  · rw [Chunked.flatten_chunks (by decide)]
    exact hframe
  · intro record hrecord
    obtain ⟨i, -, rfl⟩ := List.mem_map.mp hrecord
    exact length_take_le _ _

def Cipher.encryptAll (cipher : Cipher) (plaintexts : List Bytes) : List Bytes :=
  plaintexts.mapIdx cipher.encrypt

structure NoiseVirtualStream where
  inboundCiphertexts : OrderedCiphertextFrames
  receiveNonce : ℕ
  inboundDecoder : MessageDecoder

def NoiseVirtualStream.opened : NoiseVirtualStream := ⟨.default, 0, ⟨[]⟩⟩

def decryptRecords (cipher : Cipher) : NoiseVirtualStream → List Bytes →
    Except ExecServerError (NoiseVirtualStream × List Bytes)
  | s, [] => .ok (s, [])
  | s, ciphertext :: rest =>
    match cipher.decrypt s.receiveNonce ciphertext with
    | .error error => .error (.protocol ("Noise relay decryption failed: ".toList ++ error))
    | .ok plaintext => do
      let (decoder, messages) ← s.inboundDecoder.push plaintext
      let s := { s with receiveNonce := s.receiveNonce + 1, inboundDecoder := decoder }
      let (s, more) ← decryptRecords cipher s rest
      return (s, messages ++ more)

def receiveData (cipher : Cipher) (s : NoiseVirtualStream) (data : RelayData) :
    Except ExecServerError (NoiseVirtualStream × List Bytes) := do
  let (frames, ready) ← s.inboundCiphertexts.push data.seq data.payload
  decryptRecords cipher { s with inboundCiphertexts := frames } ready

def receiveAll (cipher : Cipher) : NoiseVirtualStream → List RelayData →
    Except ExecServerError (NoiseVirtualStream × List Bytes)
  | s, [] => .ok (s, [])
  | s, data :: rest => do
    let (s, messages) ← receiveData cipher s data
    let (s, more) ← receiveAll cipher s rest
    return (s, messages ++ more)

/-- After `k` records the messages `complete` are decoded, and the buffer holds the start of the
next one. -/
def Decoded (plaintexts payloads : List Bytes) (k : ℕ) (complete : List Bytes)
    (decoder : MessageDecoder) : Prop :=
  ∃ rest, payloads = complete ++ rest ∧
    (plaintexts.take k).flatten = complete.flatMap frame ++ decoder.buffered ∧
    Unfinished frame rest decoder.buffered

structure Carries (plaintexts payloads : List Bytes) : Prop where
  sendable : ∀ m ∈ payloads, Sendable m
  bounded : ∀ record ∈ plaintexts, record.length ≤ noiseRecordPlaintextLen
  stream : plaintexts.flatten = payloads.flatMap frame

variable {plaintexts payloads complete : List Bytes} {decoder : MessageDecoder} {k : ℕ}

theorem decoded_zero (plaintexts payloads : List Bytes) :
    Decoded plaintexts payloads 0 [] ⟨[]⟩ := by
  refine ⟨payloads, rfl, rfl, ?_⟩
  exact unfinished_nil fun m _ => frame_ne_nil m

theorem Decoded.push (h : Decoded plaintexts payloads k complete decoder)
    (hcarries : Carries plaintexts payloads) (hk : k < plaintexts.length) :
    ∃ decoder' more, decoder.push plaintexts[k] = .ok (decoder', more) ∧
      Decoded plaintexts payloads (k + 1) (complete ++ more) decoder' := by
  obtain ⟨rest, rfl, htaken, htail⟩ := h
  have hnext : (plaintexts.take (k + 1)).flatten =
      complete.flatMap frame ++ (decoder.buffered ++ plaintexts[k]) := by
    rw [take_add_one, getElem?_eq_getElem hk, flatten_append, htaken, append_assoc]
    simp
  have hwithin : decoder.buffered ++ plaintexts[k] <+: rest.flatMap frame := by
    have hall : (plaintexts.take (k + 1)).flatten <+: plaintexts.flatten :=
      (List.take_prefix _ _).flatten
    rw [hnext, hcarries.stream, flatMap_append] at hall
    exact (prefix_append_right_inj _).mp hall
  have hrest : ∀ m ∈ rest, Sendable m := fun m hm =>
    hcarries.sendable m (mem_append_right _ hm)
  obtain ⟨more, rest', tail', rfl, hsplit, htail', hpush⟩ :=
    MessageDecoder.push_spec hrest (hcarries.bounded _ (getElem_mem hk)) hwithin
  refine ⟨⟨tail'⟩, more, hpush, rest', (append_assoc _ _ _).symm, ?_, htail'⟩
  rw [hnext, hsplit, flatMap_append, append_assoc]

theorem Decoded.complete_eq (h : Decoded plaintexts payloads plaintexts.length complete decoder)
    (hcarries : Carries plaintexts payloads) : complete = payloads := by
  obtain ⟨rest, rfl, htaken, htail⟩ := h
  rw [take_length, hcarries.stream, flatMap_append] at htaken
  have hnil := htail.eq_nil (append_cancel_left htaken).symm
  rw [hnil, append_nil]

variable {cipher : Cipher} {s : NoiseVirtualStream} {seen : Finset ℕ}

def Cipher.record (cipher : Cipher) (plaintexts : List Bytes) (seq : ℕ) : Bytes :=
  (cipher.encryptAll plaintexts).getD seq []

theorem Cipher.record_eq (cipher : Cipher) {seq : ℕ} (h : seq < plaintexts.length) :
    cipher.record plaintexts seq = cipher.encrypt seq plaintexts[seq] := by
  have hlen : seq < (plaintexts.mapIdx cipher.encrypt).length := by
    rw [length_mapIdx]
    exact h
  rw [Cipher.record, Cipher.encryptAll, getD_eq_getElem?_getD,
    getElem?_eq_getElem hlen, getElem_mapIdx, Option.getD_some]

theorem decryptRecords_spec {n : ℕ} (hcipher : cipher.Ideal)
    (hcarries : Carries plaintexts payloads) (hnonce : s.receiveNonce = k)
    (hdecoded : Decoded plaintexts payloads k complete s.inboundDecoder)
    (hlen : k + n ≤ plaintexts.length) :
    ∃ decoder more,
      decryptRecords cipher s ((List.range' k n).map (cipher.record plaintexts)) =
        .ok (⟨s.inboundCiphertexts, k + n, decoder⟩, more) ∧
      Decoded plaintexts payloads (k + n) (complete ++ more) decoder := by
  induction n generalizing k s complete with
  | zero =>
    obtain ⟨frames, nonce, decoder⟩ := s
    obtain rfl : nonce = k := hnonce
    refine ⟨decoder, [], rfl, ?_⟩
    rw [append_nil]
    exact hdecoded
  | succ n ih =>
    have hk : k < plaintexts.length := by omega
    obtain ⟨decoder', messages, hpush, hdecoded'⟩ := hdecoded.push hcarries hk
    have hdecrypt : cipher.decrypt s.receiveNonce (cipher.record plaintexts k) =
        .ok plaintexts[k] := by
      rw [hnonce, cipher.record_eq hk]
      exact hcipher k _
    let s' : NoiseVirtualStream :=
      { s with receiveNonce := s.receiveNonce + 1, inboundDecoder := decoder' }
    have hnonce' : s'.receiveNonce = k + 1 := congrArg (· + 1) hnonce
    obtain ⟨decoder, more, hrun, hfinal⟩ := ih hnonce' hdecoded' (by omega)
    refine ⟨decoder, messages ++ more, ?_, ?_⟩
    · rw [range'_succ, map_cons, decryptRecords, hdecrypt]
      simp only [hpush, ok_bind]
      rw [hrun, ok_bind, Nat.add_right_comm]
      rfl
    · rw [← append_assoc, ← Nat.add_assoc, Nat.add_right_comm]
      exact hfinal

/-- The stream after the records `seen`: those before the first missing one are decoded. -/
structure Received (cipher : Cipher) (plaintexts payloads : List Bytes) (seen : Finset ℕ)
    (complete : List Bytes) (s : NoiseVirtualStream) : Prop where
  inOrder : InOrder (cipher.record plaintexts) seen s.inboundCiphertexts
  nonce : s.receiveNonce = firstMissing seen
  decoded : Decoded plaintexts payloads (firstMissing seen) complete s.inboundDecoder

theorem received_opened (cipher : Cipher) (plaintexts payloads : List Bytes) :
    Received cipher plaintexts payloads ∅ [] .opened where
  inOrder := inOrder_default _
  nonce := firstMissing_empty.symm
  decoded := by
    rw [firstMissing_empty]
    exact decoded_zero plaintexts payloads

theorem firstMissing_le_length (hseen : ∀ seq ∈ seen, seq < plaintexts.length) :
    firstMissing seen ≤ plaintexts.length := by
  by_contra h
  have hmem := mem_of_lt_firstMissing (not_le.mp h)
  exact absurd (hseen _ hmem) (lt_irrefl _)

theorem Received.receiveData {seq : ℕ} (h : Received cipher plaintexts payloads seen complete s)
    (hcipher : cipher.Ideal) (hcarries : Carries plaintexts payloads)
    (hcount : plaintexts.length < 2 ^ 32)
    (hseen : ∀ j ∈ insert seq seen, j < plaintexts.length)
    (hwindow : seq ≤ firstMissing seen + maxReorderDistance)
    (hbytes : ∑ j ∈ early (insert seq seen) (firstMissing (insert seq seen)),
      (cipher.record plaintexts j).length ≤ maxPendingBytes) :
    ∃ s' more, receiveData cipher s ⟨seq, cipher.record plaintexts seq⟩ = .ok (s', more) ∧
      Received cipher plaintexts payloads (insert seq seen) (complete ++ more) s' := by
  have hseq : ∀ j ∈ insert seq seen, j + 1 < 2 ^ 32 := by
    intro j hj
    have hlt := hseen j hj
    omega
  obtain ⟨frames, hpush, hinOrder⟩ := h.inOrder.push hseq hwindow hbytes
  have hle : firstMissing seen ≤ firstMissing (insert seq seen) := firstMissing_le_insert seq
  have hlen := firstMissing_le_length hseen
  let s₁ : NoiseVirtualStream := { s with inboundCiphertexts := frames }
  have hnonce : s₁.receiveNonce = firstMissing seen := h.nonce
  have hdecoded : Decoded plaintexts payloads (firstMissing seen) complete s₁.inboundDecoder :=
    h.decoded
  obtain ⟨decoder, more, hrun, hfinal⟩ :=
    decryptRecords_spec hcipher hcarries hnonce hdecoded
      (n := firstMissing (insert seq seen) - firstMissing seen) (by omega)
  rw [Nat.add_sub_cancel' hle] at hrun hfinal
  refine ⟨⟨frames, firstMissing (insert seq seen), decoder⟩, more, ?_, hinOrder, rfl, hfinal⟩
  rw [NoiseRelay.receiveData, hpush, ok_bind]
  exact hrun

/-- A delivery of the records with duplicates and out of order: within the window and the buffer
of the receiver at every point, and in the end complete. -/
structure Delivery (records : List Bytes) (deliveries : List ℕ) : Prop where
  sent : ∀ seq ∈ deliveries, seq < records.length
  complete : ∀ seq < records.length, seq ∈ deliveries
  window : ∀ earlier seq, earlier ++ [seq] <+: deliveries →
    seq ≤ firstMissing earlier.toFinset + maxReorderDistance
  buffer : ∀ earlier, earlier <+: deliveries →
    ∑ seq ∈ early earlier.toFinset (firstMissing earlier.toFinset),
      (records.getD seq []).length ≤ maxPendingBytes

theorem length_encryptAll (cipher : Cipher) (plaintexts : List Bytes) :
    (cipher.encryptAll plaintexts).length = plaintexts.length := length_mapIdx

theorem toFinset_concat (earlier : List ℕ) (seq : ℕ) :
    (earlier ++ [seq]).toFinset = insert seq earlier.toFinset := by
  ext j
  simp

theorem Received.receiveAll {earlier later : List ℕ} (hcipher : cipher.Ideal)
    (hcarries : Carries plaintexts payloads) (hcount : plaintexts.length < 2 ^ 32)
    (hdelivery : Delivery (cipher.encryptAll plaintexts) (earlier ++ later))
    (h : Received cipher plaintexts payloads earlier.toFinset complete s) :
    ∃ s' more, receiveAll cipher s
        (later.map fun seq => ⟨seq, cipher.record plaintexts seq⟩) = .ok (s', more) ∧
      Received cipher plaintexts payloads (earlier ++ later).toFinset (complete ++ more) s' := by
  induction later generalizing earlier s complete with
  | nil =>
    refine ⟨s, [], rfl, ?_⟩
    rw [append_nil, append_nil]
    exact h
  | cons seq later ih =>
    have hsplit : earlier ++ seq :: later = (earlier ++ [seq]) ++ later := by simp
    have hstart : earlier ++ [seq] <+: earlier ++ seq :: later := by
      rw [hsplit]
      exact prefix_append _ _
    have hseen : ∀ j ∈ insert seq earlier.toFinset, j < plaintexts.length := by
      intro j hj
      rw [← toFinset_concat, mem_toFinset] at hj
      have hlt := hdelivery.sent j (hstart.subset hj)
      rwa [length_encryptAll] at hlt
    have hbytes := hdelivery.buffer _ hstart
    rw [toFinset_concat] at hbytes
    obtain ⟨s₁, messages, hdata, hreceived⟩ := h.receiveData hcipher hcarries hcount hseen
      (hdelivery.window earlier seq hstart) hbytes
    rw [← toFinset_concat] at hreceived
    rw [hsplit] at hdelivery
    obtain ⟨s', more, hrun, hfinal⟩ := ih hdelivery hreceived
    refine ⟨s', messages ++ more, ?_, ?_⟩
    · rw [map_cons, NoiseRelay.receiveAll, hdata, ok_bind]
      simp only [hrun, ok_bind]
      rfl
    · rw [hsplit, ← append_assoc]
      exact hfinal

theorem carries_of_cuts {cuts : List (List Bytes)} (hpayloads : ∀ m ∈ payloads, Sendable m)
    (hcuts : List.Forall₂ (fun m cut => frameMessage m = .ok cut.flatten) payloads cuts)
    (hrecords : ∀ record ∈ cuts.flatten, record.length ≤ noiseRecordPlaintextLen) :
    Carries cuts.flatten payloads where
  sendable := hpayloads
  bounded := hrecords
  stream := by
    clear hrecords
    induction hcuts with
    | nil => rfl
    | @cons m cut payloads cuts hcut _ ih =>
      have hframe := frameMessage_eq_ok (hpayloads m mem_cons_self)
      rw [hframe, Except.ok.injEq] at hcut
      rw [flatten_cons, flatten_append, flatMap_cons, hcut,
        ih fun x hx => hpayloads x (mem_cons_of_mem _ hx)]

theorem Carries.receiveAll {deliveries : List ℕ} (hcarries : Carries plaintexts payloads)
    (hcipher : cipher.Ideal) (hcount : plaintexts.length < 2 ^ 32)
    (hdelivery : Delivery (cipher.encryptAll plaintexts) deliveries) :
    ∃ s, receiveAll cipher .opened
      (deliveries.map fun seq => ⟨seq, cipher.record plaintexts seq⟩) = .ok (s, payloads) := by
  have hopened := received_opened cipher plaintexts payloads
  rw [← toFinset_nil] at hopened
  have hwhole : Delivery (cipher.encryptAll plaintexts) ([] ++ deliveries) := hdelivery
  obtain ⟨s, messages, hrun, hreceived⟩ := hopened.receiveAll hcipher hcarries hcount hwhole
  rw [nil_append, nil_append] at hreceived
  have hall : firstMissing deliveries.toFinset = plaintexts.length := by
    apply firstMissing_eq_of_mem_iff
    intro seq
    rw [mem_toFinset, ← length_encryptAll cipher]
    exact ⟨hdelivery.sent seq, hdelivery.complete seq⟩
  have hdecoded := hreceived.decoded
  rw [hall] at hdecoded
  refine ⟨s, ?_⟩
  rw [hrun, hdecoded.complete_eq hcarries]

theorem exists_mapM_messageRecords (hpayloads : ∀ m ∈ payloads, Sendable m) :
    ∃ cuts, payloads.mapM messageRecords = .ok cuts ∧ Carries cuts.flatten payloads := by
  have hcuts : ∃ cuts, payloads.mapM messageRecords = .ok cuts ∧
      List.Forall₂ (fun m cut => frameMessage m = .ok cut.flatten) payloads cuts ∧
      ∀ record ∈ cuts.flatten, record.length ≤ noiseRecordPlaintextLen := by
    induction payloads with
    | nil => exact ⟨[], rfl, .nil, fun record h => absurd h not_mem_nil⟩
    | cons m payloads ih =>
      obtain ⟨cut, hcut, hframe, hbounded⟩ := messageRecords_spec (hpayloads m mem_cons_self)
      obtain ⟨cuts, hrun, hforall, hall⟩ := ih fun x hx => hpayloads x (mem_cons_of_mem _ hx)
      refine ⟨cut :: cuts, ?_, .cons hframe hforall, ?_⟩
      · rw [mapM_cons, hcut, ok_bind, hrun]
        rfl
      · intro record hrecord
        rw [flatten_cons, mem_append] at hrecord
        exact hrecord.elim (hbounded record) (hall record)
  obtain ⟨cuts, hrun, hforall, hall⟩ := hcuts
  exact ⟨cuts, hrun, carries_of_cuts hpayloads hforall hall⟩

theorem written_records_delivered {cuts : List (List Bytes)} {deliveries : List ℕ}
    (hcipher : cipher.Ideal) (hpayloads : ∀ m ∈ payloads, Sendable m)
    (hcuts : payloads.mapM messageRecords = .ok cuts) (hcount : cuts.flatten.length < 2 ^ 32)
    (hdelivery : Delivery (cipher.encryptAll cuts.flatten) deliveries) :
    ∃ s, receiveAll cipher .opened
      (deliveries.map fun seq => ⟨seq, cipher.record cuts.flatten seq⟩) = .ok (s, payloads) := by
  obtain ⟨cuts', hrun, hcarries⟩ := exists_mapM_messageRecords hpayloads
  obtain rfl : cuts' = cuts := Except.ok.inj (hrun.symm.trans hcuts)
  exact hcarries.receiveAll hcipher hcount hdelivery

/-- Whatever the order and the repetitions of a delivery, and however the frames are cut, the
receiver hands on the payloads as they were sent. -/
theorem receiveAll_delivers (cipher : Cipher) (hcipher : cipher.Ideal) (payloads : List Bytes)
    (hpayloads : ∀ m ∈ payloads, Sendable m) (cuts : List (List Bytes))
    (hcuts : List.Forall₂ (fun m cut => frameMessage m = .ok cut.flatten) payloads cuts)
    (hrecords : ∀ record ∈ cuts.flatten, record.length ≤ noiseRecordPlaintextLen)
    (hcount : cuts.flatten.length < 2 ^ 32) (deliveries : List ℕ)
    (hdelivery : Delivery (cipher.encryptAll cuts.flatten) deliveries) :
    ∃ s, receiveAll cipher .opened
      (deliveries.map fun seq => ⟨seq, cipher.record cuts.flatten seq⟩) = .ok (s, payloads) := by
  have hcarries := carries_of_cuts hpayloads hcuts hrecords
  exact hcarries.receiveAll hcipher hcount hdelivery

def taggingCipher : Cipher where
  encrypt nonce plaintext := UInt8.ofNat nonce :: plaintext
  decrypt nonce
    | tag :: plaintext =>
      if tag = UInt8.ofNat nonce then .ok plaintext else .error "decrypt error".toList
    | [] => .error "decrypt error".toList

theorem taggingCipher_ideal : taggingCipher.Ideal := by
  intro nonce plaintext
  exact if_pos rfl

theorem receiveAll_delivers_shuffled :
    let cuts : List (List Bytes) := [[[0, 0], [0, 3, 7], [8, 9]], [[0, 0, 0, 1, 5]]]
    ∃ s, receiveAll taggingCipher .opened
      ([1, 3, 1, 0, 0, 2].map fun seq => ⟨seq, taggingCipher.record cuts.flatten seq⟩) =
        .ok (s, [[7, 8, 9], [5]]) := by
  intro cuts
  apply receiveAll_delivers taggingCipher taggingCipher_ideal [[7, 8, 9], [5]] _ cuts
  · exact .cons rfl (.cons rfl .nil)
  · decide +kernel
  · decide
  · constructor
    · decide +kernel
    · decide +kernel
    · intro earlier seq h
      rw [← mem_inits] at h
      have hall : ∀ l ∈ [1, 3, 1, 0, 0, 2].inits, ∀ seq ∈ l.getLast?,
          seq ≤ firstMissing l.dropLast.toFinset + maxReorderDistance := by
        decide +kernel
      have hlast := hall _ h seq (by simp)
      rwa [dropLast_concat] at hlast
    · intro earlier h
      rw [← mem_inits] at h
      have hall : ∀ l ∈ [1, 3, 1, 0, 0, 2].inits,
          ∑ seq ∈ early l.toFinset (firstMissing l.toFinset),
            ((taggingCipher.encryptAll cuts.flatten).getD seq []).length ≤ maxPendingBytes := by
        decide +kernel
      exact hall _ h
  · decide +kernel

def twoRecords (message : Bytes) : List Bytes :=
  [(frame message).take noiseRecordPlaintextLen, (frame message).drop noiseRecordPlaintextLen]

section
variable {message : Bytes} (hlength : message.length = 100000)
include hlength

theorem length_frame_large : (frame message).length = 100004 := by
  rw [frame, length_append, length_toBeBytes, hlength]
  rfl

theorem messageRecords_large (h : Sendable message) :
    messageRecords message = .ok (twoRecords message) := by
  have hframe := length_frame_large hlength
  have hrest : ((frame message).drop noiseRecordPlaintextLen).length ≤ noiseRecordPlaintextLen := by
    rw [length_drop, hframe]
    decide
  have htwo : 100004 ⌈/⌉ noiseRecordPlaintextLen = 2 := by decide
  rw [messageRecords, frameMessage_eq_ok h, ok_bind, Chunked.chunks, hframe, htwo, twoRecords,
    ← take_of_length_le hrest]
  rfl

theorem delivery_large : Delivery (taggingCipher.encryptAll (twoRecords message)) [1, 0, 1] := by
  have hframe := length_frame_large hlength
  have hrecords : taggingCipher.encryptAll (twoRecords message) =
      [0 :: (frame message).take noiseRecordPlaintextLen,
        1 :: (frame message).drop noiseRecordPlaintextLen] := rfl
  rw [hrecords]
  refine ⟨by simp, by simp +decide, fun earlier seq h => ?_, fun earlier h => ?_⟩
  · have hseq : seq ∈ [1, 0, 1] := h.subset (by simp)
    simp [maxReorderDistance] at hseq ⊢
    omega
  · have hsubset : early earlier.toFinset (firstMissing earlier.toFinset) ⊆ {0, 1} := by
      intro seq hseq
      have hmem := h.subset (mem_toFinset.mp (Finset.mem_filter.mp hseq).1)
      simp at hmem ⊢
      omega
    refine (Finset.sum_le_sum_of_subset hsubset).trans ?_
    rw [Finset.sum_pair Nat.zero_ne_one]
    simp [hframe, maxPendingBytes, noiseRecordPlaintextLen]

end

theorem written_records_delivered_twoRecords :
    let message : Bytes := List.replicate 100000 7
    messageRecords message = .ok (twoRecords message) ∧ ∃ s, receiveAll taggingCipher .opened
      ([1, 0, 1].map fun seq => ⟨seq, taggingCipher.record [twoRecords message].flatten seq⟩) =
        .ok (s, [message]) := by
  intro message
  have hlength : message.length = 100000 := length_replicate
  have hsendable : Sendable message := by
    rw [Sendable, hlength]
    decide
  have hcut := messageRecords_large hlength hsendable
  refine ⟨hcut, written_records_delivered taggingCipher_ideal ?_ ?_ (by simp [twoRecords]) ?_⟩
  · simpa using hsendable
  · rw [mapM_cons, hcut, ok_bind]
    rfl
  · rw [flatten_singleton]
    exact delivery_large hlength

/-- A record that decrypts is the one that the peer made at this nonce. -/
def Cipher.Authentic (cipher : Cipher) (plaintexts : List Bytes) : Prop :=
  ∀ nonce ciphertext plaintext, cipher.decrypt nonce ciphertext = .ok plaintext →
    plaintexts[nonce]? = some plaintext

section
variable {s' : NoiseVirtualStream} {messages : List Bytes}
  (h : Decoded plaintexts payloads s.receiveNonce complete s.inboundDecoder)
  (hcipher : cipher.Authentic plaintexts) (hcarries : Carries plaintexts payloads)
include h hcipher hcarries

theorem Decoded.decryptRecords {ciphertexts : List Bytes}
    (hrun : decryptRecords cipher s ciphertexts = .ok (s', messages)) :
    Decoded plaintexts payloads s'.receiveNonce (complete ++ messages) s'.inboundDecoder := by
  induction ciphertexts generalizing s complete messages with
  | nil =>
    cases hrun
    rwa [append_nil]
  | cons ciphertext ciphertexts ih =>
    rw [NoiseRelay.decryptRecords] at hrun
    split at hrun
    case h_1 => cases hrun
    case h_2 plaintext hdecrypt =>
      obtain ⟨hk, rfl⟩ := List.getElem?_eq_some_iff.mp (hcipher _ _ _ hdecrypt)
      obtain ⟨decoder, more, hpush, hdecoded⟩ := h.push hcarries hk
      rw [hpush, ok_bind] at hrun
      obtain ⟨⟨s₁, later⟩, hlater, hrun⟩ := exists_of_bind_eq_ok hrun
      cases hrun
      rw [← append_assoc]
      exact ih hdecoded hlater

theorem Decoded.receiveAll {records : List RelayData}
    (hrun : receiveAll cipher s records = .ok (s', messages)) :
    Decoded plaintexts payloads s'.receiveNonce (complete ++ messages) s'.inboundDecoder := by
  induction records generalizing s complete messages with
  | nil =>
    cases hrun
    rwa [append_nil]
  | cons data records ih =>
    obtain ⟨⟨s₁, earlier⟩, hdata, hrun⟩ := exists_of_bind_eq_ok hrun
    obtain ⟨⟨s₂, later⟩, hlater, hrun⟩ := exists_of_bind_eq_ok hrun
    cases hrun
    -- the records the buffer releases may be any
    obtain ⟨⟨frames, ready⟩, _, hready⟩ := exists_of_bind_eq_ok hdata
    rw [← append_assoc]
    exact ih (Decoded.decryptRecords (by exact h) hcipher hcarries hready) hlater

end

/-- Whatever a relay forges, changes, drops, repeats and reorders: what the stream hands on, also
before a record that it fails on, is a first part of what was sent. -/
theorem receiveAll_hostile (cipher : Cipher) (payloads : List Bytes) (cuts : List (List Bytes))
    (hpayloads : ∀ m ∈ payloads, Sendable m) (hcuts : payloads.mapM messageRecords = .ok cuts)
    (hcipher : cipher.Authentic cuts.flatten) (records : List RelayData)
    (s s' : NoiseVirtualStream) (messages more ciphertexts : List Bytes)
    (hrun : receiveAll cipher .opened records = .ok (s, messages))
    (hmore : decryptRecords cipher s ciphertexts = .ok (s', more)) :
    messages ++ more <+: payloads := by
  obtain ⟨cuts', hcuts', hcarries⟩ := exists_mapM_messageRecords hpayloads
  obtain rfl : cuts' = cuts := Except.ok.inj (hcuts'.symm.trans hcuts)
  have hopened : Decoded cuts'.flatten payloads NoiseVirtualStream.opened.receiveNonce []
      NoiseVirtualStream.opened.inboundDecoder := decoded_zero _ _
  have hreceived := hopened.receiveAll hcipher hcarries hrun
  obtain ⟨rest, hrest, _⟩ := hreceived.decryptRecords hcipher hcarries hmore
  exact ⟨rest, hrest.symm⟩

/-- Only what was sent at a nonce decrypts. -/
def sealedCipher (plaintexts : List Bytes) : Cipher where
  encrypt _ plaintext := plaintext
  decrypt nonce ciphertext :=
    if plaintexts[nonce]? = some ciphertext then .ok ciphertext else .error []

theorem sealedCipher_authentic (plaintexts : List Bytes) :
    (sealedCipher plaintexts).Authentic plaintexts := by
  intro nonce ciphertext plaintext hdecrypt
  dsimp only [sealedCipher] at hdecrypt
  split at hdecrypt <;> cases hdecrypt
  assumption

deriving instance DecidableEq for OrderedCiphertextFrames, MessageDecoder, NoiseVirtualStream

theorem receiveAll_hostile_forged :
    let cuts : List (List Bytes) := [[[0, 0, 0, 1, 7]], [[0, 0, 0, 1, 5]], [[0, 0, 0, 1, 6]]]
    let s : NoiseVirtualStream := ⟨⟨1, [(2, [4])], 1⟩, 1, ⟨[]⟩⟩
    receiveAll (sealedCipher cuts.flatten) .opened
        [⟨0, [0, 0, 0, 1, 7]⟩, ⟨0, [3]⟩, ⟨2, [4]⟩] = .ok (s, [[7]]) ∧
      (decryptRecords (sealedCipher cuts.flatten) s [[0, 0, 0, 1, 5], [4]]).isOk = false ∧
      [[7], [5]] <+: ([[7], [5], [6]] : List Bytes) := by
  intro cuts s
  refine ⟨by decide +kernel, by decide +kernel, ?_⟩
  exact receiveAll_hostile (sealedCipher cuts.flatten) _ cuts (by decide) (by decide +kernel)
    (sealedCipher_authentic _) [⟨0, [0, 0, 0, 1, 7]⟩, ⟨0, [3]⟩, ⟨2, [4]⟩] s
    { s with receiveNonce := 2 } [[7]] [[5]] [[0, 0, 0, 1, 5]] (by decide +kernel)
    (by decide +kernel)

end Codex.NoiseRelay

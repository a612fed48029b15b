import Codex.RemoteControl.ReassembledMessages
import Codex.RemoteControl.ServerSegments

/-! `WebsocketState` and `BoundedOutboundBuffer` of `remote_control/websocket.rs`. -/

namespace Codex.RemoteControl.Segment
open Codex.Lib

variable {Message RequestId Payload : Type}

structure BoundedOutboundBuffer (RequestId Payload : Type) where
  bufferByStream : AList fun _ : Text × Text => List (ServerEnvelope RequestId Payload)
  used : Nat

namespace BoundedOutboundBuffer

def new : BoundedOutboundBuffer RequestId Payload := ⟨∅, 0⟩

def insert (self : BoundedOutboundBuffer RequestId Payload)
    (serverEnvelope : ServerEnvelope RequestId Payload) : BoundedOutboundBuffer RequestId Payload :=
  let key := (serverEnvelope.clientId, serverEnvelope.streamId)
  { bufferByStream := self.bufferByStream.insert key
      ((self.bufferByStream.lookup key).getD [] ++ [serverEnvelope])
    used := self.used + 1 }

/-- The order of the pairs of a sequence number and a segment id. -/
def isAcked (ackedSeqId ackedSegmentId : Nat) (serverEnvelope : ServerEnvelope RequestId Payload) :
    Bool :=
  serverEnvelope.seqId < ackedSeqId ||
    (serverEnvelope.seqId = ackedSeqId &&
      serverEnvelope.event.segmentId.getD 0 ≤ ackedSegmentId)

def ack (self : BoundedOutboundBuffer RequestId Payload) (clientId streamId : Text)
    (ackedSeqId : Nat) (ackedSegmentId : Option Nat) : BoundedOutboundBuffer RequestId Payload :=
  match self.bufferByStream.lookup (clientId, streamId) with
  | none => self
  | some buffer =>
    let acked := isAcked ackedSeqId (ackedSegmentId.getD (2 ^ 64 - 1))
    let kept := buffer.filter fun serverEnvelope => !acked serverEnvelope
    { bufferByStream :=
        if kept.isEmpty then self.bufferByStream.erase (clientId, streamId)
        else self.bufferByStream.insert (clientId, streamId) kept
      used := self.used - buffer.countP acked }

end BoundedOutboundBuffer

abbrev MessageKey := Text × Option Text

structure WebsocketState (RequestId Payload : Type) where
  outboundBuffer : BoundedOutboundBuffer RequestId Payload
  subscribeCursor : Option Text
  lastCompletedClientChunkSeqIdByStream : AList fun _ : MessageKey => Nat
  clientSegmentReassembler : ClientSegmentReassembler

namespace WebsocketState

def new : WebsocketState RequestId Payload := ⟨.new, none, ∅, .default⟩

def clientMessageKey (clientEnvelope : ClientEnvelope Message) : Option (MessageKey × Nat) :=
  match clientEnvelope.event, clientEnvelope.seqId with
  | .clientMessageChunk _ _ _ _, some seqId =>
    some ((clientEnvelope.clientId, clientEnvelope.streamId), seqId)
  | _, _ => none

def isCompleted (self : WebsocketState RequestId Payload) (key : MessageKey) (seqId : Nat) : Bool :=
  (self.lastCompletedClientChunkSeqIdByStream.lookup key).any fun lastSeqId => lastSeqId ≥ seqId

def shouldIgnore (self : WebsocketState RequestId Payload)
    (clientEnvelope : ClientEnvelope Message) (seqId : Nat) : Bool :=
  match clientEnvelope.streamId, clientEnvelope.event with
  | some streamId, .clientMessageChunk segmentId _ _ _ =>
    self.clientSegmentReassembler.shouldIgnoreChunk clientEnvelope.clientId streamId seqId segmentId
  | _, _ => false

/-- `invalidate_stream` of the reassembler, where the envelope names a stream. -/
def dropOversized (self : WebsocketState RequestId Payload)
    (clientEnvelope : ClientEnvelope Message) : WebsocketState RequestId Payload :=
  match clientEnvelope.streamId with
  | none => self
  | some streamId =>
    { self with
      clientSegmentReassembler :=
        self.clientSegmentReassembler.invalidateStream clientEnvelope.clientId streamId }

def observeReassembler (codec : Codec Message) (moment : Moment)
    (self : WebsocketState RequestId Payload) (clientEnvelope : ClientEnvelope Message) :
    ClientSegmentObservation Message × WebsocketState RequestId Payload :=
  let (observation, reassembler) :=
    self.clientSegmentReassembler.observe codec moment clientEnvelope
  (observation, { self with clientSegmentReassembler := reassembler })

def observeClientMessage (codec : Codec Message) (moment : Moment)
    (self : WebsocketState RequestId Payload) (clientEnvelope : ClientEnvelope Message)
    (wireSizeBytes : Nat) : ClientSegmentObservation Message × WebsocketState RequestId Payload :=
  match clientMessageKey clientEnvelope with
  | some (key, seqId) =>
    if self.isCompleted key seqId then (.dropped, self)
    else if self.shouldIgnore clientEnvelope seqId then (.dropped, self)
    else if wireSizeBytes > remoteControlSegmentMaxBytes then
      (.dropped, self.dropOversized clientEnvelope)
    else self.observeReassembler codec moment clientEnvelope
  | none => self.observeReassembler codec moment clientEnvelope

def recordClientMessageDelivery (self : WebsocketState RequestId Payload)
    (clientEnvelope : ClientEnvelope Message) (clientMessageKey : Option (MessageKey × Nat)) :
    WebsocketState RequestId Payload :=
  { self with
    subscribeCursor := clientEnvelope.cursor.or self.subscribeCursor
    lastCompletedClientChunkSeqIdByStream :=
      match clientMessageKey with
      | some (key, seqId) => self.lastCompletedClientChunkSeqIdByStream.insert key seqId
      | none => self.lastCompletedClientChunkSeqIdByStream
    outboundBuffer :=
      match clientEnvelope.event, clientEnvelope.seqId, clientEnvelope.streamId with
      | .ack segmentId, some ackedSeqId, some streamId =>
        self.outboundBuffer.ack clientEnvelope.clientId streamId ackedSeqId segmentId
      | _, _, _ => self.outboundBuffer }

def invalidateClientMessageStream (self : WebsocketState RequestId Payload)
    (clientId streamId : Text) : WebsocketState RequestId Payload :=
  { self with
    lastCompletedClientChunkSeqIdByStream :=
      self.lastCompletedClientChunkSeqIdByStream.erase (clientId, some streamId) }

/-- `retain` drops the cursors of the client one by one. -/
def invalidateClientMessageClient (self : WebsocketState RequestId Payload) (clientId : Text) :
    WebsocketState RequestId Payload :=
  { self with
    lastCompletedClientChunkSeqIdByStream :=
      (self.lastCompletedClientChunkSeqIdByStream.keys.filter (·.1 = clientId)).foldl
        (fun map key => map.erase key) self.lastCompletedClientChunkSeqIdByStream }

/-- What the reader and the writer of the websocket do to the state. -/
inductive Reachable (codec : Codec Message) : WebsocketState RequestId Payload → Prop
  | new : Reachable codec .new
  | observe {self} (h : Reachable codec self) (moment : Moment)
    (clientEnvelope : ClientEnvelope Message) (wireSizeBytes : Nat) :
    Reachable codec (self.observeClientMessage codec moment clientEnvelope wireSizeBytes).2
  | record {self} (h : Reachable codec self) (clientEnvelope : ClientEnvelope Message)
    (key : Option (MessageKey × Nat)) :
    Reachable codec (self.recordClientMessageDelivery clientEnvelope key)
  | invalidateStream {self} (h : Reachable codec self) (clientId streamId : Text) :
    Reachable codec { self with
      clientSegmentReassembler := self.clientSegmentReassembler.invalidateStream clientId streamId }
  | invalidateClient {self} (h : Reachable codec self) (clientId : Text) :
    Reachable codec { self with
      clientSegmentReassembler := self.clientSegmentReassembler.invalidateClient clientId }
  | invalidateClientMessageStream {self} (h : Reachable codec self) (clientId streamId : Text) :
    Reachable codec (self.invalidateClientMessageStream clientId streamId)
  | invalidateClientMessageClient {self} (h : Reachable codec self) (clientId : Text) :
    Reachable codec (self.invalidateClientMessageClient clientId)
  | buffer {self} (h : Reachable codec self) (serverEnvelope : ServerEnvelope RequestId Payload) :
    Reachable codec { self with outboundBuffer := self.outboundBuffer.insert serverEnvelope }

theorem Reachable.exists_run {codec : Codec Message} {self : WebsocketState RequestId Payload}
    (h : Reachable codec self) : ∃ calls, self.clientSegmentReassembler = run codec calls := by
  induction h with
  | new => exact ⟨[], rfl⟩
  | observe _ moment clientEnvelope wireSizeBytes ih =>
    obtain ⟨calls, hcalls⟩ := ih
    have hobserve (self : WebsocketState RequestId Payload)
        (hcalls : self.clientSegmentReassembler = run codec calls) :
        ∃ calls, (self.observeReassembler codec moment clientEnvelope).2.clientSegmentReassembler =
          run codec calls :=
      ⟨calls ++ [.observe moment clientEnvelope], by rw [run_concat, ← hcalls]; rfl⟩
    rw [observeClientMessage]
    split
    · split
      · exact ⟨calls, hcalls⟩
      · split
        · exact ⟨calls, hcalls⟩
        · split
          · rw [dropOversized]
            split
            · exact ⟨calls, hcalls⟩
            · rename_i streamId _
              exact ⟨calls ++ [.invalidateStream clientEnvelope.clientId streamId], by
                rw [run_concat, ← hcalls]; rfl⟩
          · exact hobserve _ hcalls
    · exact hobserve _ hcalls
  | invalidateStream _ clientId streamId ih =>
    obtain ⟨calls, hcalls⟩ := ih
    exact ⟨calls ++ [.invalidateStream clientId streamId], by rw [run_concat, ← hcalls]; rfl⟩
  | invalidateClient _ clientId ih =>
    obtain ⟨calls, hcalls⟩ := ih
    exact ⟨calls ++ [.invalidateClient clientId], by rw [run_concat, ← hcalls]; rfl⟩
  | record _ _ _ ih => exact ih
  | invalidateClientMessageStream _ _ _ ih => exact ih
  | invalidateClientMessageClient _ _ ih => exact ih
  | buffer _ _ ih => exact ih

end WebsocketState

end Codex.RemoteControl.Segment

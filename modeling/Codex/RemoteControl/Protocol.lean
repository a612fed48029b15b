import Codex.Lib.Text

/-! The events and envelopes of `remote_control/protocol.rs`, over the messages of a client and the
parts of an outgoing message that nothing here looks into. -/

namespace Codex.RemoteControl
open Codex.Lib

inductive ClientEvent (Message : Type) where
  | clientMessage (message : Message)
  | clientMessageChunk (segmentId segmentCount messageSizeBytes : Nat) (messageChunkBase64 : Text)
  | ack (segmentId : Option Nat)
  | ping
  | clientClosed
  deriving DecidableEq

structure ClientEnvelope (Message : Type) where
  event : ClientEvent Message
  clientId : Text
  streamId : Option Text
  seqId : Option Nat
  cursor : Option Text
  deriving DecidableEq

inductive PongStatus where
  | active
  | unknown
  deriving DecidableEq

structure JSONRPCErrorError where
  code : Int
  message : Text
  deriving DecidableEq

inductive OutgoingMessage (RequestId Payload : Type) where
  | request (payload : Payload)
  | appServerNotification (payload : Payload)
  | response (id : RequestId) (result : Payload)
  | error (error : JSONRPCErrorError) (id : RequestId)
  deriving DecidableEq

inductive ServerEvent (RequestId Payload : Type) where
  | serverMessage (message : OutgoingMessage RequestId Payload)
  | serverMessageChunk (segmentId segmentCount messageSizeBytes : Nat) (messageChunkBase64 : Text)
  | ack
  | pong (status : PongStatus)
  deriving DecidableEq

structure ServerEnvelope (RequestId Payload : Type) where
  event : ServerEvent RequestId Payload
  clientId : Text
  streamId : Text
  seqId : Nat
  deriving DecidableEq

def ClientEnvelope.segmentId? {Message : Type} (envelope : ClientEnvelope Message) : Option Nat :=
  match envelope.event with
  | .clientMessageChunk segmentId _ _ _ => some segmentId
  | _ => none

def ServerEvent.segmentId {RequestId Payload : Type} : ServerEvent RequestId Payload → Option Nat
  | .serverMessageChunk segmentId _ _ _ => some segmentId
  | _ => none

end Codex.RemoteControl

import Codex.Lib.Fallible
import Codex.RemoteControl.Protocol
import Mathlib.Data.List.AList

/-! `ClientTracker` of `remote_control/client_tracker.rs`, and what the reader loop of
`remote_control/websocket.rs` does with it. The clock, random stream ids and the queue of transport
events are given with every call. -/

namespace Codex.RemoteControl
open Codex.Lib

abbrev ConnectionId := Nat

abbrev ClientKey := Text × Text

inductive JSONRPCMessage where
  | request (method : Text)
  | notification (method : Text)
  | response
  | error
  deriving DecidableEq, Repr

inductive TransportEvent where
  | connectionOpened (connectionId : ConnectionId)
  | incomingMessage (connectionId : ConnectionId) (message : JSONRPCMessage)
  | connectionClosed (connectionId : ConnectionId)
  deriving DecidableEq, Repr

/-- Request ids and payloads are only passed on. -/
structure QueuedServerEnvelope where
  event : ServerEvent Text Text
  key : ClientKey
  deriving DecidableEq

structure ClientState where
  connectionId : ConnectionId
  lastActivityAt : Nat
  lastInboundSeqId : Option Nat
  deriving DecidableEq, Repr

/-- A task of the join set. It returns its key only; the connection is the one of its token. -/
structure OutboundTask where
  key : ClientKey
  connectionId : ConnectionId
  finished : Bool
  deriving DecidableEq, Repr

structure ClientTracker where
  clients : AList fun _ : ClientKey => ClientState
  legacyStreamIds : AList fun _ : Text => Text
  joinSet : List OutboundTask
  /-- the connections whose `disconnect_token` is cancelled -/
  cancelled : List ConnectionId
  /-- `CONNECTION_ID_COUNTER` -/
  nextConnectionId : ConnectionId
  transportEvents : List TransportEvent
  serverEvents : List QueuedServerEnvelope

inductive Stopped where
  | stopped

structure Surroundings where
  now : Nat
  randomStreamId : Text
  /-- the queue takes the event before the time is out -/
  accepts : TransportEvent → Bool

def remoteControlClientIdleTimeout : Nat := 10 * 60 * 1000

def JSONRPCMessage.startsConnection : JSONRPCMessage → Bool
  | request method => method = "initialize".toList
  | _ => false

def ClientEvent.isInitialize : ClientEvent JSONRPCMessage → Bool
  | clientMessage message => message.startsConnection
  | _ => false

def ClientState.isAlive (client : ClientState) (now : Nat) : Bool :=
  now - client.lastActivityAt < remoteControlClientIdleTimeout

namespace ClientTracker

def new : ClientTracker := ⟨∅, ∅, [], [], 0, [], []⟩

abbrev Action := Fallible Stopped ClientTracker Unit

def pushTransportEvent (event : TransportEvent) (s : ClientTracker) : ClientTracker :=
  { s with transportEvents := s.transportEvents ++ [event] }

def sendTransportEvent (env : Surroundings) (event : TransportEvent) : Action :=
  if env.accepts event then modify (pushTransportEvent event) else throw .stopped

def removeClient (s : ClientTracker) (key : ClientKey) : ClientTracker :=
  { s with
    clients := s.clients.erase key
    legacyStreamIds :=
      if s.legacyStreamIds.lookup key.1 = some key.2 then s.legacyStreamIds.erase key.1
      else s.legacyStreamIds }

def cancel (connectionId : ConnectionId) (s : ClientTracker) : ClientTracker :=
  { s with cancelled := s.cancelled ++ [connectionId] }

def closeClient (env : Surroundings) (key : ClientKey) : Action := do
  let s ← get
  match s.clients.lookup key with
  | none => pure ()
  | some client => do
    modify fun s => (s.removeClient key).cancel client.connectionId
    sendTransportEvent env (.connectionClosed client.connectionId)

def closeClients (env : Surroundings) : List ClientKey → Action
  | [] => pure ()
  | key :: keys => do
    closeClient env key
    closeClients env keys

/-- The hash map gives its keys in some order. -/
def closeExpiredClients (env : Surroundings) (order : List ClientKey) : Action := do
  let s ← get
  closeClients env (order.filter fun key =>
    (s.clients.lookup key).any fun client => !client.isAlive env.now)

/-- The tasks are waited for, and their keys are dropped. -/
def shutdown (env : Surroundings) (s : ClientTracker) : ClientTracker :=
  let closed := s.clients.keys.foldl (fun s key => ((closeClient env key).exec s).2) s
  { closed with
    joinSet := []
    cancelled := closed.cancelled ++ s.joinSet.map OutboundTask.connectionId }

/-- The stream of an envelope; old clients do not name it. -/
def takeStreamId (env : Surroundings) (envelope : ClientEnvelope JSONRPCMessage)
    (s : ClientTracker) : Text × ClientTracker :=
  match envelope.streamId with
  | some streamId => (streamId, s)
  | none =>
    let known := s.legacyStreamIds.lookup envelope.clientId
    if envelope.event.isInitialize then
      (known.getD env.randomStreamId,
        { s with legacyStreamIds := s.legacyStreamIds.erase envelope.clientId })
    else (known.getD (if envelope.event = .ping then env.randomStreamId else []), s)

def updateClient (key : ClientKey) (f : ClientState → ClientState) (s : ClientTracker) :
    ClientTracker :=
  match s.clients.lookup key with
  | none => s
  | some client => { s with clients := s.clients.insert key (f client) }

def touch (env : Surroundings) (key : ClientKey) : ClientTracker → ClientTracker :=
  updateClient key fun client => { client with lastActivityAt := env.now }

def recordInboundMessageDelivery (key : ClientKey) (seqId : Option Nat) (s : ClientTracker) :
    ClientTracker :=
  match seqId with
  | none => s
  | some seqId => s.updateClient key fun client => { client with lastInboundSeqId := some seqId }

def isDelivered (s : ClientTracker) (key : ClientKey) : Option Nat → Bool
  | none => false
  | some seqId => (s.clients.lookup key).any fun client => client.lastInboundSeqId.any (seqId ≤ ·)

def spawnClient (env : Surroundings) (key : ClientKey) (connectionId : ConnectionId)
    (isLegacyStreamId : Bool) (s : ClientTracker) : ClientTracker :=
  { s with
    joinSet := s.joinSet ++ [⟨key, connectionId, false⟩]
    clients := s.clients.insert key ⟨connectionId, env.now, none⟩
    legacyStreamIds :=
      if isLegacyStreamId then s.legacyStreamIds.insert key.1 key.2 else s.legacyStreamIds }

/-- The app server does not take the first message: the close event is left to a task. -/
def abandonClient (env : Surroundings) (key : ClientKey) (connectionId : ConnectionId)
    (s : ClientTracker) : ClientTracker :=
  let s := (s.removeClient key).cancel connectionId
  if env.accepts (.connectionClosed connectionId) then
    s.pushTransportEvent (.connectionClosed connectionId)
  else s

def openClient (env : Surroundings) (key : ClientKey) (isLegacyStreamId : Bool)
    (seqId : Option Nat) (message : JSONRPCMessage) : Action := do
  let connectionId := (← get).nextConnectionId
  modify fun s => { s with nextConnectionId := s.nextConnectionId + 1 }
  sendTransportEvent env (.connectionOpened connectionId)
  modify (spawnClient env key connectionId isLegacyStreamId)
  if env.accepts (.incomingMessage connectionId message) then
    modify fun s =>
      let s := s.pushTransportEvent (.incomingMessage connectionId message)
      if isLegacyStreamId then s else s.recordInboundMessageDelivery key seqId
  else do
    modify (abandonClient env key connectionId)
    throw .stopped

def forwardMessage (env : Surroundings) (key : ClientKey) (seqId : Option Nat)
    (connectionId : ConnectionId) (message : JSONRPCMessage) : Action := do
  modify (touch env key)
  sendTransportEvent env (.incomingMessage connectionId message)
  modify (recordInboundMessageDelivery key seqId)

def forwardOrOpen (env : Surroundings) (key : ClientKey) (isLegacyStreamId : Bool)
    (seqId : Option Nat) (message : JSONRPCMessage) : Action := do
  let s ← get
  match s.clients.lookup key with
  | some client => forwardMessage env key seqId client.connectionId message
  | none =>
    if message.startsConnection then openClient env key isLegacyStreamId seqId message
    else pure ()

def handleClientMessage (env : Surroundings) (key : ClientKey) (isLegacyStreamId : Bool)
    (seqId : Option Nat) (message : JSONRPCMessage) : Action := do
  let s ← get
  if s.isDelivered key seqId && !message.startsConnection then pure ()
  else if message.startsConnection && decide (key ∈ s.clients) then do
    closeClient env key
    forwardOrOpen env key isLegacyStreamId seqId message
  else forwardOrOpen env key isLegacyStreamId seqId message

def handleEvent (env : Surroundings) (key : ClientKey) (isLegacyStreamId : Bool)
    (seqId : Option Nat) : ClientEvent JSONRPCMessage → Action
  | .clientMessage message => handleClientMessage env key isLegacyStreamId seqId message
  | .clientMessageChunk .. | .ack _ => pure ()
  | .ping => modify fun s =>
    if key ∈ s.clients then s.touch env key
    else { s with serverEvents := s.serverEvents ++ [⟨.pong .unknown, key⟩] }
  | .clientClosed => closeClient env key

def handleMessage (env : Surroundings) (envelope : ClientEnvelope JSONRPCMessage) : Action := do
  let streamId ← modifyGet (takeStreamId env envelope)
  if streamId = [] then pure ()
  else
    handleEvent env (envelope.clientId, streamId) envelope.streamId.isNone envelope.seqId
      envelope.event

inductive OutboundInput where
  | disconnected
  | queued (message : Option (OutgoingMessage Text Text)) (sent : Bool)
  | status (status : Option PongStatus) (sent : Bool)

/-- One round of `run_client_outbound`: what is sent, or none if the loop ends. -/
def outboundRound : OutboundInput → Option (ServerEvent Text Text)
  | .queued (some message) true => some (.serverMessage message)
  | .status (some status) true => some (.pong status)
  | _ => none

/-- The task of the connection goes on, or finishes. Only a token that is cancelled disconnects. -/
def runOutbound (connectionId : ConnectionId) (input : OutboundInput) (s : ClientTracker) :
    ClientTracker :=
  match s.joinSet.find? fun task => task.connectionId = connectionId && !task.finished with
  | none => s
  | some task =>
    match input, outboundRound input with
    | .disconnected, _ => if connectionId ∈ s.cancelled then finish task else s
    | _, some event => { s with serverEvents := s.serverEvents ++ [⟨event, task.key⟩] }
    | _, none => finish task
where
  finish (task : OutboundTask) : ClientTracker :=
    { s with joinSet := s.joinSet.map fun t => if t = task then { t with finished := true } else t }

inductive Step where
  | message (env : Surroundings) (envelope : ClientEnvelope JSONRPCMessage)
  /-- `bookkeep_join_set` gives the key of a finished task, and its client is closed -/
  | report (env : Surroundings) (task : OutboundTask)
  /-- a task that was aborted or has panicked is passed over -/
  | joinFailed (task : OutboundTask)
  | sweep (env : Surroundings) (order : List ClientKey)
  | outbound (connectionId : ConnectionId) (input : OutboundInput)
  /-- the app server disconnects -/
  | disconnect (connectionId : ConnectionId)
  /-- another transport takes the next connection id -/
  | otherConnection
  | shutdown (env : Surroundings)

def step (s : ClientTracker) : Step → ClientTracker
  | .message env envelope => ((handleMessage env envelope).exec s).2
  | .report env task =>
    if task ∈ s.joinSet ∧ task.finished = true then
      ((closeClient env task.key).exec { s with joinSet := s.joinSet.erase task }).2
    else s
  | .joinFailed task => { s with joinSet := s.joinSet.erase task }
  | .sweep env order => ((closeExpiredClients env order).exec s).2
  | .outbound connectionId input => s.runOutbound connectionId input
  | .disconnect connectionId => s.cancel connectionId
  | .otherConnection => { s with nextConnectionId := s.nextConnectionId + 1 }
  | .shutdown env => s.shutdown env

def run (steps : List Step) : ClientTracker := steps.foldl step new

end ClientTracker

end Codex.RemoteControl

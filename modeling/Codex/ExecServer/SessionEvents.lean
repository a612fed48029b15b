import Codex.NoiseRelay.OrderedCiphertext
import Mathlib.Data.List.AList
import Mathlib.Data.List.Sort

/-! `SessionState` of `exec-server/src/client.rs` and its recovery in
`exec-server/src/client_recovery.rs`. -/

namespace Codex.ExecServer
open Codex.Lib
open Codex.NoiseRelay (ExecServerError)

inductive ExecOutputStream where
  | stdout
  | stderr
  | pty
  deriving DecidableEq, Repr

structure ProcessOutputChunk where
  seq : Nat
  stream : ExecOutputStream
  chunk : Bytes
  deriving DecidableEq, Repr

inductive ExecProcessEvent where
  | output (chunk : ProcessOutputChunk)
  | exited (seq : Nat) (exitCode : Int) (sandboxDenied : Option Bool)
  | closed (seq : Nat)
  | failed (message : Text)
  deriving DecidableEq, Repr

namespace ExecProcessEvent

def seq : ExecProcessEvent → Option Nat
  | output chunk => some chunk.seq
  | exited seq _ _ => some seq
  | closed seq => some seq
  | failed _ => none

def isExited : ExecProcessEvent → Bool
  | exited .. => true
  | _ => false

def isClosed : ExecProcessEvent → Bool
  | closed _ => true
  | _ => false

def bytes : ExecProcessEvent → Nat
  | output chunk => chunk.chunk.length
  | failed message => (Text.bytes message).length
  | exited .. | closed _ => 0

def noteSandboxDenied (sandboxDenied : Bool) : ExecProcessEvent → ExecProcessEvent
  | exited seq exitCode pending => exited seq exitCode (some (pending.getD false || sandboxDenied))
  | event => event

end ExecProcessEvent

structure ReadResponse where
  chunks : List ProcessOutputChunk
  nextSeq : Nat
  exited : Bool
  exitCode : Option Int
  closed : Bool
  failure : Option Text
  sandboxDenied : Bool
  deriving DecidableEq, Repr

structure OrderedSessionEvents where
  lastPublishedSeq : Nat
  exitPublished : Bool
  closedPublished : Bool
  /-- a `BTreeMap` -/
  pending : AList fun _ : Nat => ExecProcessEvent
  pendingBytes : Nat
  failure : Option Text

structure SessionState where
  orderedEvents : OrderedSessionEvents
  events : List ExecProcessEvent

def maxPendingProcessEvents : Nat := 256

def maxPendingProcessEventBytes : Nat := 1024 * 1024

namespace OrderedSessionEvents

def default : OrderedSessionEvents := ⟨0, false, false, ∅, 0, none⟩

def insertPending (s : OrderedSessionEvents) (event : ExecProcessEvent) :
    Except Text OrderedSessionEvents :=
  match event.seq with
  | none => .error "cannot reorder an unsequenced process event".toList
  | some seq =>
    if seq ∈ s.pending then .ok s
    else
      let closesGap := seq = s.lastPublishedSeq + 1
      if ¬ closesGap ∧ maxPendingProcessEvents ≤ s.pending.keys.length then
        .error ("process event reorder buffer exceeds ".toList ++
          Text.decimal maxPendingProcessEvents ++ " entries".toList)
      else if maxPendingProcessEventBytes < event.bytes then
        .error ("process event exceeds ".toList ++ Text.decimal maxPendingProcessEventBytes ++
          " bytes".toList)
      else if ¬ closesGap ∧ maxPendingProcessEventBytes < s.pendingBytes + event.bytes then
        .error ("process event reorder buffer exceeds ".toList ++
          Text.decimal maxPendingProcessEventBytes ++ " bytes".toList)
      else
        .ok { s with
          pending := s.pending.insert seq event
          pendingBytes := s.pendingBytes + event.bytes }

def pendingRange (s : OrderedSessionEvents) (first last : Nat) : List Nat :=
  (s.pending.keys.filter fun seq => first ≤ seq ∧ seq ≤ last).insertionSort (· ≤ ·)

def pendingExit (s : OrderedSessionEvents) (last : Nat) : Option Nat :=
  (s.pendingRange 0 last).find? fun seq => (s.pending.lookup seq).any ExecProcessEvent.isExited

end OrderedSessionEvents

def firstMissingSeq (s : OrderedSessionEvents) (targetSeq : Nat) : Nat :=
  firstGap (s.lastPublishedSeq + 1) (s.pendingRange (s.lastPublishedSeq + 1) targetSeq)

def recoveryGapError (targetSeq : Nat) : ExecServerError :=
  .protocol ("process events are no longer retained while recovering through sequence ".toList ++
    Text.decimal targetSeq)

namespace SessionState

def new : SessionState := ⟨.default, []⟩

def publishNext (s : SessionState) (event : ExecProcessEvent) : SessionState :=
  let o := s.orderedEvents
  { orderedEvents := { o with
      lastPublishedSeq := o.lastPublishedSeq + 1
      exitPublished := o.exitPublished || event.isExited
      closedPublished := o.closedPublished || event.isClosed
      pending := o.pending.erase (o.lastPublishedSeq + 1)
      pendingBytes := o.pendingBytes - event.bytes }
    events := s.events ++ [event] }

/-- Every round takes an event out of `pending`, so `fuel` is how many there are. -/
def publishLoop : Nat → SessionState → SessionState
  | 0, s => s
  | fuel + 1, s =>
    match s.orderedEvents.pending.lookup (s.orderedEvents.lastPublishedSeq + 1) with
    | none => s
    | some event => publishLoop fuel (s.publishNext event)

/-- Whether `Closed` was published is told by `closedPublished`. -/
def publishReady (s : SessionState) : SessionState :=
  publishLoop s.orderedEvents.pending.keys.length s

def isDone (s : SessionState) (seq : Nat) : Bool :=
  s.orderedEvents.failure.isSome || s.orderedEvents.closedPublished ||
    seq ≤ s.orderedEvents.lastPublishedSeq

def insertPending (s : SessionState) (event : ExecProcessEvent) : Except Text SessionState :=
  (s.orderedEvents.insertPending event).map fun o => { s with orderedEvents := o }

def publishOrderedEvent (s : SessionState) (event : ExecProcessEvent) : Except Text SessionState :=
  match event.seq with
  | none => .ok { s with events := s.events ++ [event] }
  | some seq =>
    if s.isDone seq then .ok s else (s.insertPending event).map publishReady

def setFailure (s : SessionState) (message : Text) : SessionState :=
  let o := s.orderedEvents
  if o.failure.isSome || o.closedPublished then s
  else
    { orderedEvents := { o with failure := some message, pending := ∅, pendingBytes := 0 }
      events := s.events ++ [.failed message] }

def handleNotification (s : SessionState) (event : ExecProcessEvent) : SessionState :=
  match s.publishOrderedEvent event with
  | .ok s => s
  | .error message => s.setFailure message

/-- The session that is changed, and an error that leaves it as it is then. -/
abbrev Recovery := Fallible ExecServerError SessionState

def insertEvent (event : ExecProcessEvent) : Recovery Unit := do
  let s ← get
  match s.insertPending event with
  | .ok s => modify fun _ => s
  | .error message => throw (.protocol message)

def exitEvent (response : ReadResponse) (seq : Nat) : Except ExecServerError ExecProcessEvent :=
  match response.exitCode with
  | some exitCode => .ok (.exited seq exitCode (some response.sandboxDenied))
  | none => .error (.protocol "recovering exited process did not include its exit code".toList)

def insertExit (response : ReadResponse) (seq : Nat) : Recovery Unit :=
  match exitEvent response seq with
  | .ok event => insertEvent event
  | .error e => throw e

def recoverExit (response : ReadResponse) (exitKnown : Bool) (chunk : ProcessOutputChunk) :
    Recovery Bool := do
  let s ← get
  let nextSeq := s.orderedEvents.lastPublishedSeq + 1
  if response.exited && !exitKnown && decide (nextSeq < chunk.seq) then do
    insertExit response nextSeq
    modify publishReady
    pure true
  else pure exitKnown

def recoverChunk (chunk : ProcessOutputChunk) : Recovery Unit := do
  let s ← get
  if s.orderedEvents.lastPublishedSeq < chunk.seq then do
    insertEvent (.output chunk)
    modify publishReady
  else pure ()

def recoverChunks (response : ReadResponse) (targetSeq : Nat) :
    List ProcessOutputChunk → Bool → Recovery Bool
  | [], exitKnown => pure exitKnown
  | chunk :: chunks, exitKnown =>
    if targetSeq < chunk.seq then
      throw (.protocol ("recovered process output sequence ".toList ++ Text.decimal chunk.seq ++
        " exceeds target sequence ".toList ++ Text.decimal targetSeq))
    else do
      let exitKnown ← recoverExit response exitKnown chunk
      recoverChunk chunk
      recoverChunks response targetSeq chunks exitKnown

def recoverClosed (response : ReadResponse) (targetSeq : Nat) : Recovery Unit := do
  let s ← get
  if response.closed && !s.orderedEvents.closedPublished &&
      !(s.orderedEvents.pending.lookup targetSeq).any ExecProcessEvent.isClosed then
    insertEvent (.closed targetSeq)
  else pure ()

def missingCount (s : SessionState) (targetSeq : Nat) : Nat :=
  let first := s.orderedEvents.lastPublishedSeq + 1
  let retained := if first ≤ targetSeq then (s.orderedEvents.pendingRange first targetSeq).length
    else 0
  targetSeq - s.orderedEvents.lastPublishedSeq - retained

def recoverGap (response : ReadResponse) (targetSeq : Nat) (exitKnown : Bool) :
    Recovery Unit := do
  let s ← get
  if response.exited && !exitKnown then
    if s.missingCount targetSeq ≠ 1 then throw (recoveryGapError targetSeq)
    else insertExit response (firstMissingSeq s.orderedEvents targetSeq)
  else if s.missingCount targetSeq ≠ 0 then throw (recoveryGapError targetSeq)
  else pure ()

def noteSandboxDenied (sandboxDenied : Bool) (seq : Nat) (s : SessionState) : SessionState :=
  match s.orderedEvents.pending.lookup seq with
  | none => s
  | some event =>
    { s with orderedEvents := { s.orderedEvents with
        pending := s.orderedEvents.pending.insert seq (event.noteSandboxDenied sandboxDenied) } }

def conflictsWithClose (s : SessionState) (response : ReadResponse) (targetSeq : Nat) : Bool :=
  (s.orderedEvents.pending.lookup targetSeq).any (fun event => !event.isClosed) ||
    response.chunks.any fun chunk => chunk.seq = targetSeq

def recoverPending (response : ReadResponse) (targetSeq : Nat) : Recovery Unit := do
  let s ← get
  let pendingExit := s.orderedEvents.pendingExit targetSeq
  modify fun s => pendingExit.elim s fun seq => s.noteSandboxDenied response.sandboxDenied seq
  if response.closed && s.conflictsWithClose response targetSeq then
    throw (.protocol ("process close sequence ".toList ++ Text.decimal targetSeq ++
      " conflicts with recovered output".toList))
  else do
    let exitKnown ← recoverChunks response targetSeq response.chunks
      (s.orderedEvents.exitPublished || pendingExit.isSome)
    recoverClosed response targetSeq
    recoverGap response targetSeq exitKnown
    modify publishReady

def recoverEvents (response : ReadResponse) : Recovery Unit := do
  match response.failure with
  | some message =>
    throw (.protocol ("process failed while recovering: ".toList ++ message))
  | none => do
    let s ← get
    if s.isDone (response.nextSeq - 1) then pure ()
    else recoverPending response (response.nextSeq - 1)

end SessionState

end Codex.ExecServer

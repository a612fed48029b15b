import Codex.Rollout.RollbackPlan
import Mathlib.Algebra.Order.Ring.Nat

/-! `ThreadHistoryBuilder` of `app-server-protocol/src/protocol/thread_history.rs`. An item that
`item_builders.rs` or a conversion makes from an event is represented by its id and that event.
Times, root turn ids and change sets are left out, and so is the index of a turn's items, which only
finds the first item with an id faster. -/

namespace Codex.Transcript
open Codex.Lib Codex.Rollout

inductive TurnStatus
  | completed
  | interrupted
  | failed
  | inProgress
  deriving DecidableEq

inductive UserInput
  | text (text : Text) (textElements : List Text)
  | image (image : ImageReference) (detail : Option ImageDetail)
  | localImage (path : Text) (detail : Option ImageDetail)
  | audio (url : Text)
  | localAudio (path : Text)
  deriving DecidableEq

inductive ThreadItem
  | userMessage (id : Text) (clientId : Option Text) (content : List UserInput)
  | hookPrompt (id : Text) (content : List ContentItem)
  | agentMessage (id text unread : Text)
  | reasoning (id : Text) (summary content : List Text)
  | contextCompaction (id : Text)
  | ofEvent (id : Text) (event : EventMsg)
  deriving DecidableEq

def ThreadItem.id : ThreadItem → Text
  | .userMessage id _ _ => id
  | .hookPrompt id _ => id
  | .agentMessage id _ _ => id
  | .reasoning id _ _ => id
  | .contextCompaction id => id
  | .ofEvent id _ => id

structure PendingTurn where
  id : Text
  items : List ThreadItem
  error : Option Text
  status : TurnStatus
  openedExplicitly : Bool
  sawCompaction : Bool
  deriving DecidableEq

def modifyFirst {α : Type} (p : α → Bool) (f : α → α) : List α → List α
  | [] => []
  | x :: xs => if p x then f x :: xs else x :: modifyFirst p f xs

def upsert (items : List ThreadItem) (item : ThreadItem) : List ThreadItem :=
  if items.any (·.id = item.id) then modifyFirst (·.id = item.id) (fun _ => item) items
  else items ++ [item]

def PendingTurn.push (turn : PendingTurn) (item : ThreadItem) : PendingTurn :=
  { turn with items := turn.items ++ [item] }

def PendingTurn.upsert (turn : PendingTurn) (item : ThreadItem) : PendingTurn :=
  { turn with items := Transcript.upsert turn.items item }

structure Builder where
  turns : List PendingTurn
  currentTurn : Option PendingTurn
  nextItemIndex : Nat
  currentRolloutIndex : Nat
  nextRolloutIndex : Nat

def Builder.new : Builder := ⟨[], none, 1, 0, 0⟩

def rolloutTurnId (index : Nat) : Text := "rollout-".toList ++ Text.decimal index

def itemId (index : Nat) : Text := "item-".toList ++ Text.decimal index

namespace Builder

def newTurn (b : Builder) (id : Option Text) : PendingTurn :=
  ⟨id.getD (rolloutTurnId b.currentRolloutIndex), [], none, .completed, false, false⟩

/-- A turn that was not started explicitly is only kept with an item or a compaction. -/
def finishCurrentTurn (b : Builder) : Builder :=
  match b.currentTurn with
  | some turn =>
    if turn.items.isEmpty && !turn.openedExplicitly && !turn.sawCompaction then
      { b with currentTurn := none }
    else { b with currentTurn := none, turns := b.turns ++ [turn] }
  | none => b

def ensureTurn (b : Builder) : PendingTurn := b.currentTurn.getD (b.newTurn none)

def withCurrent (b : Builder) (turn : PendingTurn) : Builder := { b with currentTurn := some turn }

def nextItemId (b : Builder) : Text × Builder :=
  (itemId b.nextItemIndex, { b with nextItemIndex := b.nextItemIndex + 1 })

def pushItemInCurrentTurn (b : Builder) (item : ThreadItem) : Builder :=
  b.withCurrent (b.ensureTurn.push item)

def upsertItemInCurrentTurn (b : Builder) (item : ThreadItem) : Builder :=
  b.withCurrent (b.ensureTurn.upsert item)

/-- The current turn if it has the id, or else the first finished turn that has it. -/
def modifyTurn (b : Builder) (turnId : Text) (f : PendingTurn → PendingTurn) : Builder :=
  match b.currentTurn.filter (·.id = turnId) with
  | some turn => b.withCurrent (f turn)
  | none => { b with turns := modifyFirst (·.id = turnId) f b.turns }

def hasTurn (b : Builder) (turnId : Text) : Bool :=
  b.currentTurn.any (·.id = turnId) || b.turns.any (·.id = turnId)

/-- An item for an unknown turn is dropped. -/
def upsertItemInTurnId (b : Builder) (turnId : Text) (item : ThreadItem) : Builder :=
  b.modifyTurn turnId (·.upsert item)

/-- Review mode opens the turn that it names. -/
def upsertReviewModeItem (b : Builder) (turnId : Option Text) (item : ThreadItem) : Builder :=
  match turnId with
  | none => b.upsertItemInCurrentTurn item
  | some turnId =>
    let b := if b.hasTurn turnId then b
      else
        let b := b.finishCurrentTurn
        b.withCurrent (b.newTurn (some turnId))
    b.upsertItemInTurnId turnId item

end Builder

def orderedImages : List UserMessageImageKind → List (Text × Option ImageDetail) →
    List (Text × Option ImageDetail) → List UserInput
  | [], _, _ => []
  | .inline :: order, (url, detail) :: images, files =>
    .image (.inline url) detail :: orderedImages order images files
  | .file :: order, images, (fileId, detail) :: files =>
    .image (.file fileId) detail :: orderedImages order images files
  | _ :: order, images, files => orderedImages order images files

def withDetails (values : List Text) (details : List (Option ImageDetail)) :
    List (Text × Option ImageDetail) :=
  values.zipIdx.map fun (value, i) => (value, (details[i]?).join)

def buildUserInputs (payload : UserMessageEvent) : List UserInput :=
  let text := if (Text.trim payload.message).isEmpty then []
    else [.text payload.message payload.textElements]
  let images := withDetails (payload.images.getD []) payload.imageDetails
  let files := withDetails (payload.fileIds.getD []) payload.fileIdDetails
  let pictures :=
    if payload.hasCompleteImageOrder then orderedImages payload.imageOrder images files
    else images.map (fun (url, detail) => .image (.inline url) detail) ++
      files.map (fun (fileId, detail) => .image (.file fileId) detail)
  text ++ pictures ++
    (withDetails payload.localImages payload.localImageDetails).map
      (fun (path, detail) => .localImage path detail) ++
    (payload.audio.getD []).map .audio ++ payload.localAudio.map .localAudio

namespace Builder

/-- A turn that was not started explicitly holds one user message. -/
def handleUserMessage (b : Builder) (payload : UserMessageEvent) : Builder :=
  let b := match b.currentTurn with
    | some turn =>
      if !turn.openedExplicitly && !(turn.sawCompaction && turn.items.isEmpty) then
        b.finishCurrentTurn
      else b
    | none => b
  let (id, b) := b.nextItemId
  b.pushItemInCurrentTurn (.userMessage id payload.clientId (buildUserInputs payload))

def handleAgentMessage (b : Builder) (message unread : Text) : Builder :=
  if message.isEmpty then b
  else
    let (id, b) := b.nextItemId
    b.pushItemInCurrentTurn (.agentMessage id message unread)

/-- Adds to the last item if that is reasoning, and else starts an item. -/
def addReasoning (b : Builder) (summary content : List Text) : Builder :=
  let turn := b.ensureTurn
  match turn.items.getLast? with
  | some (.reasoning id oldSummary oldContent) =>
    let item := .reasoning id (oldSummary ++ summary) (oldContent ++ content)
    b.withCurrent { turn with items := turn.items.dropLast ++ [item] }
  | _ =>
    let (id, b) := b.nextItemId
    b.pushItemInCurrentTurn (.reasoning id summary content)

def handleAgentReasoning (b : Builder) (text : Text) : Builder :=
  if text.isEmpty then b else b.addReasoning [text] []

def handleAgentReasoningRawContent (b : Builder) (text : Text) : Builder :=
  if text.isEmpty then b else b.addReasoning [] [text]

def handleContextCompacted (b : Builder) : Builder :=
  let (id, b) := b.nextItemId
  b.pushItemInCurrentTurn (.contextCompaction id)

/-- `handle_materialized_item_lifecycle`: the kinds that other events do not show. -/
def handleItemLifecycle (b : Builder) (event : EventMsg) (turnId : Text) (item : LifecycleItem) :
    Builder :=
  match item with
  | .plan id text => if text.isEmpty then b else b.upsertItemInTurnId turnId (.ofEvent id event)
  | .item kind id _ =>
    match kind with
    | .hookPrompt => b.upsertItemInTurnId turnId (.ofEvent id event)
    | .functionCallOutput => b.upsertItemInTurnId turnId (.ofEvent id event)
    | .commandExecution => b.upsertItemInTurnId turnId (.ofEvent id event)
    | .dynamicToolCall => b.upsertItemInTurnId turnId (.ofEvent id event)
    | .collabAgentToolCall => b.upsertItemInTurnId turnId (.ofEvent id event)
    | .subAgentActivity => b.upsertItemInTurnId turnId (.ofEvent id event)
    | .extension => b.upsertItemInTurnId turnId (.ofEvent id event)
    | .enteredReviewMode => b.upsertReviewModeItem (some turnId) (.ofEvent id event)
    | .exitedReviewMode => b.upsertReviewModeItem (some turnId) (.ofEvent id event)
    | _ => b

def upsertTurnCall (b : Builder) (turnId : Text) (item : ThreadItem) : Builder :=
  if turnId.isEmpty then b.upsertItemInCurrentTurn item else b.upsertItemInTurnId turnId item

def guardianItemId (event : GuardianAssessmentEvent) : Option Text :=
  match event.action with
  | .command => event.targetItemId
  | .execve => event.targetItemId
  | _ => none

def handleGuardianAssessment (b : Builder) (event : GuardianAssessmentEvent) : Builder :=
  if event.status = .approved then b
  else match guardianItemId event with
    | some id => b.upsertTurnCall event.turnId (.ofEvent id (.guardianAssessment event))
    | none => b

def handleReviewMode (b : Builder) (event : EventMsg) (turnId : Option Text)
    (review : ReviewModeEvent) : Builder :=
  match review.itemId with
  | some id => b.upsertReviewModeItem turnId (.ofEvent id event)
  | none =>
    let (id, b) := b.nextItemId
    b.upsertReviewModeItem turnId (.ofEvent id event)

def affectsTurnStatus : Option CodexErrorInfo → Bool
  | some .threadRollbackFailed => false
  | some .activeTurnNotSteerable => false
  | _ => true

def handleError (b : Builder) (info : Option CodexErrorInfo) (message : Text) : Builder :=
  if affectsTurnStatus info then
    { b with currentTurn := b.currentTurn.map fun turn =>
        { turn with status := .failed, error := some message } }
  else b

def applyAbort (outcome : TurnOutcome) (turn : PendingTurn) : PendingTurn :=
  { turn with status := .interrupted, error := outcome.error.or turn.error }

def handleTurnAborted (b : Builder) (turnId : Option Text) (outcome : TurnOutcome) : Builder :=
  match turnId.filter b.hasTurn with
  | some turnId => b.modifyTurn turnId (applyAbort outcome)
  | none => { b with currentTurn := b.currentTurn.map (applyAbort outcome) }

def handleTurnStarted (b : Builder) (turnId : Text) : Builder :=
  let b := b.finishCurrentTurn
  b.withCurrent { b.newTurn (some turnId) with status := .inProgress, openedExplicitly := true }

def applyCompletion (outcome : TurnOutcome) (turn : PendingTurn) : PendingTurn :=
  match outcome.error with
  | some error => { turn with status := .failed, error := some error }
  | none =>
    if turn.status = .completed ∨ turn.status = .inProgress then
      { turn with status := .completed }
    else turn

/-- A completion that names a finished turn leaves the current one open. -/
def handleTurnComplete (b : Builder) (turnId : Text) (outcome : TurnOutcome) : Builder :=
  match b.currentTurn.filter (·.id = turnId) with
  | some turn => (b.withCurrent (applyCompletion outcome turn)).finishCurrentTurn
  | none =>
    if b.turns.any (·.id = turnId) then
      { b with turns := modifyFirst (·.id = turnId) (applyCompletion outcome) b.turns }
    else { b with currentTurn := b.currentTurn.map (applyCompletion outcome) }.finishCurrentTurn

def handleCompacted (b : Builder) : Builder :=
  b.withCurrent { b.ensureTurn with sawCompaction := true }

def handleThreadRollback (b : Builder) (numTurns : Nat) : Builder :=
  let b := b.finishCurrentTurn
  let turns := b.turns.take (b.turns.length - numTurns)
  { b with turns := turns, nextItemIndex := (turns.map (·.items.length)).sum + 1 }

def handleEvent (b : Builder) (event : EventMsg) : Builder :=
  match event with
  | .userMessage payload => b.handleUserMessage payload
  | .agentMessage message unread => b.handleAgentMessage message unread
  | .agentReasoning text => b.handleAgentReasoning text
  | .agentReasoningRawContent text => b.handleAgentReasoningRawContent text
  | .activeTurnCall _ call => b.upsertItemInCurrentTurn (.ofEvent call.callId event)
  | .execCommandBegin turnId call => b.upsertItemInTurnId turnId (.ofEvent call.callId event)
  | .execCommandEnd turnId call => b.upsertItemInTurnId turnId (.ofEvent call.callId event)
  | .guardianAssessment assessment => b.handleGuardianAssessment assessment
  | .turnCall _ turnId call => b.upsertTurnCall turnId (.ofEvent call.callId event)
  | .contextCompacted => b.handleContextCompacted
  | .enteredReviewMode turnId review => b.handleReviewMode event turnId review
  | .exitedReviewMode turnId review => b.handleReviewMode event turnId review
  | .itemStarted turnId item => b.handleItemLifecycle event turnId item
  | .itemCompleted turnId item => b.handleItemLifecycle event turnId item
  | .error info message => b.handleError info message
  | .threadRolledBack numTurns => b.handleThreadRollback numTurns
  | .turnAborted turnId outcome => b.handleTurnAborted turnId outcome
  | .turnStarted turnId _ => b.handleTurnStarted turnId
  | .turnComplete turnId outcome => b.handleTurnComplete turnId outcome
  | .other _ => b

end Builder

def isHookPromptMessage (r : Rules) (content : List ContentItem) : Bool :=
  !content.isEmpty && content.all fun
    | .inputText text => r.isHookPrompt text
    | _ => false

-- `promptId` is the id of a hook prompt: that of its message, or a new one
variable (r : Rules) (promptId : Nat → ResponseItem → Text)

namespace Builder

def handleResponseItem (b : Builder) (item : ResponseItem) : Builder :=
  match item with
  | .message role content _ _ =>
    if role = "user".toList ∧ isHookPromptMessage r content then
      b.pushItemInCurrentTurn (.hookPrompt (promptId b.currentRolloutIndex item) content)
    else b
  | _ => b

def handleRecord (b : Builder) (item : RolloutItem) : Builder :=
  match item with
  | .eventMsg event => b.handleEvent event
  | .compacted _ => b.handleCompacted
  | .responseItem response => b.handleResponseItem r promptId response.item
  | _ => b

def advance (b : Builder) : Builder :=
  { b with
    currentRolloutIndex := b.nextRolloutIndex
    nextRolloutIndex := b.nextRolloutIndex + 1 }

def handleRolloutItem (b : Builder) (item : RolloutItem) : Builder :=
  b.advance.handleRecord r promptId item

def handleRolloutItems (b : Builder) (items : List RolloutItem) : Builder :=
  items.foldl (handleRolloutItem r promptId) b

end Builder

def buildTurnsFromRolloutItems (items : List RolloutItem) : List PendingTurn :=
  (Builder.new.handleRolloutItems r promptId items).finishCurrentTurn.turns

def plainPrompt (text : String) : RolloutItem :=
  .eventMsg (.userMessage ⟨none, text.toList, none, [], none, [], [], [], [], none, [], []⟩)

end Codex.Transcript

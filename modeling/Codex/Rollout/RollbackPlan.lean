import Codex.Rollout.History
import Codex.Rollout.ReverseReplay

/-! `thread-store/src/local/rollout_migration/rollback_plan.rs` and the planner of
`rollback_replay.rs`. Without retained context and acceptance orders, a boundary is known by whether
it is alive. -/

namespace Codex.Rollout
open Codex.Lib

def migrationReplayRecord (r : Rules) (recordIndex : Nat) :
    RolloutItem → Option (ReplayRecord Nat)
  | .compacted c =>
    some (.compacted (if c.replacementHistory.isSome then some recordIndex else none))
  | .eventMsg (.threadRolledBack numTurns) => some (.rollback numTurns)
  | .eventMsg (.turnStarted turnId _) => some (.turnStarted turnId)
  | .eventMsg (.turnComplete turnId _) => some (.turnComplete turnId)
  | .eventMsg (.turnAborted turnId _) => some (.turnAborted turnId)
  | .turnContext context => some (.turnContext context.turnId)
  | .eventMsg (.userMessage _) => some (.item true)
  | .interAgentCommunication _ => some (.item true)
  | .responseItem response => if countsAsBoundary r response.item then some (.item true) else none
  | _ => none

/-- `ModelReplayPlanner::finish`: the compaction that is to become an empty checkpoint. -/
def emptyReplacementHistoryCompaction (records : List (ReplayRecord Nat)) : Option Nat :=
  let s := reverseReplay none records
  if s.selected.isNone then s.suffixStart else none

structure CompactionFrame where
  recordIndex : Nat
  boundaryDepth : Nat
  owner : Option Nat
  item : CompactedItem

structure PendingUserResponse where
  boundary : Nat
  content : List ContentItem

structure RollbackPlanner where
  recordBoundaries : List (Option Nat)
  boundaryAlive : List Bool
  /-- the boundaries that stand, the newest last -/
  boundaryStack : List Nat
  activeTurnId : Option Text
  pendingTurnRecords : List Nat
  pendingContextRecords : List Nat
  pendingUserResponse : Option PendingUserResponse
  pendingDeliveryBoundary : Option Nat
  turnBoundaries : Text → Option Nat
  compactions : List CompactionFrame
  modelReplay : List (ReplayRecord Nat)

def RollbackPlanner.new : RollbackPlanner :=
  ⟨[], [], [], none, [], [], none, none, fun _ => none, [], []⟩

def setAll {α : Type} (indices : List Nat) (x : α) (l : List α) : List α :=
  indices.foldl (fun l i => l.set i x) l

def RollbackPlanner.startBoundary (s : RollbackPlanner) (index : Nat) : RollbackPlanner :=
  let boundary := s.boundaryAlive.length
  let recordBoundaries :=
    if s.boundaryStack.isEmpty then s.recordBoundaries
    else setAll s.pendingContextRecords (some boundary) s.recordBoundaries
  let recordBoundaries := setAll s.pendingTurnRecords (some boundary) recordBoundaries
  { s with
    recordBoundaries := recordBoundaries.set index (some boundary)
    boundaryAlive := s.boundaryAlive ++ [true]
    boundaryStack := s.boundaryStack ++ [boundary]
    pendingTurnRecords := []
    pendingContextRecords := []
    turnBoundaries := match s.activeTurnId with
      | some turnId => Function.update s.turnBoundaries turnId (some boundary)
      | none => s.turnBoundaries }

def RollbackPlanner.isUnbound (s : RollbackPlanner) : Bool :=
  s.activeTurnId.any fun turnId => (s.turnBoundaries turnId).isNone

def RollbackPlanner.assignTargetedRecord (s : RollbackPlanner) (index : Nat)
    (turnId : Option Text) : RollbackPlanner :=
  match turnId.bind s.turnBoundaries with
  | some boundary => { s with recordBoundaries := s.recordBoundaries.set index (some boundary) }
  | none =>
    if s.isUnbound then { s with pendingTurnRecords := s.pendingTurnRecords ++ [index] } else s

def RollbackPlanner.endTurn (s : RollbackPlanner) (turnId : Text) : RollbackPlanner :=
  if s.activeTurnId = some turnId then { s with activeTurnId := none, pendingTurnRecords := [] }
  else s

/-- Whether the owner of a frame, if it has one, is alive. -/
def CompactionFrame.stands (boundaryAlive : List Bool) (frame : CompactionFrame) : Bool :=
  frame.owner.all fun boundary => boundaryAlive.getD boundary false

/-- The part of a rollback that reaches behind a checkpoint is taken from its history. -/
def CompactionFrame.rollBack (r : Rules) (count depthBefore : Nat) (frame : CompactionFrame) :
    Except Text CompactionFrame :=
  let postCompactionTurns := depthBefore - frame.boundaryDepth
  let remaining := count - postCompactionTurns
  if remaining > 0 then
    match frame.item.replacementHistory with
    | some replacementHistory =>
      let reduced := dropLastNUserTurnsOfCheckpoint r remaining replacementHistory
      let item := { frame.item with mcpResourceOrigins := none, replacementHistory := some reduced }
      .ok { frame with item := item }
    | none => .error "legacy rollback crosses a compaction without replacement history".toList
  else .ok frame

/-- Only the newest frame that stands is reduced. -/
def rollBackNewest (r : Rules) (count depthBefore : Nat) (boundaryAlive : List Bool) :
    List CompactionFrame → Except Text (List CompactionFrame)
  | [] => .ok []
  | frame :: frames =>
    if frames.any (·.stands boundaryAlive) then
      (rollBackNewest r count depthBefore boundaryAlive frames).map (frame :: ·)
    else if frame.stands boundaryAlive then
      (frame.rollBack r count depthBefore).map (· :: frames)
    else .ok (frame :: frames)

def RollbackPlanner.applyRollback (r : Rules) (s : RollbackPlanner) (count : Nat) :
    Except Text RollbackPlanner :=
  if count = 0 then .ok s
  else do
    let depthBefore := s.boundaryStack.length
    let removed := s.boundaryStack.drop (depthBefore - count)
    let boundaryAlive := setAll removed false s.boundaryAlive
    let compactions ← rollBackNewest r count depthBefore boundaryAlive s.compactions
    return { s with
      boundaryAlive := boundaryAlive
      boundaryStack := s.boundaryStack.take (depthBefore - count)
      compactions := compactions
      activeTurnId := none
      pendingTurnRecords := []
      pendingContextRecords := []
      pendingUserResponse := none
      pendingDeliveryBoundary := none }

def explicitEventTurnId (event : EventMsg) : Option Text :=
  (match event with
    | .execCommandEnd turnId _ => some turnId
    | .turnCall .patchApplyEnd turnId _ => some turnId
    | .turnCall .dynamicToolCallResponse turnId _ => some turnId
    | .enteredReviewMode turnId _ => turnId
    | .exitedReviewMode turnId _ => turnId
    | _ => none).filter (· ≠ [])

def UserMessageEvent.hasCompleteImageOrder (event : UserMessageEvent) : Bool :=
  !event.imageOrder.isEmpty &&
    event.imageOrder.count .inline = (event.images.map List.length).getD 0 &&
    event.imageOrder.count .file = (event.fileIds.map List.length).getD 0

def userResponseMatchesEvent (content : List ContentItem) (event : UserMessageEvent) : Bool :=
  let hasOutput := content.any fun
    | .outputText _ => true
    | _ => false
  let text := content.flatMap fun
    | .inputText text => text
    | _ => []
  let images := content.filterMap fun
    | .inputImage (.inline imageUrl) => some imageUrl
    | _ => none
  let fileIds := content.filterMap fun
    | .inputImage (.file fileId) => some fileId
    | _ => none
  let imageOrder := content.filterMap fun
    | .inputImage (.inline _) => some UserMessageImageKind.inline
    | .inputImage (.file _) => some UserMessageImageKind.file
    | _ => none
  let audio := content.filterMap fun
    | .inputAudio audioUrl => some audioUrl
    | _ => none
  !hasOutput && text = event.message &&
    (!event.hasCompleteImageOrder || imageOrder = event.imageOrder) &&
    images = event.images.getD [] && fileIds = event.fileIds.getD [] &&
    audio = event.audio.getD [] && event.localImages.isEmpty && event.localAudio.isEmpty

/-- The boundary that a user message event shares with the response item before it. -/
def RollbackPlanner.pairedUserBoundary (s : RollbackPlanner) (event : UserMessageEvent) :
    Option Nat :=
  (s.pendingUserResponse.filter fun pending => userResponseMatchesEvent pending.content event).map
    (·.boundary)

def RollbackPlanner.enter (r : Rules) (s : RollbackPlanner) (item : RolloutItem) :
    RollbackPlanner :=
  let index := s.recordBoundaries.length
  { s with
    modelReplay := s.modelReplay ++ (migrationReplayRecord r index item).toList
    recordBoundaries := s.recordBoundaries ++ [s.boundaryStack.getLast?]
    pendingUserResponse := none
    pendingDeliveryBoundary := none }

def RollbackPlanner.observeResponse (r : Rules) (s : RollbackPlanner) (index : Nat)
    (pairedDeliveryBoundary : Option Nat) (response : ResponseItem) : RollbackPlanner :=
  match pairedDeliveryBoundary, response with
  | some boundary, .agentMessage .. =>
    { s with recordBoundaries := s.recordBoundaries.set index (some boundary) }
  | _, _ =>
    if countsAsBoundary r response then
      let boundary := s.boundaryAlive.length
      let s := s.startBoundary index
      match response with
      | .message role content _ _ =>
        if role = "user".toList then { s with pendingUserResponse := some ⟨boundary, content⟩ }
        else s
      | _ => s
    else if isPreTurnContextUpdate r response then
      { s with pendingContextRecords := s.pendingContextRecords ++ [index] }
    else s

def RollbackPlanner.observe (r : Rules) (old : RollbackPlanner) (item : RolloutItem) :
    Except Text RollbackPlanner :=
  let index := old.recordBoundaries.length
  let s := old.enter r item
  match item with
  | .sessionMeta _ => .ok { s with recordBoundaries := s.recordBoundaries.set index none }
  | .responseItem response =>
    .ok (s.observeResponse r index old.pendingDeliveryBoundary response.item)
  | .eventMsg (.threadRolledBack numTurns) => s.applyRollback r numTurns
  | .eventMsg (.turnStarted turnId _) =>
    .ok { s with activeTurnId := some turnId, pendingTurnRecords := [index] }
  | .eventMsg (.turnComplete turnId _) =>
    .ok ((s.assignTargetedRecord index (some turnId)).endTurn turnId)
  | .eventMsg (.turnAborted turnId _) =>
    let s := s.assignTargetedRecord index turnId
    .ok (turnId.elim s s.endTurn)
  | .eventMsg (.userMessage event) =>
    match old.pairedUserBoundary event with
    | some boundary =>
      .ok { s with recordBoundaries := s.recordBoundaries.set index (some boundary) }
    | none => .ok (s.startBoundary index)
  | .eventMsg (.itemCompleted turnId _) => .ok (s.assignTargetedRecord index (some turnId))
  | .eventMsg event => .ok (s.assignTargetedRecord index (explicitEventTurnId event))
  | .interAgentCommunication _ => .ok (s.startBoundary index)
  | .interAgentCommunicationMetadata _ =>
    let boundary := s.boundaryAlive.length
    .ok { s.startBoundary index with pendingDeliveryBoundary := some boundary }
  | .compacted c =>
    let owner := s.activeTurnId.bind s.turnBoundaries
    .ok { s with
      recordBoundaries := s.recordBoundaries.set index owner
      compactions := s.compactions ++ [⟨index, s.boundaryStack.length, owner, c⟩] }
  | .turnContext _ =>
    .ok (if s.isUnbound then { s with pendingTurnRecords := s.pendingTurnRecords ++ [index] }
      else s)
  | .tokenUsageRecord turnId _ => .ok (s.assignTargetedRecord index (some turnId))
  | .worldState _ _ => .ok s
  | .realtimeItem _ => .ok s
  | .securityRiskScore _ => .ok { s with recordBoundaries := s.recordBoundaries.set index none }

structure RollbackPlan where
  recordBoundaries : List (Option Nat)
  boundaryAlive : List Bool
  /-- keyed by record index, of which no two frames have the same -/
  compactedItems : List (Nat × CompactedItem)

def CompactionFrame.planned (replayAnchor : Option Nat) (boundaryAlive : List Bool)
    (frame : CompactionFrame) : Option (Nat × CompactedItem) :=
  if some frame.recordIndex = replayAnchor then
    let item := { frame.item with replacementHistory := some [], mcpResourceOrigins := none }
    some (frame.recordIndex, item)
  else if frame.stands boundaryAlive then some (frame.recordIndex, frame.item)
  else none

def RollbackPlanner.finish (s : RollbackPlanner) : RollbackPlan where
  recordBoundaries := s.recordBoundaries
  boundaryAlive := s.boundaryAlive
  compactedItems :=
    let replayAnchor := emptyReplacementHistoryCompaction s.modelReplay
    s.compactions.filterMap (·.planned replayAnchor s.boundaryAlive)

def isThreadRolledBack : RolloutItem → Bool
  | .eventMsg (.threadRolledBack _) => true
  | _ => false

def RollbackPlan.apply (plan : RollbackPlan) (recordIndex : Nat) (item : RolloutItem) :
    Except Text (Option RolloutItem) :=
  match plan.recordBoundaries[recordIndex]? with
  | none => .error "rollback plan is shorter than source replay".toList
  | some boundary =>
    if isThreadRolledBack item then .ok none
    else match plan.compactedItems.lookup recordIndex with
      | some compacted => .ok (some (.compacted compacted))
      | none =>
        if boundary.any fun boundary => !plan.boundaryAlive.getD boundary false then .ok none
        else .ok (some item)

def RollbackPlan.applyFrom (plan : RollbackPlan) :
    Nat → List RolloutItem → Except Text (List RolloutItem)
  | _, [] => .ok []
  | recordIndex, item :: items => do
    let kept ← plan.apply recordIndex item
    let rest ← plan.applyFrom (recordIndex + 1) items
    return kept.toList ++ rest

def migrateRecords (r : Rules) (items : List RolloutItem) : Except Text (List RolloutItem) := do
  let planner ← items.foldlM (RollbackPlanner.observe r) .new
  planner.finish.applyFrom 0 items

end Codex.Rollout

import Codex.Rollout.Reconstruction

/-! What `reconstruct_history_from_rollout` of `core/src/session/rollout_reconstruction.rs` finds
besides the history. World-state baselines, context windows and retained context are left out. -/

namespace Codex.Rollout
open Codex.Lib

/-- A compaction clears what was established before it; `neverSet` is not known to have been. -/
inductive TurnReferenceContextItem
  | neverSet
  | cleared
  | latest (context : TurnContextItem)

structure ActiveReplaySegment where
  turnId : Option Text
  turnCompleted : Bool
  countsAsUserTurn : Bool
  previousTurnSettings : Option PreviousTurnSettings
  referenceContextItem : TurnReferenceContextItem
  -- compactions and world states, from the newest to the oldest
  worldStateReplay : List RolloutItem
  historyCheckpoint : Option ReplayCheckpoint

def ActiveReplaySegment.default : ActiveReplaySegment :=
  ⟨none, false, false, none, .neverSet, [], none⟩

structure ReplayScan where
  historyCheckpoint : Option ReplayCheckpoint
  previousTurnSettings : Option PreviousTurnSettings
  referenceContextItem : TurnReferenceContextItem
  pendingRollbackTurns : Nat
  activeSegment : Option ActiveReplaySegment

def TurnContextItem.settings (ctx : TurnContextItem) : PreviousTurnSettings :=
  ⟨ctx.model, ctx.cyberAccessProgram, ctx.compHash, ctx.realtimeActive⟩

def RolloutItem.isCompacted : RolloutItem → Bool
  | .compacted _ => true
  | _ => false

def RolloutItem.isFullWorldState : RolloutItem → Bool
  | .worldState full _ => full
  | _ => false

def TurnReferenceContextItem.isNeverSet : TurnReferenceContextItem → Bool
  | .neverSet => true
  | _ => false

def TurnReferenceContextItem.isCleared : TurnReferenceContextItem → Bool
  | .cleared => true
  | _ => false

/-- A full snapshot newer than the latest compaction of a segment is a baseline too. -/
def ActiveReplaySegment.hasContextBaseline (segment : ActiveReplaySegment) : Bool :=
  segment.countsAsUserTurn ||
    (segment.worldStateReplay.takeWhile (!·.isCompacted)).any (·.isFullWorldState)

def finalizeActiveSegment (s : ReplayScan) (segment : ActiveReplaySegment) : ReplayScan :=
  if s.pendingRollbackTurns > 0 then
    if segment.countsAsUserTurn then
      { s with pendingRollbackTurns := s.pendingRollbackTurns - 1 }
    else s
  else
    { s with
      historyCheckpoint := s.historyCheckpoint.or segment.historyCheckpoint
      previousTurnSettings :=
        if s.previousTurnSettings.isNone && segment.hasContextBaseline then
          segment.previousTurnSettings
        else s.previousTurnSettings
      referenceContextItem :=
        if s.referenceContextItem.isNeverSet &&
            (segment.hasContextBaseline || segment.referenceContextItem.isCleared) then
          segment.referenceContextItem
        else s.referenceContextItem }

def scanItem (r : Rules) (suffix : List RolloutItem) (item : RolloutItem) (s : ReplayScan) :
    ReplayScan :=
  let segment := s.activeSegment.getD .default
  match item with
  | .compacted c =>
    let reference := if segment.referenceContextItem.isNeverSet then .cleared
      else segment.referenceContextItem
    let checkpoint := segment.historyCheckpoint.or
      (if c.replacementHistory.isSome then some ⟨c, suffix⟩ else none)
    { s with activeSegment := some { segment with
        worldStateReplay := segment.worldStateReplay ++ [item]
        referenceContextItem := reference
        historyCheckpoint := checkpoint } }
  | .eventMsg (.threadRolledBack numTurns) =>
    { s with pendingRollbackTurns := s.pendingRollbackTurns + numTurns }
  | .eventMsg (.turnComplete turnId _) =>
    { s with activeSegment := some { segment with
        turnCompleted := true
        turnId := segment.turnId.or (some turnId) } }
  | .eventMsg (.turnAborted turnId _) =>
    if s.activeSegment.isNone && turnId.isNone then s
    else { s with activeSegment := some { segment with turnId := segment.turnId.or turnId } }
  | .eventMsg (.userMessage _) =>
    { s with activeSegment := some { segment with countsAsUserTurn := true } }
  | .turnContext ctx =>
    let segment := { segment with turnId := segment.turnId.or ctx.turnId }
    if turnIdsAreCompatible segment.turnId ctx.turnId then
      let reference := if segment.referenceContextItem.isNeverSet then .latest ctx
        else segment.referenceContextItem
      { s with activeSegment := some { segment with
          previousTurnSettings := some ctx.settings
          referenceContextItem := reference } }
    else { s with activeSegment := some segment }
  | .worldState _ _ =>
    { s with activeSegment := some { segment with
        worldStateReplay := segment.worldStateReplay ++ [item] } }
  | .eventMsg (.turnStarted turnId _) =>
    match s.activeSegment with
    | some segment =>
      if turnIdsAreCompatible segment.turnId (some turnId) then
        finalizeActiveSegment { s with activeSegment := none } segment
      else s
    | none => s
  | .responseItem response =>
    let counts := segment.countsAsUserTurn || isUserTurnBoundary r response.item
    { s with activeSegment := some { segment with countsAsUserTurn := counts } }
  | .interAgentCommunication _ =>
    { s with activeSegment := some { segment with countsAsUserTurn := true } }
  | _ => s

def scanItems (r : Rules) (s : ReplayScan) : List RolloutItem → ReplayScan
  | [] => s
  | item :: rest => scanItem r rest item (scanItems r s rest)

/-- The segment that the oldest record leaves open. A context item next to the compaction that
bounds the pass is older than the settings of that compaction, unless its turn completed. -/
def finalizeOldest (resumeMetadata : Option CompactionResumeMetadata) (s : ReplayScan) :
    ReplayScan :=
  match s.activeSegment with
  | some segment =>
    let settings := if resumeMetadata.isSome && !segment.turnCompleted then none
      else segment.previousTurnSettings
    finalizeActiveSegment { s with activeSegment := none }
      { segment with previousTurnSettings := settings }
  | none => s

def lastStartedTurnId : List RolloutItem → Option Text
  | [] => none
  | .eventMsg (.turnStarted turnId _) :: rest => (lastStartedTurnId rest).or (some turnId)
  | _ :: rest => lastStartedTurnId rest

def RolloutItem.isLegacyCompaction : RolloutItem → Bool
  | .compacted c => c.replacementHistory.isNone
  | _ => false

structure RolloutReconstruction where
  history : List ResponseItemEnvelope
  lastStartedTurnId : Option Text
  previousTurnSettings : Option PreviousTurnSettings
  referenceContextItem : Option TurnContextItem

def reconstructHistoryFromRollout (r : Rules) (historyMode : ThreadHistoryMode)
    (items : List RolloutItem) : RolloutReconstruction :=
  let input := selectInputCompaction historyMode items
  let recent := (input.map (·.suffix)).getD items
  let resumeMetadata := input.bind (·.compacted.resumeMetadata)
  let s := finalizeOldest resumeMetadata (scanItems r ⟨input, none, .neverSet, 0, none⟩ recent)
  let base := (s.historyCheckpoint.bind (·.compacted.replacementHistory)).getD []
  let suffix := (s.historyCheckpoint.map (·.suffix)).getD items
  { history := replayItems r base suffix
    lastStartedTurnId :=
      (lastStartedTurnId recent).or (resumeMetadata.bind (·.lastStartedTurnId))
    previousTurnSettings :=
      s.previousTurnSettings.or (resumeMetadata.bind (·.previousTurnSettings))
    referenceContextItem :=
      if suffix.any (·.isLegacyCompaction) then none
      else match s.referenceContextItem with
        | .latest context => some context
        | _ => none }

def ActiveReplaySegment.outline (segment : ActiveReplaySegment) :
    ReverseSegment ReplayCheckpoint :=
  ⟨segment.turnId, segment.countsAsUserTurn, segment.historyCheckpoint⟩

def ReplayScan.outline (start : Option ReplayCheckpoint) (s : ReplayScan) :
    ReverseState ReplayCheckpoint :=
  ⟨s.historyCheckpoint, start, s.pendingRollbackTurns, s.activeSegment.map (·.outline)⟩

variable (r : Rules) (start : Option ReplayCheckpoint) (s : ReplayScan) (suffix : List RolloutItem)

theorem outline_finalizeActiveSegment (segment : ActiveReplaySegment) :
    (finalizeActiveSegment s segment).outline start =
      finalizeSegment (s.outline start) segment.outline := by
  rw [finalizeActiveSegment, finalizeSegment]
  by_cases hpending : s.pendingRollbackTurns > 0
  · rw [if_pos hpending, if_pos (show (s.outline start).pendingRollbackTurns > 0 from hpending)]
    by_cases hcounts : segment.countsAsUserTurn
    · rw [if_pos hcounts, if_pos (show segment.outline.countsAsUserTurn from hcounts)]
      rfl
    · rw [if_neg hcounts, if_neg (show ¬ segment.outline.countsAsUserTurn from hcounts)]
  · rw [if_neg hpending, if_neg (show ¬ (s.outline start).pendingRollbackTurns > 0 from hpending)]
    rfl

open ReplayScan

theorem outline_compacted (c : CompactedItem) (s : ReplayScan) :
    ∃ start', (scanItem r suffix (.compacted c) s).outline start' =
      replayStep (.compacted (if c.replacementHistory.isSome then some ⟨c, suffix⟩ else none))
        (s.outline start) := by
  obtain ⟨checkpoint, settings, reference, pending, active⟩ := s
  cases hreplaced : c.replacementHistory with
  | none =>
    refine ⟨start, ?_⟩
    cases active with
    | none => simp [scanItem, replayStep, outline, ActiveReplaySegment.outline,
        ActiveReplaySegment.default, ReverseSegment.default, hreplaced]
    | some segment => simp [scanItem, replayStep, outline, hreplaced,
        ActiveReplaySegment.outline]
  | some history =>
    cases active with
    | none =>
      exact ⟨some ⟨c, suffix⟩, by simp [scanItem, replayStep, outline, ActiveReplaySegment.outline,
        ActiveReplaySegment.default, ReverseSegment.default, hreplaced]⟩
    | some segment =>
      cases hold : segment.historyCheckpoint with
      | none => exact ⟨some ⟨c, suffix⟩, by simp [scanItem, replayStep, outline,
          ActiveReplaySegment.outline, hreplaced, hold]⟩
      | some checkpoint => exact ⟨start, by simp [scanItem, replayStep, outline,
          ActiveReplaySegment.outline, hreplaced, hold]⟩

theorem outline_turnStarted (turnId unread : Text) (s : ReplayScan) :
    (scanItem r suffix (.eventMsg (.turnStarted turnId unread)) s).outline start =
      replayStep (.turnStarted turnId) (s.outline start) := by
  obtain ⟨checkpoint, settings, reference, pending, active⟩ := s
  cases active with
  | none => rfl
  | some segment =>
    by_cases hid : turnIdsAreCompatible segment.turnId (some turnId)
    · simp only [scanItem, replayStep, outline, Option.map_some,
        ActiveReplaySegment.outline, if_pos hid]
      exact outline_finalizeActiveSegment start _ segment
    · simp only [scanItem, replayStep, outline, Option.map_some,
        ActiveReplaySegment.outline, if_neg hid]

theorem exists_outline_scanItem (item : RolloutItem) (s : ReplayScan) :
    ∃ start', (scanItem r suffix item s).outline start' =
      (replayRecord r suffix item).toList.foldr replayStep (s.outline start) := by
  obtain ⟨checkpoint, settings, reference, pending, active⟩ := s
  cases item with
  | compacted c => exact outline_compacted r start suffix c _
  | turnContext ctx =>
    refine ⟨start, ?_⟩
    simp only [scanItem]
    split <;> cases active <;> rfl
  | eventMsg event =>
    refine ⟨start, ?_⟩
    cases event with
    | turnStarted turnId unread => exact outline_turnStarted r start suffix turnId unread _
    | turnAborted turnId unread => cases active <;> cases turnId <;> rfl
    | turnComplete => cases active <;> rfl
    | userMessage event =>
      cases active <;> simp [scanItem, replayRecord, replayStep, outline,
        ActiveReplaySegment.outline, ActiveReplaySegment.default, ReverseSegment.default]
    | _ => rfl
  | responseItem | interAgentCommunication | worldState =>
    refine ⟨start, ?_⟩
    cases active <;> simp [scanItem, replayRecord, replayStep, outline,
      ActiveReplaySegment.outline, ActiveReplaySegment.default, ReverseSegment.default]
  | _ => exact ⟨start, rfl⟩

theorem exists_outline_scanItems (items : List RolloutItem) :
    ∃ start', (scanItems r s items).outline start' =
      (replayRecords r items).foldr replayStep (s.outline start) := by
  induction items with
  | nil => exact ⟨start, rfl⟩
  | cons item rest ih =>
    obtain ⟨start', hrest⟩ := ih
    obtain ⟨start'', hitem⟩ := exists_outline_scanItem r start' rest item (scanItems r s rest)
    refine ⟨start'', ?_⟩
    rw [scanItems, hitem, hrest, replayRecords, List.foldr_append]

theorem historyCheckpoint_finalizeOldest (resumeMetadata : Option CompactionResumeMetadata)
    (start : Option ReplayCheckpoint) (s : ReplayScan) :
    (finalizeOldest resumeMetadata s).historyCheckpoint =
      (finalizeActive (s.outline start)).selected := by
  obtain ⟨checkpoint, settings, reference, pending, active⟩ := s
  cases active with
  | none => rfl
  | some segment =>
    exact congrArg ReverseState.selected (outline_finalizeActiveSegment start _ _)

theorem history_reconstructHistoryFromRollout (historyMode : ThreadHistoryMode)
    (items : List RolloutItem) : (reconstructHistoryFromRollout r historyMode items).history =
      reconstructHistory r historyMode items := by
  have hcheckpoint (resumeMetadata) : (finalizeOldest resumeMetadata (scanItems r
      ⟨selectInputCompaction historyMode items, none, .neverSet, 0, none⟩
      (((selectInputCompaction historyMode items).map (·.suffix)).getD items))).historyCheckpoint =
      historyCheckpoint r historyMode items := by
    obtain ⟨start, hscan⟩ := exists_outline_scanItems r none
      ⟨selectInputCompaction historyMode items, none, .neverSet, 0, none⟩
      (((selectInputCompaction historyMode items).map (·.suffix)).getD items)
    rw [historyCheckpoint_finalizeOldest _ start, hscan]
    rfl
  rw [reconstructHistoryFromRollout, reconstructHistory]
  simp only [hcheckpoint]
  cases historyCheckpoint r historyMode items <;> rfl

end Codex.Rollout

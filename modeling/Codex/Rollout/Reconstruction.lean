import Codex.Rollout.History
import Codex.Rollout.ReverseReplay

/-! The history that `reconstruct_history_from_rollout` of
`core/src/session/rollout_reconstruction.rs` builds: a checkpoint is chosen, and the records after
it are replayed. -/

namespace Codex.Rollout
open Codex.Lib

structure ReplayCheckpoint where
  compacted : CompactedItem
  suffix : List RolloutItem

def newestCompaction : List RolloutItem → Option ReplayCheckpoint
  | [] => none
  | .compacted c :: rest => (newestCompaction rest).or (some ⟨c, rest⟩)
  | _ :: rest => newestCompaction rest

/-- Whether a compaction, as the newest one, bounds the records that are read. -/
def boundsReplay (historyMode : ThreadHistoryMode) (compacted : CompactedItem) : Bool :=
  !(compacted.replacementHistory.isNone || compacted.windowNumber.isNone ||
    (compacted.resumeMetadata.isNone && historyMode ≠ .paginated))

def selectInputCompaction (historyMode : ThreadHistoryMode) (items : List RolloutItem) :
    Option ReplayCheckpoint :=
  (newestCompaction items).filter (boundsReplay historyMode ·.compacted)

/-- What the reverse pass sees of a record that the records `suffix` follow. -/
def replayRecord (r : Rules) (suffix : List RolloutItem) :
    RolloutItem → Option (ReplayRecord ReplayCheckpoint)
  | .compacted c =>
    some (.compacted (if c.replacementHistory.isSome then some ⟨c, suffix⟩ else none))
  | .eventMsg (.threadRolledBack numTurns) => some (.rollback numTurns)
  | .eventMsg (.turnComplete turnId _) => some (.turnComplete turnId)
  | .eventMsg (.turnAborted turnId _) => some (.turnAborted turnId)
  | .eventMsg (.userMessage _) => some (.item true)
  | .turnContext context => some (.turnContext context.turnId)
  | .worldState _ _ => some (.item false)
  | .eventMsg (.turnStarted turnId _) => some (.turnStarted turnId)
  | .responseItem response => some (.item (isUserTurnBoundary r response.item))
  | .interAgentCommunication _ => some (.item true)
  | _ => none

def replayRecords (r : Rules) : List RolloutItem → List (ReplayRecord ReplayCheckpoint)
  | [] => []
  | item :: rest => (replayRecord r rest item).toList ++ replayRecords r rest

def historyCheckpoint (r : Rules) (historyMode : ThreadHistoryMode) (items : List RolloutItem) :
    Option ReplayCheckpoint :=
  let input := selectInputCompaction historyMode items
  let replayItems := (input.map (·.suffix)).getD items
  (reverseReplay input (replayRecords r replayItems)).selected

def replayItem (r : Rules) (history : List ResponseItemEnvelope) :
    RolloutItem → List ResponseItemEnvelope
  | .responseItem response => recordItem r history response
  | .interAgentCommunication communication =>
    recordItem r history ⟨communication.toModelInputItem, none⟩
  | .compacted c =>
    -- a newer replacement history belongs to a turn that was rolled back
    if c.replacementHistory.isNone then r.buildCompactedHistory history c.message else history
  | .eventMsg (.threadRolledBack numTurns) => dropLastNUserTurns r numTurns history
  | _ => history

def replayItems (r : Rules) (history : List ResponseItemEnvelope) (items : List RolloutItem) :
    List ResponseItemEnvelope := items.foldl (replayItem r) history

def reconstructHistory (r : Rules) (historyMode : ThreadHistoryMode) (items : List RolloutItem) :
    List ResponseItemEnvelope :=
  match historyCheckpoint r historyMode items with
  | some checkpoint =>
    replayItems r (checkpoint.compacted.replacementHistory.getD []) checkpoint.suffix
  | none => replayItems r [] items

theorem replayItems_append (r : Rules) (history : List ResponseItemEnvelope)
    (xs ys : List RolloutItem) :
    replayItems r history (xs ++ ys) = replayItems r (replayItems r history xs) ys :=
  List.foldl_append

theorem historyCheckpoint_cases (r : Rules) (historyMode : ThreadHistoryMode)
    (items : List RolloutItem) :
    (∃ checkpoint, newestCompaction items = some checkpoint ∧
        boundsReplay historyMode checkpoint.compacted ∧
        historyCheckpoint r historyMode items = some checkpoint) ∨
      (∀ checkpoint ∈ newestCompaction items,
          boundsReplay historyMode checkpoint.compacted = false) ∧
        historyCheckpoint r historyMode items =
          (reverseReplay none (replayRecords r items)).selected := by
  cases hinput : selectInputCompaction historyMode items with
  | none =>
    refine .inr ⟨fun checkpoint hmem => ?_, ?_⟩
    · rw [selectInputCompaction, Option.filter_eq_none_iff] at hinput
      exact Bool.eq_false_iff.mpr (hinput checkpoint hmem)
    · rw [historyCheckpoint, hinput]
      rfl
  | some checkpoint =>
    obtain ⟨hnewest, hbounds⟩ := Option.filter_eq_some_iff.mp hinput
    refine .inl ⟨checkpoint, hnewest, hbounds, ?_⟩
    rw [historyCheckpoint, hinput]
    exact selected_reverseReplay checkpoint _

end Codex.Rollout

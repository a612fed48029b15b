import Codex.Lib.UndoUnits
import Codex.Rollout.TurnSettings

/-! A history counts a marker in messages: its user messages are those that stand when the newest
`n` messages go at a marker of `n` turns. -/

namespace Codex.Rollout
open Codex.Lib Codex.Lib.UndoLog List Option

variable {α β : Type}

/-- The records that neither delimit turns, nor change a history but for the items that they
record. -/
def RolloutItem.isTurnRecord : RolloutItem → Bool
  | .compacted _ => false
  | .interAgentCommunication _ => false
  | .eventMsg (.threadRolledBack _) => false
  | .eventMsg (.turnStarted _ _) => false
  | .eventMsg (.turnComplete _ _) => false
  | .eventMsg (.turnAborted _ _) => false
  | _ => true

def isUserItem : ResponseItem → Bool
  | .message role _ _ _ => role = "user".toList
  | _ => false

def userMessages (r : Rules) (items : List RolloutItem) : List ResponseItemEnvelope :=
  items.filterMap fun
    | .responseItem e => if isUserTurnBoundary r e.item then some e else none
    | _ => none

theorem userMessages_append (r : Rules) (xs ys : List RolloutItem) :
    userMessages r (xs ++ ys) = userMessages r xs ++ userMessages r ys := filterMap_append

theorem recordedItem_of_isUserTurnBoundary {r : Rules} {e : ResponseItemEnvelope}
    (h : isUserTurnBoundary r e.item) : recordedItem r e = [e] := by
  obtain ⟨item, metadata⟩ := e
  cases item with
  | message role content passthrough unread =>
    have hrole : role ≠ "system".toList := by
      rintro rfl
      simp [isUserTurnBoundary] at h
    simpa [recordedItem, isApiMessage, processed] using hrole
  | agentMessage => rfl
  | _ => simp [isUserTurnBoundary] at h

theorem filter_recordedItem (r : Rules) (e : ResponseItemEnvelope) :
    (recordedItem r e).filter (isUserTurnBoundary r ·.item) =
      if isUserTurnBoundary r e.item then [e] else [] := by
  by_cases h : isUserTurnBoundary r e.item
  · rw [recordedItem_of_isUserTurnBoundary h, if_pos h, filter_cons_of_pos (by exact h), filter_nil]
  · rw [if_neg h, recordedItem]
    split
    · rw [filter_cons_of_neg, filter_nil]
      rw [isUserTurnBoundary_processed]
      exact h
    · rfl

theorem filter_replayItem {r : Rules} {item : RolloutItem} (hitem : item.isTurnRecord)
    (history : List ResponseItemEnvelope) :
    (replayItem r history item).filter (isUserTurnBoundary r ·.item) =
      history.filter (isUserTurnBoundary r ·.item) ++ userMessages r [item] := by
  cases item with
  | responseItem e =>
    rw [replayItem, recordItem, filter_append, filter_recordedItem]
    cases hboundary : isUserTurnBoundary r e.item <;> simp [userMessages, hboundary]
  | compacted | interAgentCommunication => exact nomatch hitem
  | eventMsg event =>
    cases event with
    | threadRolledBack => exact nomatch hitem
    | _ => exact (append_nil _).symm
  | _ => exact (append_nil _).symm

variable {items : List RolloutItem}

theorem filter_replayItems {r : Rules} (hitems : ∀ item ∈ items, item.isTurnRecord)
    (history : List ResponseItemEnvelope) :
    (replayItems r history items).filter (isUserTurnBoundary r ·.item) =
      history.filter (isUserTurnBoundary r ·.item) ++ userMessages r items := by
  induction items generalizing history with
  | nil => exact (append_nil _).symm
  | cons item items ih =>
    have hrest := ih (fun x hx => hitems x (mem_cons_of_mem _ hx)) (replayItem r history item)
    have hfirst := filter_replayItem (hitems item mem_cons_self) (r := r) history
    rw [show replayItems r history (item :: items) = replayItems r (replayItem r history item) items
      from rfl, hrest, hfirst, append_assoc, ← userMessages_append]
    rfl

theorem newestCompaction_of_forall (h : ∀ item ∈ items, item.isCompacted = false) :
    newestCompaction items = none := by
  induction items with
  | nil => rfl
  | cons item items ih =>
    have hrest := ih fun x hx => h x (mem_cons_of_mem _ hx)
    have hitem := h item mem_cons_self
    cases item with
    | compacted c => exact nomatch hitem
    | _ => exact hrest

theorem clear_finalizeSegment {γ : Type} {s : ReverseState γ} {segment : ReverseSegment γ}
    (hs : s.selected = none) (hsegment : segment.checkpoint = none) :
    (finalizeSegment s segment).selected = none := by
  rw [finalizeSegment]
  split
  · split <;> exact hs
  · rw [hs, hsegment]
    rfl

theorem clear_replayStep {γ : Type} {s : ReverseState γ} {record : ReplayRecord γ}
    (hrecord : ∀ checkpoint, record ≠ .compacted checkpoint)
    (hs : s.selected = none ∧ s.segment.checkpoint = none) :
    (replayStep record s).selected = none ∧ (replayStep record s).segment.checkpoint = none := by
  obtain ⟨hselected, hactive⟩ := hs
  cases record with
  | compacted checkpoint => exact absurd rfl (hrecord checkpoint)
  | rollback | turnComplete | turnContext | item => exact ⟨hselected, hactive⟩
  | turnAborted turnId =>
    simp only [replayStep]
    split
    · exact ⟨hselected, hactive⟩
    · exact ⟨hselected, hactive⟩
  | turnStarted turnId =>
    simp only [replayStep]
    cases hsegment : s.active with
    | none => exact ⟨hselected, hactive⟩
    | some segment =>
      rw [ReverseState.segment, hsegment, getD_some] at hactive
      simp only
      split
      · refine ⟨clear_finalizeSegment hselected hactive, ?_⟩
        rw [finalizeSegment]
        split
        · split <;> rfl
        · rfl
      · rw [ReverseState.segment, hsegment]
        exact ⟨hselected, hactive⟩

theorem selected_reverseReplay_none {γ : Type} {records : List (ReplayRecord γ)}
    (h : ∀ record ∈ records, ∀ checkpoint, record ≠ .compacted checkpoint) :
    (reverseReplay none records).selected = none := by
  have hscan : (reverseScan none records).selected = none ∧
      (reverseScan none records).segment.checkpoint = none := by
    induction records with
    | nil => exact ⟨rfl, rfl⟩
    | cons record records ih =>
      exact clear_replayStep (h record mem_cons_self) (ih fun x hx => h x (mem_cons_of_mem _ hx))
  rw [reverseReplay, finalizeActive]
  split
  · next segment hsegment =>
    rw [ReverseState.segment, hsegment] at hscan
    exact clear_finalizeSegment hscan.1 hscan.2
  · exact hscan.1

theorem mem_replayRecords {r : Rules} {record : ReplayRecord ReplayCheckpoint}
    (h : record ∈ replayRecords r items) :
    ∃ item ∈ items, ∃ suffix, replayRecord r suffix item = some record := by
  induction items with
  | nil => exact nomatch h
  | cons item items ih =>
    rw [replayRecords, mem_append, mem_toList] at h
    rcases h with h | h
    · exact ⟨item, mem_cons_self, items, h⟩
    · obtain ⟨x, hx, suffix, hrecord⟩ := ih h
      exact ⟨x, mem_cons_of_mem _ hx, suffix, hrecord⟩

theorem reconstructHistory_of_forall (h : ∀ item ∈ items, item.isCompacted = false) (r : Rules)
    (historyMode : ThreadHistoryMode) :
    reconstructHistory r historyMode items = replayItems r [] items := by
  have hselect : selectInputCompaction historyMode items = none := by
    rw [selectInputCompaction, newestCompaction_of_forall h, filter_none]
  have hnone : historyCheckpoint r historyMode items = none := by
    rw [historyCheckpoint]
    simp only [hselect, map_none, getD_none]
    apply selected_reverseReplay_none
    rintro record hrecord checkpoint rfl
    obtain ⟨item, hitem, suffix, hread⟩ := mem_replayRecords hrecord
    have hcompacted := h item hitem
    cases item with
    | compacted c => cases hcompacted
    | eventMsg event => cases event <;> cases hread
    | _ => cases hread
  rw [reconstructHistory, hnone]

def logRecords (turnRecords : α → List RolloutItem) (log : List (Event α)) : List RolloutItem :=
  log.flatMap fun
    | .entry turn => turnRecords turn
    | .undo n => [.eventMsg (.threadRolledBack n)]

theorem filter_replayItems_logRecords {r : Rules} {turnRecords : α → List RolloutItem}
    {messages : α → List β} {item : β → ResponseItemEnvelope}
    (hturn : ∀ turn history,
      (replayItems r history (turnRecords turn)).filter (isUserTurnBoundary r ·.item) =
        history.filter (isUserTurnBoundary r ·.item) ++ (messages turn).map item)
    {history : List ResponseItemEnvelope} {older : List β}
    (hhistory : history.filter (isUserTurnBoundary r ·.item) = older.map item)
    (log : List (Event α)) :
    (replayItems r history (logRecords turnRecords log)).filter (isUserTurnBoundary r ·.item) =
      (standing older (partsLog messages log)).map item := by
  induction log generalizing history older with
  | nil => exact hhistory
  | cons e log ih =>
    cases e with
    | entry turn =>
      have hnext : (replayItems r history (turnRecords turn)).filter
          (isUserTurnBoundary r ·.item) = (older ++ messages turn).map item := by
        rw [hturn, hhistory, map_append]
      rw [logRecords, flatMap_cons, replayItems_append, partsLog, flatMap_cons,
        standing_append, standing_map_entry]
      exact ih hnext
    | undo n =>
      have hnext : (dropLastNUserTurns r n history).filter (isUserTurnBoundary r ·.item) =
          (older.take (older.length - n)).map item := by
        rw [filter_dropLastNUserTurns, hhistory, length_map, map_take]
      exact ih hnext

end Codex.Rollout

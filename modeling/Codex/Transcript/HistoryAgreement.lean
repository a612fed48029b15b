import Mathlib.Data.List.Flatten
import Codex.Transcript.UserMessages

/-! A rollback marker takes whole turns off the transcript of a thread, and user messages off its
history. The two agree as long as every marker takes back as many turns as messages. -/

namespace Codex.Transcript
open Codex.Lib Codex.Lib.UndoLog Codex.Rollout List

/-- A complete turn whose user messages are persisted both as response items and as events. -/
structure MessageTurn (r : Rules) where
  turnId : Text
  started : Text
  body : List RolloutItem
  completed : TurnOutcome
  body_isTurnRecord : ∀ item ∈ body, item.isTurnRecord = true
  boundary_isUserItem : ∀ e ∈ userMessages r body, isUserItem e.item = true
  persisted_twice : (userMessages r body).length = (userEvents body).length

variable {r : Rules}

namespace MessageTurn

def records (t : MessageTurn r) : List RolloutItem :=
  .eventMsg (.turnStarted t.turnId t.started) ::
    (t.body ++ [.eventMsg (.turnComplete t.turnId t.completed)])

def messages (t : MessageTurn r) : List (ResponseItemEnvelope × UserMessageEvent) :=
  (userMessages r t.body).zip (userEvents t.body)

theorem map_fst_messages (t : MessageTurn r) : t.messages.map (·.1) = userMessages r t.body :=
  map_fst_zip (Nat.le_of_eq t.persisted_twice)

theorem map_snd_messages (t : MessageTurn r) : t.messages.map (·.2) = userEvents t.body :=
  map_snd_zip (Nat.le_of_eq t.persisted_twice.symm)

end MessageTurn

theorem isCompacted_logRecords (log : List (Event (MessageTurn r))) :
    ∀ item ∈ logRecords MessageTurn.records log, item.isCompacted = false := by
  intro item hitem
  obtain ⟨e, he, hitem⟩ := mem_flatMap.mp hitem
  cases e with
  | undo n =>
    obtain rfl := mem_singleton.mp hitem
    rfl
  | entry t =>
    simp only [MessageTurn.records, mem_cons, mem_append, not_mem_nil,
      or_false] at hitem
    rcases hitem with rfl | hmem | rfl
    · rfl
    · have hrecord := t.body_isTurnRecord item hmem
      cases item with
      | compacted c => exact nomatch hrecord
      | _ => rfl
    · rfl

theorem filter_replayItems_messageTurn (t : MessageTurn r) (history : List ResponseItemEnvelope) :
    (replayItems r history t.records).filter (isUserTurnBoundary r ·.item) =
      history.filter (isUserTurnBoundary r ·.item) ++ t.messages.map (·.1) := by
  have hbody : replayItems r history t.records = replayItems r history t.body := by
    simp only [MessageTurn.records, replayItems, foldl_cons, foldl_append,
      foldl_nil, replayItem]
  rw [hbody, t.map_fst_messages]
  exact filter_replayItems t.body_isTurnRecord history

theorem filter_history (historyMode : ThreadHistoryMode) (log : List (Event (MessageTurn r))) :
    (reconstructHistoryFromRollout r historyMode
        (logRecords MessageTurn.records log)).history.filter (isUserTurnBoundary r ·.item) =
      (standing [] (partsLog MessageTurn.messages log)).map (·.1) := by
  rw [history_reconstructHistoryFromRollout,
    reconstructHistory_of_forall (isCompacted_logRecords log)]
  exact filter_replayItems_logRecords filter_replayItems_messageTurn rfl log

variable (promptId : Nat → ResponseItem → Text)

def transcriptMessages (r : Rules) (items : List RolloutItem) : List ShownMessage :=
  (buildTurnsFromRolloutItems r promptId items).flatMap (·.messages)

def MessageTurn.shown (t : MessageTurn r) : List ShownMessage := t.messages.map (shownAs ·.2)

theorem handleRolloutItems_append (b : Builder) (xs ys : List RolloutItem) :
    b.handleRolloutItems r promptId (xs ++ ys) =
      (b.handleRolloutItems r promptId xs).handleRolloutItems r promptId ys := foldl_append

theorem BetweenTurns.messageTurn {b : Builder} {turns : List (List ShownMessage)}
    (h : BetweenTurns b turns) {t : MessageTurn r} (ht : b.KeepsAll r promptId t.records) :
    BetweenTurns (b.handleRolloutItems r promptId t.records) (turns ++ [t.shown]) := by
  rw [MessageTurn.records, ← singleton_append, keepsAll_append, keepsAll_append] at ht
  have hbody := (h.turnStarted r promptId t.turnId t.started).records r promptId
    t.body_isTurnRecord ht.2.1
  rw [nil_append, ← t.map_snd_messages, map_map] at hbody
  have hcomplete := hbody.turnComplete r promptId t.completed
  rw [MessageTurn.records, ← singleton_append, handleRolloutItems_append,
    handleRolloutItems_append]
  exact hcomplete

theorem BetweenTurns.logRecords {b : Builder} {turns : List (MessageTurn r)}
    (h : BetweenTurns b (turns.map (·.shown))) {log : List (Event (MessageTurn r))}
    (hlog : b.KeepsAll r promptId (Rollout.logRecords MessageTurn.records log)) :
    BetweenTurns (b.handleRolloutItems r promptId (Rollout.logRecords MessageTurn.records log))
      ((standing turns log).map (·.shown)) := by
  induction log generalizing b turns with
  | nil => exact h
  | cons e log ih =>
    rw [Rollout.logRecords, flatMap_cons, keepsAll_append] at hlog
    rw [Rollout.logRecords, flatMap_cons, handleRolloutItems_append]
    cases e with
    | entry t =>
      have hnext := h.messageTurn promptId hlog.1
      rw [← map_singleton (f := MessageTurn.shown), ← map_append] at hnext
      exact ih hnext hlog.2
    | undo n =>
      have hnext := h.threadRolledBack r promptId n
      rw [length_map, ← map_take] at hnext
      exact ih hnext hlog.2

/-- No agent record of the log finds a message under the id of its item, or reviews a turn that does
not stand. -/
def KeepsMessages (log : List (Event (MessageTurn r))) : Prop :=
  Builder.new.KeepsAll r promptId (logRecords MessageTurn.records log)

instance (log : List (Event (MessageTurn r))) : Decidable (KeepsMessages promptId log) :=
  decidableKeepsAll r promptId _ _

theorem transcriptMessages_log {log : List (Event (MessageTurn r))}
    (hlog : KeepsMessages promptId log) :
    transcriptMessages promptId r (logRecords MessageTurn.records log) =
      ((standing [] log).flatMap MessageTurn.messages).map (shownAs ·.2) := by
  have hnew : BetweenTurns .new (([] : List (MessageTurn r)).map (·.shown)) := betweenTurns_new
  have h := hnew.logRecords promptId hlog
  rw [transcriptMessages, buildTurnsFromRolloutItems, h.finishCurrentTurn, flatMap_def,
    h.messages, map_flatMap, flatMap_def]
  rfl

/-- The history has the response items, and the transcript the events, of the same persisted
messages. -/
def MessagesAgree (historyMode : ThreadHistoryMode) (log : List (Event (MessageTurn r))) : Prop :=
  ∃ kept : List (ResponseItemEnvelope × UserMessageEvent),
    kept.Sublist ((entries log).flatMap MessageTurn.messages) ∧
    (reconstructHistoryFromRollout r historyMode
      (logRecords MessageTurn.records log)).history.filter (isUserTurnBoundary r ·.item) =
        kept.map (·.1) ∧
    transcriptMessages promptId r (logRecords MessageTurn.records log) =
      kept.map (shownAs ·.2)

variable {promptId} {historyMode : ThreadHistoryMode} {log : List (Event (MessageTurn r))}

theorem messagesAgree_of_aligned (hlog : KeepsMessages promptId log)
    (h : Aligned MessageTurn.messages [] log) : MessagesAgree promptId historyMode log := by
  have hstanding := h.standing_eq
  rw [flatMap_nil] at hstanding
  refine ⟨(standing [] log).flatMap MessageTurn.messages, ?_, ?_, ?_⟩
  · rw [standing_nil_eq_kept]
    exact (kept_sublist_entries log).flatMap _
  · rw [filter_history, hstanding]
  · exact transcriptMessages_log promptId hlog

theorem length_standing_of_messagesAgree (hlog : KeepsMessages promptId log)
    (h : MessagesAgree promptId historyMode log) :
    (standing [] (partsLog MessageTurn.messages log)).length =
      ((standing [] log).flatMap MessageTurn.messages).length := by
  obtain ⟨kept, _, hhistory, htranscript⟩ := h
  rw [filter_history] at hhistory
  rw [transcriptMessages_log promptId hlog] at htranscript
  have hleft := congrArg List.length hhistory
  have hright := congrArg List.length htranscript
  rw [length_map, length_map] at hleft hright
  rw [hleft, hright]

/-- The transcript and the history agree all along a rollout exactly when every marker takes back
as many turns as messages. -/
theorem transcript_agrees_with_history (r : Rules) (promptId : Nat → ResponseItem → Text)
    (historyMode : ThreadHistoryMode) (log : List (Event (MessageTurn r)))
    (hlog : KeepsMessages promptId log) :
    (∀ p, p <+: log → MessagesAgree promptId historyMode p) ↔
      Aligned MessageTurn.messages [] log := by
  have hbeginning : ∀ p, p <+: log → KeepsMessages promptId p := by
    rintro p ⟨rest, rfl⟩
    rw [KeepsMessages, logRecords, flatMap_append, keepsAll_append] at hlog
    exact hlog.1
  constructor
  · intro h
    apply aligned_of_length_eq
    intro p hp
    exact length_standing_of_messagesAgree (hbeginning p hp) (h p hp)
  · intro h p hp
    refine messagesAgree_of_aligned (hbeginning p hp) ?_
    obtain ⟨rest, rfl⟩ := hp
    exact h.of_append

def answeredTurn (turnId : String) : MessageTurn plainRules where
  turnId := turnId.toList
  started := []
  body := [.responseItem (plainMessage "user" "hello"), plainPrompt "hello",
    .eventMsg (.activeTurnCall .webSearchEnd ⟨itemId 7, []⟩),
    .responseItem (plainMessage "assistant" "hi"), .eventMsg (.agentMessage "hi".toList [])]
  completed := ⟨none, []⟩
  body_isTurnRecord := by decide +kernel
  boundary_isUserItem := by decide +kernel
  persisted_twice := by decide +kernel

/-- A turn without a user message, as a review or a compaction task has it. -/
def silentTurn (turnId : String) : MessageTurn plainRules where
  turnId := turnId.toList
  started := []
  body := [.responseItem (plainMessage "assistant" "hi"), .eventMsg (.agentMessage "hi".toList [])]
  completed := ⟨none, []⟩
  body_isTurnRecord := by decide +kernel
  boundary_isUserItem := by decide +kernel
  persisted_twice := by decide +kernel

def answeredThread : List (Event (MessageTurn plainRules)) :=
  [.entry (answeredTurn "1"), .entry (answeredTurn "2"), .undo 1]

theorem transcript_agrees_with_history_answeredThread :
    MessagesAgree (fun _ _ => []) .legacy answeredThread := by
  have hlog : KeepsMessages (fun _ _ => []) answeredThread := by decide +kernel
  exact (transcript_agrees_with_history plainRules (fun _ _ => []) .legacy answeredThread hlog).mpr
    (by decide +kernel) answeredThread prefix_rfl

def silentThread : List (Event (MessageTurn plainRules)) :=
  [.entry (answeredTurn "1"), .entry (silentTurn "2"), .undo 1]

/-- The transcript keeps the message of the first turn, and the history has lost it. -/
theorem transcript_keeps_message_lost_from_history :
    (reconstructHistoryFromRollout plainRules .legacy
        (logRecords MessageTurn.records silentThread)).history.filter
          (isUserTurnBoundary plainRules ·.item) = [] ∧
      transcriptMessages (fun _ _ => []) plainRules (logRecords MessageTurn.records silentThread) =
        [(none, [.text "hello".toList []])] ∧
      ¬ MessagesAgree (fun _ _ => []) .legacy silentThread := by
  have hhistory : (reconstructHistoryFromRollout plainRules .legacy
      (logRecords MessageTurn.records silentThread)).history.filter
        (isUserTurnBoundary plainRules ·.item) = [] := by decide +kernel
  have htranscript : transcriptMessages (fun _ _ => []) plainRules
      (logRecords MessageTurn.records silentThread) = [(none, [.text "hello".toList []])] := by
    decide +kernel
  refine ⟨hhistory, htranscript, ?_⟩
  intro ⟨kept, _, hleft, hright⟩
  rw [hhistory, eq_comm, map_eq_nil_iff] at hleft
  rw [htranscript, hleft] at hright
  exact nomatch hright

end Codex.Transcript

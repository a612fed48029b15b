import Codex.Transcript.Outline

/-! `truncate_rollout_after_turn_id` and `truncate_rollout_before_turn_id` of
`core/src/thread_rollout_truncation.rs`. -/

namespace Codex.Transcript
open Codex.Lib Codex.Lib.TurnStack Codex.Rollout List

def startedTurnId : RolloutItem → Option Text
  | .eventMsg (.turnStarted turnId _) => some turnId
  | _ => none

def startsTurn (turnId : Text) (item : RolloutItem) : Bool := startedTurnId item = some turnId

def isThreadRolledBack : RolloutItem → Bool
  | .eventMsg (.threadRolledBack _) => true
  | _ => false

variable (r : Rules) (promptId : Nat → ResponseItem → Text)

def invalidRequest (parameter : String) (turnId : Text) (problem : String) : Text :=
  parameter.toList ++ " '".toList ++ turnId ++ "' ".toList ++ problem.toList

def truncateRolloutAfterTurnId (items : List RolloutItem) (lastTurnId : Text) :
    Except Text (List RolloutItem) :=
  match (buildTurnsFromRolloutItems r promptId items).find? (·.id = lastTurnId) with
  | none => .error (invalidRequest "lastTurnId" lastTurnId "was not found in the source thread")
  | some turn =>
    match items.findIdx? (startsTurn lastTurnId) with
    | none => .error (invalidRequest "lastTurnId" lastTurnId
        "is not a persisted canonical turn in the source thread")
    | some targetStartIndex =>
      if turn.status = .inProgress then
        .error (invalidRequest "lastTurnId" lastTurnId "identifies an in-progress turn")
      else
        let later := (items.drop (targetStartIndex + 1)).findIdx? fun item =>
          (startedTurnId item).isSome
        let cutIndex := (later.map (targetStartIndex + 1 + ·)).getD items.length
        .ok (items.take cutIndex)

def truncateRolloutBeforeTurnId (items : List RolloutItem) (beforeTurnId : Text) :
    Except Text (List RolloutItem) :=
  match items.findIdx? (startsTurn beforeTurnId) with
  | none =>
    -- older rollouts can show generated turn ids
    if (buildTurnsFromRolloutItems r promptId items).any (·.id = beforeTurnId) then
      .error (invalidRequest "beforeTurnId" beforeTurnId
        "is not a persisted canonical turn in the source thread")
    else .error (invalidRequest "beforeTurnId" beforeTurnId "was not found in the source thread")
  | some cutIndex =>
    if (items.drop (cutIndex + 1)).any isThreadRolledBack &&
        !(buildTurnsFromRolloutItems r promptId items).any (·.id = beforeTurnId) then
      .error (invalidRequest "beforeTurnId" beforeTurnId "was not found in the source thread")
    else .ok (items.take cutIndex)

def shownTurnIds (items : List RolloutItem) : List Text :=
  (buildTurnsFromRolloutItems r promptId items).map (·.id)

def recordsBefore (turnId : Text) (items : List RolloutItem) : List RolloutItem :=
  items.takeWhile fun item => !startsTurn turnId item

def recordsAfterStart (turnId : Text) (items : List RolloutItem) : List RolloutItem :=
  items.drop ((recordsBefore turnId items).length + 1)

def recordsOf (turnId : Text) (items : List RolloutItem) : List RolloutItem :=
  (recordsAfterStart turnId items).takeWhile fun item => (startedTurnId item).isNone

theorem takeWhile_of_findIdx?_eq_some {α : Type} {p : α → Bool} {xs : List α} {i : Nat}
    (h : xs.findIdx? p = some i) :
    (xs.takeWhile fun x => !p x) = xs.take i ∧
      ∃ x, p x ∧ xs = xs.take i ++ x :: xs.drop (i + 1) := by
  obtain ⟨hlt, rfl⟩ := findIdx?_eq_some_iff_findIdx_eq.mp h
  refine ⟨by simp [takeWhile_eq_take_findIdx_not], xs[xs.findIdx p], findIdx_getElem, ?_⟩
  rw [← drop_eq_getElem_cons hlt, take_append_drop]

theorem takeWhile_of_findIdx?_eq_none {α : Type} {p : α → Bool} {xs : List α}
    (h : xs.findIdx? p = none) : (xs.takeWhile fun x => !p x) = xs := by
  rw [findIdx?_eq_none_iff] at h
  rw [takeWhile_eq_self_iff]
  intro x hx
  rw [h x hx]
  rfl

theorem length_recordsBefore {items : List RolloutItem} {turnId : Text} {i : Nat}
    (h : items.findIdx? (startsTurn turnId) = some i) :
    (recordsBefore turnId items).length = i := by
  have hlt : i < items.length := (findIdx?_eq_some_iff_findIdx_eq.mp h).1
  rw [recordsBefore, (takeWhile_of_findIdx?_eq_some h).1, length_take, Nat.min_eq_left hlt.le]

theorem recordsAfterStart_eq {items : List RolloutItem} {turnId : Text} {i : Nat}
    (h : items.findIdx? (startsTurn turnId) = some i) :
    recordsAfterStart turnId items = items.drop (i + 1) := by
  rw [recordsAfterStart, length_recordsBefore h]

theorem exists_startsTurn {items : List RolloutItem} {turnId : Text} {i : Nat}
    (h : items.findIdx? (startsTurn turnId) = some i) :
    ∃ x, startsTurn turnId x ∧
      items = recordsBefore turnId items ++ x :: recordsAfterStart turnId items := by
  obtain ⟨htake, x, hx, hsplit⟩ := takeWhile_of_findIdx?_eq_some h
  refine ⟨x, hx, ?_⟩
  rw [recordsAfterStart_eq h, recordsBefore, htake]
  exact hsplit

variable {r promptId} {items result : List RolloutItem} {turnId : Text}

theorem mem_shownTurnIds :
    (buildTurnsFromRolloutItems r promptId items).any (·.id = turnId) ↔
      turnId ∈ shownTurnIds r promptId items := by
  simp [shownTurnIds, any_eq_true]

theorem truncateRolloutAfterTurnId_eq_ok
    (h : truncateRolloutAfterTurnId r promptId items turnId = .ok result) :
    turnId ∈ shownTurnIds r promptId items ∧
      ∃ x, startsTurn turnId x ∧
        items = recordsBefore turnId items ++ x :: recordsAfterStart turnId items ∧
        result = recordsBefore turnId items ++ x :: recordsOf turnId items := by
  rw [truncateRolloutAfterTurnId] at h
  cases hfind : (buildTurnsFromRolloutItems r promptId items).find? (·.id = turnId) with
  | none =>
    rw [hfind] at h
    exact nomatch h
  | some turn =>
    cases hstart : items.findIdx? (startsTurn turnId) with
    | none =>
      rw [hfind, hstart] at h
      exact nomatch h
    | some i =>
      rw [hfind, hstart] at h
      simp only at h
      split at h
      · exact nomatch h
      · obtain rfl := Except.ok.inj h
        obtain ⟨x, hx, hsplit⟩ := exists_startsTurn hstart
        have hmem : turnId ∈ shownTurnIds r promptId items := by
          refine mem_map.mpr ⟨turn, mem_of_find?_eq_some hfind, ?_⟩
          simpa using find?_some hfind
        have hof : recordsOf turnId items =
            (items.drop (i + 1)).takeWhile fun item => !(startedTurnId item).isSome := by
          rw [recordsOf, recordsAfterStart_eq hstart]
          congr 1
          funext item
          cases startedTurnId item <;> rfl
        refine ⟨hmem, x, hx, hsplit, ?_⟩
        cases hlater : (items.drop (i + 1)).findIdx? fun item => (startedTurnId item).isSome with
        | none =>
          rw [hof, takeWhile_of_findIdx?_eq_none hlater, ← recordsAfterStart_eq hstart, ← hsplit]
          exact take_length
        | some j =>
          have hlength := length_recordsBefore hstart
          rw [hof, (takeWhile_of_findIdx?_eq_some hlater).1, ← recordsAfterStart_eq hstart]
          simp only [Option.map_some, Option.getD_some]
          conv_lhs => rw [hsplit]
          rw [show i + 1 + j = (recordsBefore turnId items).length + (j + 1) by omega,
            take_length_add_append, take_succ_cons]

theorem truncateRolloutBeforeTurnId_eq_ok
    (h : truncateRolloutBeforeTurnId r promptId items turnId = .ok result) :
    result = recordsBefore turnId items ∧
      ((recordsAfterStart turnId items).any isThreadRolledBack →
        turnId ∈ shownTurnIds r promptId items) ∧
      ∃ x, startsTurn turnId x ∧
        items = recordsBefore turnId items ++ x :: recordsAfterStart turnId items := by
  rw [truncateRolloutBeforeTurnId] at h
  cases hstart : items.findIdx? (startsTurn turnId) with
  | none =>
    rw [hstart] at h
    simp only at h
    split at h <;> exact nomatch h
  | some i =>
    rw [hstart] at h
    simp only at h
    split at h
    · exact nomatch h
    · next hcheck =>
      obtain rfl := Except.ok.inj h
      refine ⟨?_, ?_, exists_startsTurn hstart⟩
      · rw [recordsBefore, (takeWhile_of_findIdx?_eq_some hstart).1]
      · intro hany
        rw [← recordsAfterStart_eq hstart, hany, Bool.true_and, Bool.not_eq_true',
          Bool.not_eq_false] at hcheck
        exact mem_shownTurnIds.mp hcheck

theorem lifecycleUse_inversion (id : Text) (item : LifecycleItem) (turnId : Text) :
    lifecycleUse id item ≠ .start turnId ∧
      (lifecycleUse id item = .named turnId ↔ isReviewMode item ∧ id = turnId) ∧
      (lifecycleUse id item).isRollback = false := by
  cases item with
  | plan _ text =>
    cases hempty : text.isEmpty <;> simp [lifecycleUse, hempty, isReviewMode, Use.isRollback]
  | item kind _ _ => cases kind <;> simp [lifecycleUse, isReviewMode, Use.isRollback]

theorem callUse_cases (id : Text) : callUse id = .here ∨ callUse id = .into id := by
  rw [callUse]
  split
  · exact .inl rfl
  · exact .inr rfl

theorem eventUse_inversion (event : EventMsg) (turnId : Text) :
    (eventUse event = .start turnId ↔ startedTurnId (.eventMsg event) = some turnId) ∧
      (eventUse event = .named turnId ↔ reviewedTurn (.eventMsg event) = some turnId) ∧
      (eventUse event).isRollback = isThreadRolledBack (.eventMsg event) := by
  cases event with
  | agentMessage message _ | agentReasoning message | agentReasoningRawContent message =>
    cases hempty : message.isEmpty <;>
      simp [eventUse, textUse, hempty, startedTurnId, reviewedTurn, isThreadRolledBack,
        Use.isRollback]
  | guardianAssessment event =>
    have huse : guardianUse event = .idle ∨ guardianUse event = .here ∨
        guardianUse event = .into event.turnId := by
      rw [guardianUse]
      split
      · exact .inl rfl
      · exact .inr (callUse_cases event.turnId)
    rcases huse with huse | huse | huse <;>
      simp [eventUse, huse, startedTurnId, reviewedTurn, isThreadRolledBack, Use.isRollback]
  | turnCall kind id call =>
    rcases callUse_cases id with huse | huse <;>
      simp [eventUse, huse, startedTurnId, reviewedTurn, isThreadRolledBack, Use.isRollback]
  | enteredReviewMode named _ | exitedReviewMode named _ =>
    cases named <;>
      simp [eventUse, reviewUse, startedTurnId, reviewedTurn, isThreadRolledBack, Use.isRollback]
  | itemStarted id item | itemCompleted id item =>
    obtain ⟨hstart, hnamed, hrollback⟩ := lifecycleUse_inversion id item turnId
    simp [eventUse, hstart, hnamed, hrollback, startedTurnId, reviewedTurn, isThreadRolledBack]
  | _ => simp [eventUse, startedTurnId, reviewedTurn, isThreadRolledBack, Use.isRollback]

theorem turnUse_inversion (r : Rules) (item : RolloutItem) (turnId : Text) :
    (turnUse r item = .start turnId ↔ startedTurnId item = some turnId) ∧
      (turnUse r item = .named turnId ↔ reviewedTurn item = some turnId) ∧
      (turnUse r item).isRollback = isThreadRolledBack item := by
  cases item with
  | eventMsg event => exact eventUse_inversion event turnId
  | responseItem response =>
    have huse : responseUse r response.item = .idle ∨ responseUse r response.item = .here := by
      cases response.item with
      | message role content _ _ =>
        rw [responseUse]
        split
        · exact .inr rfl
        · exact .inl rfl
      | _ => exact .inl rfl
    rcases huse with huse | huse <;>
      simp [turnUse, huse, startedTurnId, reviewedTurn, isThreadRolledBack, Use.isRollback]
  | _ => simp [turnUse, startedTurnId, reviewedTurn, isThreadRolledBack, Use.isRollback]

end Codex.Transcript

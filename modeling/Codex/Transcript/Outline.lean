import Codex.Lib.TurnStack
import Codex.Transcript.Builder

/-! The builder refines the stack of turns that the uses of its records describe; in particular it
never drops a turn that it has opened. -/

namespace Codex.Transcript
open Codex.Lib Codex.Lib.TurnStack Codex.Rollout List Builder PendingTurn

def callUse (turnId : Text) : Use Text := if turnId.isEmpty then .here else .into turnId

def reviewUse : Option Text → Use Text
  | none => .here
  | some turnId => .named turnId

def lifecycleUse (turnId : Text) : LifecycleItem → Use Text
  | .plan _ text => if text.isEmpty then .idle else .into turnId
  | .item kind _ _ =>
    match kind with
    | .hookPrompt => .into turnId
    | .functionCallOutput => .into turnId
    | .commandExecution => .into turnId
    | .dynamicToolCall => .into turnId
    | .collabAgentToolCall => .into turnId
    | .subAgentActivity => .into turnId
    | .extension => .into turnId
    | .enteredReviewMode => .named turnId
    | .exitedReviewMode => .named turnId
    | _ => .idle

def guardianUse (event : GuardianAssessmentEvent) : Use Text :=
  if event.status = .approved ∨ Builder.guardianItemId event = none then .idle
  else callUse event.turnId

def textUse (text : Text) : Use Text := if text.isEmpty then .idle else .here

def eventUse : EventMsg → Use Text
  | .userMessage _ => .message
  | .agentMessage message _ => textUse message
  | .agentReasoning text => textUse text
  | .agentReasoningRawContent text => textUse text
  | .activeTurnCall _ _ => .here
  | .execCommandBegin turnId _ => .into turnId
  | .execCommandEnd turnId _ => .into turnId
  | .guardianAssessment event => guardianUse event
  | .turnCall _ turnId _ => callUse turnId
  | .contextCompacted => .here
  | .enteredReviewMode turnId _ => reviewUse turnId
  | .exitedReviewMode turnId _ => reviewUse turnId
  | .itemStarted turnId item => lifecycleUse turnId item
  | .itemCompleted turnId item => lifecycleUse turnId item
  | .threadRolledBack numTurns => .rollback numTurns
  | .turnStarted turnId _ => .start turnId
  | .turnComplete turnId _ => .complete turnId
  | .turnAborted _ _ => .idle
  | .error _ _ => .idle
  | .other _ => .idle

def responseUse (r : Rules) : ResponseItem → Use Text
  | .message role content _ _ =>
    if role = "user".toList ∧ isHookPromptMessage r content then .here else .idle
  | _ => .idle

def turnUse (r : Rules) : RolloutItem → Use Text
  | .eventMsg event => eventUse event
  | .compacted _ => .mark
  | .responseItem response => responseUse r response.item
  | _ => .idle

def isReviewMode : LifecycleItem → Bool
  | .item .enteredReviewMode _ _ => true
  | .item .exitedReviewMode _ _ => true
  | _ => false

/-- The turn that a review-mode record names. -/
def reviewedTurn : RolloutItem → Option Text
  | .eventMsg (.enteredReviewMode named _) => named
  | .eventMsg (.exitedReviewMode named _) => named
  | .eventMsg (.itemStarted named item) => if isReviewMode item then some named else none
  | .eventMsg (.itemCompleted named item) => if isReviewMode item then some named else none
  | _ => none

def PendingTurn.kind (turn : PendingTurn) : Kind :=
  if turn.openedExplicitly then .started else if turn.items.isEmpty then .bare else .filled

def PendingTurn.outline (turn : PendingTurn) : Open Text := ⟨turn.id, turn.kind⟩

/-- The builder is at a stack. A turn without items was started by name or saw a compaction, so
that it is kept when it is finished. -/
structure Refines (b : Builder) (s : Stack Text) : Prop where
  finished : b.turns.map (·.id) = s.finished
  current : b.currentTurn.map (·.outline) = s.current
  kept : ∀ turn ∈ b.currentTurn, turn.kind = .bare → turn.sawCompaction = true

variable {b : Builder} {s : Stack Text}

theorem Refines.shown (h : Refines b s) :
    s.shown = b.turns.map (·.id) ++ (b.currentTurn.map (·.id)).toList := by
  rw [Stack.shown, ← h.finished, ← h.current, Option.map_map]
  rfl

theorem Refines.mem_shown (h : Refines b s) (turnId : Text) :
    b.hasTurn turnId ↔ turnId ∈ s.shown := by
  rw [h.shown, hasTurn, Bool.or_eq_true, or_comm, mem_append]
  refine or_congr ?_ ?_
  · simp [any_eq_true]
  · cases b.currentTurn with
    | none => simp
    | some turn => simpa using eq_comm

theorem Refines.finish (h : Refines b s) : Refines b.finishCurrentTurn s.finish := by
  have hshown := h.shown
  cases hcurrent : b.currentTurn with
  | none =>
    rw [hcurrent] at hshown
    have hfinish : b.finishCurrentTurn = b := by rw [finishCurrentTurn, hcurrent]
    rw [hfinish]
    refine ⟨?_, by rw [hcurrent]; rfl, by simp [hcurrent]⟩
    simpa [Stack.finish] using hshown.symm
  | some turn =>
    rw [hcurrent] at hshown
    have hkept : (turn.items.isEmpty && !turn.openedExplicitly && !turn.sawCompaction) = false := by
      have hturn := h.kept turn hcurrent
      rw [kind] at hturn
      cases hitems : turn.items.isEmpty <;> cases hopened : turn.openedExplicitly <;> simp_all
    rw [finishCurrentTurn, hcurrent]
    simp only [hkept, Bool.false_eq_true, if_false]
    refine ⟨?_, rfl, by simp⟩
    simpa [Stack.finish] using hshown.symm

theorem Refines.congr {b' : Builder} (h : Refines b s) (hturns : b'.turns = b.turns)
    (hcurrent : b'.currentTurn = b.currentTurn) : Refines b' s := by
  refine ⟨?_, ?_, ?_⟩
  · rw [hturns]
    exact h.finished
  · rw [hcurrent]
    exact h.current
  · rw [hcurrent]
    exact h.kept

theorem PendingTurn.kind_ne_bare {turn : PendingTurn} (h : turn.items ≠ []) :
    turn.kind ≠ .bare := by
  rw [kind, isEmpty_eq_false_iff.mpr h]
  cases turn.openedExplicitly <;> exact Kind.noConfusion

theorem PendingTurn.outline_of_items {turn : PendingTurn} {items : List ThreadItem}
    (h : items ≠ []) : outline { turn with items := items } = turn.outline.fill := by
  have hempty := isEmpty_eq_false_iff.mpr h
  obtain ⟨id, old, error, status, opened, saw⟩ := turn
  cases opened <;> cases hold : old.isEmpty <;>
    simp [outline, kind, Open.fill, hempty, hold]

theorem modifyFirst_ne_nil {α : Type} {p : α → Bool} {f : α → α} {xs : List α} (h : xs ≠ []) :
    modifyFirst p f xs ≠ [] := by
  cases xs with
  | nil => exact absurd rfl h
  | cons x xs =>
    rw [modifyFirst]
    split <;> exact cons_ne_nil _ _

theorem upsert_ne_nil (items : List ThreadItem) (item : ThreadItem) : upsert items item ≠ [] := by
  rw [upsert]
  split
  · next h =>
    apply modifyFirst_ne_nil
    rintro rfl
    exact nomatch h
  · exact append_ne_nil_of_right_ne_nil _ (cons_ne_nil _ _)

theorem PendingTurn.items_upsert_ne_nil (turn : PendingTurn) (item : ThreadItem) :
    (turn.upsert item).items ≠ [] := upsert_ne_nil _ _

theorem PendingTurn.outline_upsert (turn : PendingTurn) (item : ThreadItem) :
    (turn.upsert item).outline = turn.outline.fill :=
  outline_of_items (upsert_ne_nil _ _)

theorem map_modifyFirst {α β : Type} {p : α → Bool} {f : α → α} {g : α → β}
    (h : ∀ x, g (f x) = g x) (xs : List α) : (modifyFirst p f xs).map g = xs.map g := by
  induction xs with
  | nil => rfl
  | cons x xs ih =>
    rw [modifyFirst]
    split
    · rw [map_cons, h, map_cons]
    · rw [map_cons, ih, map_cons]

theorem Refines.here (h : Refines b s) {items : List ThreadItem} (hitems : items ≠ []) :
    Refines (b.withCurrent { b.ensureTurn with items := items })
      (s.step (rolloutTurnId b.currentRolloutIndex) .here) := by
  refine ⟨h.finished, ?_, ?_⟩
  · simp only [withCurrent, Option.map_some, Stack.step, Option.some.injEq]
    rw [outline_of_items hitems, ← h.current, ensureTurn]
    cases b.currentTurn <;> rfl
  · intro turn hturn hbare
    obtain rfl := Option.some.inj hturn
    exact absurd hbare (kind_ne_bare hitems)

theorem modifyTurn_of_current {turn : PendingTurn} {turnId : Text}
    (hcurrent : b.currentTurn = some turn) (hid : turn.id = turnId)
    (f : PendingTurn → PendingTurn) : b.modifyTurn turnId f = b.withCurrent (f turn) := by
  rw [modifyTurn, hcurrent, Option.filter_some_pos (by simpa using hid)]

theorem modifyTurn_of_ne {turnId : Text} (h : ∀ turn ∈ b.currentTurn, turn.id ≠ turnId)
    (f : PendingTurn → PendingTurn) :
    b.modifyTurn turnId f = { b with turns := modifyFirst (·.id = turnId) f b.turns } := by
  have hnone : b.currentTurn.filter (·.id = turnId) = none := by
    rw [Option.filter_eq_none_iff]
    intro turn hturn
    simpa using h turn hturn
  rw [modifyTurn, hnone]

theorem Refines.modifyFirst (h : Refines b s) {p : PendingTurn → Bool}
    {f : PendingTurn → PendingTurn} (hid : ∀ turn, (f turn).id = turn.id) :
    Refines { b with turns := Transcript.modifyFirst p f b.turns } s :=
  ⟨(map_modifyFirst hid _).trans h.finished, h.current, h.kept⟩

theorem Refines.into (h : Refines b s) (turnId : Text) (item : ThreadItem) :
    Refines (b.upsertItemInTurnId turnId item) (s.into turnId) := by
  rw [upsertItemInTurnId]
  by_cases hcurrent : ∃ turn ∈ b.currentTurn, turn.id = turnId
  · obtain ⟨turn, hturn, hid⟩ := hcurrent
    have hcurrent : b.currentTurn = some turn := hturn
    rw [modifyTurn_of_current hcurrent hid]
    refine ⟨h.finished, ?_, ?_⟩
    · simp only [withCurrent, Stack.into, ← h.current, hcurrent, Option.map_some]
      rw [outline_upsert]
      exact congrArg some (if_pos hid).symm
    · intro turn' hturn' hbare
      obtain rfl := Option.some.inj hturn'
      exact absurd hbare (kind_ne_bare (items_upsert_ne_nil _ item))
  · have hne : ∀ turn ∈ b.currentTurn, turn.id ≠ turnId := fun turn hturn hid =>
      hcurrent ⟨turn, hturn, hid⟩
    have hinto : s.into turnId = s := by
      rw [Stack.into, ← h.current, Option.map_map]
      have hsame : b.currentTurn.map ((fun o : Open Text => if o.id = turnId then o.fill else o) ∘
          (·.outline)) = s.current := by
        rw [← h.current]
        exact Option.map_congr fun turn hturn => if_neg (hne turn hturn)
      rw [hsame]
    rw [modifyTurn_of_ne hne, hinto]
    exact h.modifyFirst fun _ => rfl

theorem Refines.mapCurrent (h : Refines b s) {f : PendingTurn → PendingTurn}
    (houtline : ∀ turn, (f turn).outline = turn.outline)
    (hsaw : ∀ turn, (f turn).sawCompaction = turn.sawCompaction) :
    Refines { b with currentTurn := b.currentTurn.map f } s := by
  refine ⟨h.finished, ?_, ?_⟩
  · rw [← h.current, Option.map_map]
    exact Option.map_congr fun turn _ => houtline turn
  · intro turn hturn hbare
    obtain ⟨old, hold, rfl⟩ := Option.map_eq_some_iff.mp hturn
    rw [hsaw]
    exact h.kept old hold ((congrArg Open.kind (houtline old)).symm.trans hbare)

theorem Refines.start (h : Refines b s) (turnId : Text) (turn : PendingTurn)
    (hid : turn.id = turnId) (hkind : turn.kind = .started) :
    Refines (b.finishCurrentTurn.withCurrent turn) ⟨s.shown, some ⟨turnId, .started⟩⟩ := by
  refine ⟨h.finish.finished, ?_, ?_⟩
  · rw [withCurrent, Option.map_some, outline, hid, hkind]
  · intro turn' hturn hbare
    obtain rfl := Option.some.inj hturn
    rw [hkind] at hbare
    exact nomatch hbare

def Builder.after (b : Builder) (s : Stack Text) (u : Use Text) : Stack Text :=
  s.step (rolloutTurnId b.currentRolloutIndex) u

section
variable (h : Refines b s)
include h

theorem Refines.pushItem (item : ThreadItem) :
    Refines (b.pushItemInCurrentTurn item) (b.after s .here) :=
  h.here (append_ne_nil_of_right_ne_nil _ (cons_ne_nil _ _))

theorem Refines.upsertItem (item : ThreadItem) :
    Refines (b.upsertItemInCurrentTurn item) (b.after s .here) :=
  h.here (upsert_ne_nil _ _)

theorem Refines.nextItemId : Refines b.nextItemId.2 s := h.congr rfl rfl

theorem Refines.reviewMode (turnId : Option Text) (item : ThreadItem) :
    Refines (b.upsertReviewModeItem turnId item) (b.after s (reviewUse turnId)) := by
  cases turnId with
  | none => exact h.upsertItem item
  | some turnId =>
    rw [Builder.upsertReviewModeItem, reviewUse, Builder.after, Stack.step]
    by_cases hknown : turnId ∈ s.shown
    · rw [if_pos hknown, if_pos ((h.mem_shown turnId).mpr hknown)]
      exact h.into turnId item
    · rw [if_neg hknown, if_neg (fun hhas => hknown ((h.mem_shown turnId).mp hhas))]
      -- the turn is opened for the item
      have hopened : Refines (b.finishCurrentTurn.withCurrent
          ((b.finishCurrentTurn.newTurn (some turnId)).upsert item))
          ⟨s.shown, some ⟨turnId, .filled⟩⟩ := by
        refine ⟨h.finish.finished, ?_, ?_⟩
        · rw [Builder.withCurrent, Option.map_some, outline_upsert]
          rfl
        · intro turn hturn hbare
          obtain rfl := Option.some.inj hturn
          exact absurd hbare (kind_ne_bare (items_upsert_ne_nil _ item))
      have hid : (b.finishCurrentTurn.newTurn (some turnId)).id = turnId := rfl
      have hmodify : (b.finishCurrentTurn.withCurrent
          (b.finishCurrentTurn.newTurn (some turnId))).modifyTurn turnId (·.upsert item) =
          b.finishCurrentTurn.withCurrent
            ((b.finishCurrentTurn.newTurn (some turnId)).upsert item) :=
        modifyTurn_of_current rfl hid _
      simp only [Builder.upsertItemInTurnId]
      rw [hmodify]
      exact hopened

theorem Refines.userMessage (payload : UserMessageEvent) :
    Refines (b.handleUserMessage payload) (b.after s .message) := by
  have hpush := h.nextItemId.pushItem
    (.userMessage b.nextItemId.1 payload.clientId (buildUserInputs payload))
  rw [Builder.after, Stack.step, ← h.current] at hpush
  rw [Builder.after, Stack.step, Stack.message, ← h.current, Builder.handleUserMessage]
  cases hcurrent : b.currentTurn with
  | none =>
    rw [hcurrent] at hpush
    exact hpush
  | some turn =>
    have hcondition : (!turn.openedExplicitly && !(turn.sawCompaction && turn.items.isEmpty)) =
        decide (turn.kind = .filled) := by
      have hkept := h.kept turn hcurrent
      rw [kind] at hkept ⊢
      cases hopened : turn.openedExplicitly <;> cases hitems : turn.items.isEmpty <;> simp_all
    simp only [Option.map_some, hcondition, decide_eq_true_eq]
    by_cases hfilled : turn.kind = .filled
    · -- the turn is finished and the message opens the next one
      have hnext := h.finish.nextItemId.pushItem
        (.userMessage b.finishCurrentTurn.nextItemId.1 payload.clientId (buildUserInputs payload))
      have hindex : b.finishCurrentTurn.currentRolloutIndex = b.currentRolloutIndex := by
        rw [Builder.finishCurrentTurn, hcurrent]
        simp only
        split <;> rfl
      rw [if_pos hfilled, if_pos (show turn.outline.kind = .filled from hfilled), ← hindex]
      exact hnext
    · rw [if_neg hfilled, if_neg (show ¬ turn.outline.kind = .filled from hfilled)]
      rw [hcurrent] at hpush
      exact hpush

theorem Refines.addReasoning (summary content : List Text) :
    Refines (b.addReasoning summary content) (b.after s .here) := by
  rw [Builder.addReasoning]
  simp only
  split
  · exact h.here (append_ne_nil_of_right_ne_nil _ (cons_ne_nil _ _))
  · exact h.nextItemId.pushItem _

theorem Refines.turnCall (turnId : Text) (item : ThreadItem) :
    Refines (b.upsertTurnCall turnId item) (b.after s (callUse turnId)) := by
  rw [upsertTurnCall, callUse]
  split
  · exact h.upsertItem item
  · exact h.into turnId item

theorem Refines.guardian (event : GuardianAssessmentEvent) :
    Refines (b.handleGuardianAssessment event) (b.after s (guardianUse event)) := by
  rw [handleGuardianAssessment, guardianUse]
  by_cases happroved : event.status = .approved
  · rw [if_pos happroved, if_pos (.inl happroved)]
    exact h
  · rw [if_neg happroved]
    cases hid : guardianItemId event with
    | none =>
      rw [if_pos (.inr rfl)]
      exact h
    | some id =>
      rw [if_neg (by simp [happroved])]
      exact h.turnCall event.turnId _

theorem Refines.lifecycle (event : EventMsg) (turnId : Text) (item : LifecycleItem) :
    Refines (b.handleItemLifecycle event turnId item) (b.after s (lifecycleUse turnId item)) := by
  cases item with
  | plan id text =>
    rw [handleItemLifecycle, lifecycleUse]
    split
    · exact h
    · exact h.into turnId _
  | item kind id unread =>
    cases kind with
    | enteredReviewMode | exitedReviewMode => exact h.reviewMode (some turnId) _
    | hookPrompt | functionCallOutput | commandExecution | dynamicToolCall
      | collabAgentToolCall | subAgentActivity | extension => exact h.into turnId _
    | _ => exact h

theorem Refines.review (event : EventMsg) (turnId : Option Text) (review : ReviewModeEvent) :
    Refines (b.handleReviewMode event turnId review) (b.after s (reviewUse turnId)) := by
  rw [handleReviewMode]
  cases review.itemId with
  | none => exact h.nextItemId.reviewMode turnId _
  | some id => exact h.reviewMode turnId _

end

theorem outline_applyCompletion (outcome : TurnOutcome) (turn : PendingTurn) :
    (applyCompletion outcome turn).outline = turn.outline ∧
      (applyCompletion outcome turn).sawCompaction = turn.sawCompaction := by
  rw [applyCompletion]
  split
  · exact ⟨rfl, rfl⟩
  · split <;> exact ⟨rfl, rfl⟩

theorem Refines.turnComplete (h : Refines b s) (turnId : Text) (outcome : TurnOutcome) :
    Refines (b.handleTurnComplete turnId outcome) (b.after s (.complete turnId)) := by
  have happlied := h.mapCurrent (fun turn => (outline_applyCompletion outcome turn).1)
    fun turn => (outline_applyCompletion outcome turn).2
  have hid (turn : PendingTurn) : (Builder.applyCompletion outcome turn).id = turn.id :=
    congrArg Open.id (outline_applyCompletion outcome turn).1
  rw [Builder.handleTurnComplete, Builder.after, Stack.step]
  by_cases hcurrent : ∃ turn ∈ b.currentTurn, turn.id = turnId
  · obtain ⟨turn, hturn, hturnId⟩ := hcurrent
    have hcurrent : b.currentTurn = some turn := hturn
    have hany : s.current.any (·.id = turnId) := by
      rw [← h.current, hcurrent]
      exact decide_eq_true hturnId
    rw [hcurrent, Option.filter_some_pos (by simpa using hturnId), if_pos hany]
    rw [hcurrent] at happlied
    exact happlied.finish
  · have hnone : b.currentTurn.filter (·.id = turnId) = none := by
      rw [Option.filter_eq_none_iff]
      intro turn hturn hturnId
      exact hcurrent ⟨turn, hturn, by simpa using hturnId⟩
    have hany : ¬ s.current.any (·.id = turnId) := by
      rw [← h.current, Option.any_map, Option.any_eq_true]
      rintro ⟨turn, hturn, hturnId⟩
      exact hcurrent ⟨turn, hturn, of_decide_eq_true hturnId⟩
    have hmem : b.turns.any (·.id = turnId) ↔ turnId ∈ s.finished := by
      rw [← h.finished]
      simp [any_eq_true]
    rw [hnone, if_neg hany]
    by_cases hfinished : turnId ∈ s.finished
    · rw [if_pos hfinished]
      simp only [hmem.mpr hfinished, if_true]
      exact h.modifyFirst hid
    · rw [if_neg hfinished]
      simp only [mt hmem.mp hfinished]
      exact happlied.finish

theorem Refines.turnAborted (h : Refines b s) (turnId : Option Text) (outcome : TurnOutcome) :
    Refines (b.handleTurnAborted turnId outcome) s := by
  rw [handleTurnAborted]
  split
  · next turnId _ =>
    by_cases hcurrent : ∃ turn ∈ b.currentTurn, turn.id = turnId
    · obtain ⟨turn, hturn, hid⟩ := hcurrent
      have hcurrent : b.currentTurn = some turn := hturn
      have hmap := h.mapCurrent (f := applyAbort outcome) (fun _ => rfl) fun _ => rfl
      rw [hcurrent] at hmap
      rw [modifyTurn_of_current hcurrent hid]
      exact hmap
    · rw [modifyTurn_of_ne fun turn hturn hid => hcurrent ⟨turn, hturn, hid⟩]
      exact h.modifyFirst fun _ => rfl
  · exact h.mapCurrent (fun _ => rfl) fun _ => rfl

theorem Refines.error (h : Refines b s) (info : Option CodexErrorInfo) (message : Text) :
    Refines (b.handleError info message) s := by
  rw [handleError]
  split
  · exact h.mapCurrent (fun _ => rfl) fun _ => rfl
  · exact h

theorem Refines.compacted (h : Refines b s) : Refines b.handleCompacted (b.after s .mark) := by
  refine ⟨h.finished, ?_, ?_⟩
  · simp only [Builder.handleCompacted, Builder.withCurrent, Option.map_some, Builder.after,
      Stack.step, ← h.current, Builder.ensureTurn]
    cases b.currentTurn <;> rfl
  · intro turn hturn _
    obtain rfl := Option.some.inj hturn
    rfl

theorem Refines.rollback (h : Refines b s) (numTurns : Nat) :
    Refines (b.handleThreadRollback numTurns) (b.after s (.rollback numTurns)) := by
  have hnone : b.finishCurrentTurn.currentTurn = none := by
    rw [Builder.finishCurrentTurn]
    cases hcurrent : b.currentTurn with
    | none => exact hcurrent
    | some turn =>
      simp only
      split <;> rfl
  have hlength := congrArg List.length h.finish.finished
  rw [length_map] at hlength
  refine ⟨?_, ?_, ?_⟩
  · simp only [Builder.handleThreadRollback, Builder.after, Stack.step, map_take]
    rw [h.finish.finished, hlength]
    rfl
  · simp only [Builder.handleThreadRollback, hnone]
    rfl
  · simp [Builder.handleThreadRollback, hnone]

theorem Refines.event (h : Refines b s) (event : EventMsg) :
    Refines (b.handleEvent event) (b.after s (eventUse event)) := by
  cases event with
  | userMessage payload => exact h.userMessage payload
  | agentMessage message unread =>
    rw [handleEvent, handleAgentMessage, eventUse, textUse]
    split
    · exact h
    · exact h.nextItemId.pushItem _
  | agentReasoning text =>
    rw [handleEvent, handleAgentReasoning, eventUse, textUse]
    split
    · exact h
    · exact h.addReasoning _ _
  | agentReasoningRawContent text =>
    rw [handleEvent, handleAgentReasoningRawContent, eventUse, textUse]
    split
    · exact h
    · exact h.addReasoning _ _
  | activeTurnCall kind call => exact h.upsertItem _
  | execCommandBegin turnId call => exact h.into turnId _
  | execCommandEnd turnId call => exact h.into turnId _
  | guardianAssessment event => exact h.guardian event
  | turnCall kind turnId call => exact h.turnCall turnId _
  | contextCompacted => exact h.nextItemId.pushItem _
  | enteredReviewMode turnId review => exact h.review _ turnId review
  | exitedReviewMode turnId review => exact h.review _ turnId review
  | itemStarted turnId item => exact h.lifecycle _ turnId item
  | itemCompleted turnId item => exact h.lifecycle _ turnId item
  | error info message => exact h.error info message
  | threadRolledBack numTurns => exact h.rollback numTurns
  | turnAborted turnId outcome => exact h.turnAborted turnId outcome
  | turnStarted turnId unread => exact h.start turnId _ rfl rfl
  | turnComplete turnId outcome => exact h.turnComplete turnId outcome
  | other unread => exact h

@[simp] theorem nextRolloutIndex_withCurrent (b : Builder) (turn : PendingTurn) :
    (b.withCurrent turn).nextRolloutIndex = b.nextRolloutIndex := rfl

@[simp] theorem nextRolloutIndex_finishCurrentTurn (b : Builder) :
    b.finishCurrentTurn.nextRolloutIndex = b.nextRolloutIndex := by
  rw [finishCurrentTurn]
  split
  · split <;> rfl
  · rfl

@[simp] theorem nextRolloutIndex_modifyTurn (b : Builder) (turnId : Text)
    (f : PendingTurn → PendingTurn) :
    (b.modifyTurn turnId f).nextRolloutIndex = b.nextRolloutIndex := by
  rw [modifyTurn]
  split <;> rfl

@[simp] theorem nextRolloutIndex_upsertReviewModeItem (b : Builder) (turnId : Option Text)
    (item : ThreadItem) :
    (b.upsertReviewModeItem turnId item).nextRolloutIndex = b.nextRolloutIndex := by
  cases turnId with
  | none => rfl
  | some turnId =>
    simp only [upsertReviewModeItem, upsertItemInTurnId,
      nextRolloutIndex_modifyTurn]
    split <;> simp

@[simp] theorem nextRolloutIndex_addReasoning (b : Builder) (summary content : List Text) :
    (b.addReasoning summary content).nextRolloutIndex = b.nextRolloutIndex := by
  rw [addReasoning]
  simp only
  split <;> rfl

@[simp] theorem nextRolloutIndex_upsertTurnCall (b : Builder) (turnId : Text) (item : ThreadItem) :
    (b.upsertTurnCall turnId item).nextRolloutIndex = b.nextRolloutIndex := by
  rw [upsertTurnCall]
  split
  · rfl
  · exact nextRolloutIndex_modifyTurn _ _ _

theorem nextRolloutIndex_handleUserMessage (b : Builder) (payload : UserMessageEvent) :
    (b.handleUserMessage payload).nextRolloutIndex = b.nextRolloutIndex := by
  simp only [handleUserMessage, pushItemInCurrentTurn,
    nextRolloutIndex_withCurrent, nextItemId]
  split
  · split
    · exact nextRolloutIndex_finishCurrentTurn b
    · rfl
  · rfl

theorem nextRolloutIndex_handleItemLifecycle (b : Builder) (event : EventMsg) (turnId : Text)
    (item : LifecycleItem) :
    (b.handleItemLifecycle event turnId item).nextRolloutIndex = b.nextRolloutIndex := by
  cases item with
  | plan id text =>
    rw [handleItemLifecycle]
    split
    · rfl
    · exact nextRolloutIndex_modifyTurn _ _ _
  | item kind id unread =>
    cases kind <;> simp [handleItemLifecycle, upsertItemInTurnId]

theorem nextRolloutIndex_handleReviewMode (b : Builder) (event : EventMsg) (turnId : Option Text)
    (review : ReviewModeEvent) :
    (b.handleReviewMode event turnId review).nextRolloutIndex = b.nextRolloutIndex := by
  rw [handleReviewMode]
  split
  · exact nextRolloutIndex_upsertReviewModeItem _ _ _
  · exact nextRolloutIndex_upsertReviewModeItem b.nextItemId.2 _ _

theorem nextRolloutIndex_handleTurnComplete (b : Builder) (turnId : Text) (outcome : TurnOutcome) :
    (b.handleTurnComplete turnId outcome).nextRolloutIndex = b.nextRolloutIndex := by
  rw [handleTurnComplete]
  split
  · simp
  · split <;> simp

theorem nextRolloutIndex_handleEvent (b : Builder) (event : EventMsg) :
    (b.handleEvent event).nextRolloutIndex = b.nextRolloutIndex := by
  cases event with
  | userMessage payload => exact nextRolloutIndex_handleUserMessage b payload
  | agentMessage message unread =>
    rw [handleEvent, handleAgentMessage]
    split <;> rfl
  | agentReasoning text =>
    rw [handleEvent, handleAgentReasoning]
    split <;> simp
  | agentReasoningRawContent text =>
    rw [handleEvent, handleAgentReasoningRawContent]
    split <;> simp
  | guardianAssessment event =>
    rw [handleEvent, handleGuardianAssessment]
    split
    · rfl
    · split <;> simp
  | execCommandBegin | execCommandEnd => exact nextRolloutIndex_modifyTurn _ _ _
  | turnCall => exact nextRolloutIndex_upsertTurnCall _ _ _
  | enteredReviewMode | exitedReviewMode => exact nextRolloutIndex_handleReviewMode _ _ _ _
  | itemStarted | itemCompleted => exact nextRolloutIndex_handleItemLifecycle _ _ _ _
  | error info message =>
    rw [handleEvent, handleError]
    split <;> rfl
  | threadRolledBack numTurns => exact nextRolloutIndex_finishCurrentTurn b
  | turnStarted turnId unread => exact nextRolloutIndex_finishCurrentTurn b
  | turnAborted turnId outcome =>
    rw [handleEvent, handleTurnAborted]
    split
    · exact nextRolloutIndex_modifyTurn _ _ _
    · rfl
  | turnComplete turnId outcome => exact nextRolloutIndex_handleTurnComplete b turnId outcome
  | activeTurnCall | contextCompacted | other => rfl

variable (r : Rules) (promptId : Nat → ResponseItem → Text)

theorem Refines.record (h : Refines b s) (item : RolloutItem) :
    Refines (b.handleRecord r promptId item) (b.after s (turnUse r item)) := by
  cases item with
  | eventMsg event => exact h.event event
  | compacted c => exact h.compacted
  | responseItem response =>
    obtain ⟨item, metadata⟩ := response
    cases item with
    | message role content passthrough unread =>
      simp only [handleRecord, handleResponseItem, turnUse, responseUse]
      split
      · exact h.pushItem _
      · exact h
    | _ => exact h
  | _ => exact h

theorem nextRolloutIndex_handleRecord (b : Builder) (item : RolloutItem) :
    (b.handleRecord r promptId item).nextRolloutIndex = b.nextRolloutIndex := by
  cases item with
  | eventMsg event => exact nextRolloutIndex_handleEvent b event
  | responseItem response =>
    obtain ⟨item, metadata⟩ := response
    cases item with
    | message role content passthrough unread =>
      simp only [handleRecord, handleResponseItem]
      split <;> rfl
    | _ => rfl
  | _ => rfl

theorem Refines.records (h : Refines b s) (items : List RolloutItem) :
    Refines (b.handleRolloutItems r promptId items)
      (s.run rolloutTurnId b.nextRolloutIndex (items.map (turnUse r))) := by
  induction items generalizing b s with
  | nil => exact h
  | cons item items ih =>
    have hadvance : Refines b.advance s := h.congr rfl rfl
    have hrest := ih (hadvance.record r promptId item)
    rw [nextRolloutIndex_handleRecord] at hrest
    exact hrest

theorem refines_new : Refines new ⟨[], none⟩ := ⟨rfl, rfl, by simp [new]⟩

theorem map_id_buildTurnsFromRolloutItems (items : List RolloutItem) :
    (buildTurnsFromRolloutItems r promptId items).map (·.id) =
      (Stack.run rolloutTurnId ⟨[], none⟩ 0 (items.map (turnUse r))).shown :=
  (refines_new.records r promptId items).finish.finished

end Codex.Transcript

import Codex.Rollout.StandingMessages
import Codex.Transcript.Outline

/-! While an explicitly started turn is open, each `UserMessage` event adds its message to it, and
no other record takes one away, as long as it does not look for its item under the id of a message.
-/

namespace Codex.Transcript
open Codex.Lib Codex.Rollout List Option Builder

abbrev ShownMessage := Option Text × List UserInput

def shownMessage? : ThreadItem → Option ShownMessage
  | .userMessage _ clientId content => some (clientId, content)
  | _ => none

def shownMessages (items : List ThreadItem) : List ShownMessage := items.filterMap shownMessage?

def shownAs (payload : UserMessageEvent) : ShownMessage :=
  (payload.clientId, buildUserInputs payload)

def NotMessageId (items : List ThreadItem) (id : Text) : Prop :=
  ∀ item ∈ items, (shownMessage? item).isSome = true → item.id ≠ id

instance (items : List ThreadItem) (id : Text) : Decidable (NotMessageId items id) :=
  List.decidableBAll _ _

theorem filterMap_modifyFirst {α β : Type} {p : α → Bool} {f : α → α} {g : α → Option β}
    {xs : List α} (hxs : ∀ x ∈ xs, p x → g (f x) = g x) :
    (modifyFirst p f xs).filterMap g = xs.filterMap g := by
  induction xs with
  | nil => rfl
  | cons x xs ih =>
    rw [modifyFirst]
    split
    · next hp =>
      rw [filterMap_cons, filterMap_cons, hxs x mem_cons_self hp]
    · rw [filterMap_cons, filterMap_cons, ih fun y hy => hxs y (mem_cons_of_mem x hy)]

section Upsert
variable {items : List ThreadItem} {item : ThreadItem}

theorem shownMessages_upsert (hitem : shownMessage? item = none)
    (hid : NotMessageId items item.id) :
    shownMessages (upsert items item) = shownMessages items := by
  rw [upsert]
  split
  · apply filterMap_modifyFirst
    intro x hx hsame
    rw [hitem, eq_comm, ← not_isSome_iff_eq_none]
    intro hmessage
    exact hid x hx hmessage (of_decide_eq_true hsame)
  · rw [shownMessages, filterMap_append, filterMap_cons_none hitem, filterMap_nil, append_nil]
    rfl

theorem shownMessages_concat (items : List ThreadItem) (item : ThreadItem) :
    shownMessages (items ++ [item]) = shownMessages items ++ (shownMessage? item).toList := by
  rw [shownMessages, filterMap_append]
  cases hitem : shownMessage? item <;> simp [hitem, shownMessages]

end Upsert

def PendingTurn.messages (turn : PendingTurn) : List ShownMessage := shownMessages turn.items

/-- An explicitly started turn with these messages. -/
structure OpenTurn (turnId : Text) (messages : List ShownMessage) (turn : PendingTurn) : Prop where
  id : turn.id = turnId
  openedExplicitly : turn.openedExplicitly = true
  messages : turn.messages = messages

namespace OpenTurn
variable {turnId : Text} {messages : List ShownMessage} {turn : PendingTurn} {item : ThreadItem}
  (h : OpenTurn turnId messages turn)
include h

theorem push (item : ThreadItem) :
    OpenTurn turnId (messages ++ (shownMessage? item).toList) (turn.push item) := by
  refine ⟨h.id, h.openedExplicitly, ?_⟩
  rw [PendingTurn.messages, PendingTurn.push, shownMessages_concat]
  exact congrArg (· ++ _) h.messages

theorem upsert (hitem : shownMessage? item = none) (hid : NotMessageId turn.items item.id) :
    OpenTurn turnId messages (turn.upsert item) :=
  ⟨h.id, h.openedExplicitly, (shownMessages_upsert hitem hid).trans h.messages⟩

end OpenTurn

/-- The builder is in an explicitly started turn. `older` are the messages of the turns before. -/
structure InTurn (b : Builder) (turnId : Text) (older : List (List ShownMessage))
    (messages : List ShownMessage) : Prop where
  older : b.turns.map (·.messages) = older
  current : ∃ turn, b.currentTurn = some turn ∧ OpenTurn turnId messages turn

def nonempty? (text : Text) : Option Text := if text.isEmpty then none else some text

/-- The turns that a record which names `turnId`, or none for the current turn, can reach. -/
def Builder.turnsNamed (b : Builder) : Option Text → List PendingTurn
  | some turnId => (b.turns ++ b.currentTurn.toList).filter (·.id = turnId)
  | none => b.currentTurn.toList

namespace InTurn
variable {b : Builder} {turnId : Text} {older : List (List ShownMessage)}
  {messages : List ShownMessage} {item : ThreadItem}

section
variable (h : InTurn b turnId older messages)
include h

theorem withCurrent {messages' : List ShownMessage} {turn : PendingTurn}
    (hturn : OpenTurn turnId messages' turn) :
    InTurn (b.withCurrent turn) turnId older messages' :=
  ⟨h.older, turn, rfl, hturn⟩

theorem nextItemId : InTurn b.nextItemId.2 turnId older messages := ⟨h.older, h.current⟩

theorem ensureTurn : b.currentTurn = some b.ensureTurn ∧ OpenTurn turnId messages b.ensureTurn := by
  obtain ⟨turn, hcurrent, hturn⟩ := h.current
  rw [Builder.ensureTurn, hcurrent, getD_some]
  exact ⟨rfl, hturn⟩

theorem push (hitem : shownMessage? item = none) :
    InTurn (b.pushItemInCurrentTurn item) turnId older messages := by
  have hpush := h.ensureTurn.2.push item
  rw [hitem, toList_none, append_nil] at hpush
  exact h.withCurrent hpush

theorem upsert (hitem : shownMessage? item = none)
    (hid : ∀ turn ∈ b.turnsNamed none, NotMessageId turn.items item.id) :
    InTurn (b.upsertItemInCurrentTurn item) turnId older messages := by
  obtain ⟨hcurrent, hturn⟩ := h.ensureTurn
  refine h.withCurrent (hturn.upsert hitem (hid _ ?_))
  rw [turnsNamed, hcurrent]
  exact mem_singleton_self _

theorem into (named : Text) (hitem : shownMessage? item = none)
    (hid : ∀ turn ∈ b.turnsNamed (some named), NotMessageId turn.items item.id) :
    InTurn (b.upsertItemInTurnId named item) turnId older messages := by
  obtain ⟨turn, hcurrent, hturn⟩ := h.current
  by_cases hnamed : turn.id = named
  · rw [upsertItemInTurnId, modifyTurn_of_current hcurrent hnamed]
    refine h.withCurrent (hturn.upsert hitem (hid turn (mem_filter.mpr ⟨?_, ?_⟩)))
    · rw [hcurrent]
      exact mem_append_right _ (mem_singleton_self turn)
    · exact decide_eq_true hnamed
  · have hother : ∀ turn ∈ b.currentTurn, turn.id ≠ named := by
      intro current hmem
      rw [hcurrent] at hmem
      rwa [← Option.some.inj hmem]
    rw [upsertItemInTurnId, modifyTurn_of_ne hother]
    refine ⟨?_, turn, hcurrent, hturn⟩
    rw [← h.older, ← filterMap_eq_map]
    apply filterMap_modifyFirst
    intro other hmem hsame
    exact congrArg some (shownMessages_upsert hitem
      (hid other (mem_filter.mpr ⟨mem_append_left _ hmem, hsame⟩)))

theorem intoOrHere (named : Text) (hitem : shownMessage? item = none)
    (hid : ∀ turn ∈ b.turnsNamed (nonempty? named), NotMessageId turn.items item.id) :
    InTurn (b.upsertTurnCall named item) turnId older messages := by
  rw [upsertTurnCall]
  rw [nonempty?] at hid
  split
  · next hempty =>
    rw [if_pos hempty] at hid
    exact h.upsert hitem hid
  · next hempty =>
    rw [if_neg hempty] at hid
    exact h.into named hitem hid

theorem review {named : Option Text} (hnamed : ∀ id ∈ named, b.hasTurn id = true)
    (hitem : shownMessage? item = none)
    (hid : ∀ turn ∈ b.turnsNamed named, NotMessageId turn.items item.id) :
    InTurn (b.upsertReviewModeItem named item) turnId older messages := by
  cases named with
  | none => exact h.upsert hitem hid
  | some id =>
    rw [Builder.upsertReviewModeItem]
    simp only [hnamed id rfl, if_true]
    exact h.into id hitem hid

end

end InTurn

def userEvents (items : List RolloutItem) : List UserMessageEvent :=
  items.filterMap fun
    | .eventMsg (.userMessage payload) => some payload
    | _ => none

/-- The id of a lifecycle item that `handle_materialized_item_lifecycle` shows. -/
def shownItemId : LifecycleItem → Option Text
  | .plan id text => if text.isEmpty then none else some id
  | .item kind id _ =>
    if kind ∈ [.hookPrompt, .functionCallOutput, .commandExecution, .dynamicToolCall,
      .collabAgentToolCall, .subAgentActivity, .extension, .enteredReviewMode,
      .exitedReviewMode] then some id
    else none

/-- The turn that an agent record names, none for the current one, and the id under which it looks
there for the item that it adds or replaces. -/
def Builder.sought (b : Builder) : RolloutItem → Option (Option Text × Text)
  | .eventMsg (.activeTurnCall _ call) => some (none, call.callId)
  | .eventMsg (.execCommandBegin turnId call) => some (some turnId, call.callId)
  | .eventMsg (.execCommandEnd turnId call) => some (some turnId, call.callId)
  | .eventMsg (.guardianAssessment event) =>
    if event.status = .approved then none
    else (guardianItemId event).map (nonempty? event.turnId, ·)
  | .eventMsg (.turnCall _ turnId call) => some (nonempty? turnId, call.callId)
  | .eventMsg (.enteredReviewMode turnId review) =>
    some (turnId, review.itemId.getD b.nextItemId.1)
  | .eventMsg (.exitedReviewMode turnId review) =>
    some (turnId, review.itemId.getD b.nextItemId.1)
  | .eventMsg (.itemStarted turnId item) => (shownItemId item).map (some turnId, ·)
  | .eventMsg (.itemCompleted turnId item) => (shownItemId item).map (some turnId, ·)
  | _ => none

/-- The record leaves the messages of the turns: what it looks for in a turn is not the id of a
message there, and it reviews no turn but a standing one. -/
def Builder.KeepsMessages (b : Builder) (record : RolloutItem) : Prop :=
  (∀ place ∈ b.sought record, ∀ turn ∈ b.turnsNamed place.1, NotMessageId turn.items place.2) ∧
    ∀ id ∈ reviewedTurn record, b.hasTurn id = true

instance (b : Builder) (record : RolloutItem) : Decidable (b.KeepsMessages record) :=
  inferInstanceAs (Decidable (_ ∧ _))

/-- Every record does so in the state in which the builder meets it. -/
def Builder.KeepsAll (r : Rules) (promptId : Nat → ResponseItem → Text) (b : Builder) :
    List RolloutItem → Prop
  | [] => True
  | record :: records => b.KeepsMessages record ∧
      (b.handleRolloutItem r promptId record).KeepsAll r promptId records

instance decidableKeepsAll (r : Rules) (promptId : Nat → ResponseItem → Text) :
    (records : List RolloutItem) → (b : Builder) → Decidable (b.KeepsAll r promptId records)
  | [], _ => isTrue trivial
  | record :: records, b =>
    have := decidableKeepsAll r promptId records (b.handleRolloutItem r promptId record)
    inferInstanceAs (Decidable (_ ∧ _))

theorem keepsAll_append {r : Rules} {promptId : Nat → ResponseItem → Text} {b : Builder}
    {xs ys : List RolloutItem} : b.KeepsAll r promptId (xs ++ ys) ↔
      b.KeepsAll r promptId xs ∧ (b.handleRolloutItems r promptId xs).KeepsAll r promptId ys := by
  induction xs generalizing b with
  | nil => simp [KeepsAll, handleRolloutItems]
  | cons x xs ih =>
    rw [cons_append, KeepsAll, KeepsAll, ih, and_assoc]
    rfl

namespace InTurn
variable {b : Builder} {turnId : Text} {older : List (List ShownMessage)}
  {messages : List ShownMessage} {item : ThreadItem}

section
variable (h : InTurn b turnId older messages)
include h

theorem userMessage (payload : UserMessageEvent) :
    InTurn (b.handleUserMessage payload) turnId older (messages ++ [shownAs payload]) := by
  obtain ⟨turn, hcurrent, hturn⟩ := h.current
  rw [Builder.handleUserMessage]
  simp only [hcurrent, hturn.openedExplicitly, Bool.not_true, Bool.false_and, Bool.false_eq_true,
    if_false]
  have hensure : b.nextItemId.2.ensureTurn = turn := by
    rw [Builder.ensureTurn, show b.nextItemId.2.currentTurn = some turn from hcurrent, getD_some]
  rw [Builder.pushItemInCurrentTurn, hensure]
  exact h.nextItemId.withCurrent
    (hturn.push (.userMessage b.nextItemId.1 payload.clientId (buildUserInputs payload)))

theorem agentMessage (message unread : Text) :
    InTurn (b.handleAgentMessage message unread) turnId older messages := by
  rw [handleAgentMessage]
  split
  · exact h
  · exact h.nextItemId.push rfl

theorem reasoning (summary content : List Text) :
    InTurn (b.addReasoning summary content) turnId older messages := by
  rw [addReasoning]
  simp only
  split
  · next id oldSummary oldContent hlast =>
    have hitems : b.ensureTurn.items =
        b.ensureTurn.items.dropLast ++ [.reasoning id oldSummary oldContent] :=
      (dropLast_append_getLast? _ hlast).symm
    obtain ⟨-, hopen⟩ := h.ensureTurn
    refine h.withCurrent ⟨hopen.id, hopen.openedExplicitly, ?_⟩
    rw [← hopen.messages, PendingTurn.messages, PendingTurn.messages, hitems]
    simp [shownMessages_concat, shownMessage?]
  · exact h.nextItemId.push rfl

theorem lifecycle (event : EventMsg) (named : Text) (item : LifecycleItem)
    (hid : ∀ id ∈ shownItemId item, ∀ turn ∈ b.turnsNamed (some named),
      NotMessageId turn.items id)
    (hreview : isReviewMode item → b.hasTurn named = true) :
    InTurn (b.handleItemLifecycle event named item) turnId older messages := by
  cases item with
  | plan id text =>
    rw [handleItemLifecycle]
    split
    · exact h
    · next hempty => exact h.into named rfl (hid id (if_neg hempty))
  | item kind id unread =>
    cases kind with
    | enteredReviewMode | exitedReviewMode =>
      have hstands : ∀ x ∈ some named, b.hasTurn x = true := by
        intro x hx
        rw [← Option.some.inj hx]
        exact hreview rfl
      exact h.review hstands rfl (hid id rfl)
    | hookPrompt | functionCallOutput | commandExecution | dynamicToolCall
    | collabAgentToolCall | subAgentActivity | extension => exact h.into named rfl (hid id rfl)
    | _ => exact h

theorem guardian (event : GuardianAssessmentEvent)
    (hid : event.status ≠ .approved → ∀ id ∈ guardianItemId event,
      ∀ turn ∈ b.turnsNamed (nonempty? event.turnId), NotMessageId turn.items id) :
    InTurn (b.handleGuardianAssessment event) turnId older messages := by
  rw [handleGuardianAssessment]
  split
  · exact h
  · next hstatus =>
    split
    · next id hitem => exact h.intoOrHere event.turnId rfl (hid hstatus id hitem)
    · exact h

theorem reviewMode (event : EventMsg) (named : Option Text) (review : ReviewModeEvent)
    (hid : ∀ turn ∈ b.turnsNamed named,
      NotMessageId turn.items (review.itemId.getD b.nextItemId.1))
    (hnamed : ∀ id ∈ named, b.hasTurn id = true) :
    InTurn (b.handleReviewMode event named review) turnId older messages := by
  rw [Builder.handleReviewMode]
  cases hitem : review.itemId with
  | some id =>
    rw [hitem] at hid
    exact h.review hnamed rfl hid
  | none =>
    rw [hitem] at hid
    exact h.nextItemId.review hnamed rfl hid

theorem error (info : Option CodexErrorInfo) (message : Text) :
    InTurn (b.handleError info message) turnId older messages := by
  obtain ⟨turn, hcurrent, hturn⟩ := h.current
  rw [handleError]
  split
  · refine ⟨h.older, { turn with status := .failed, error := some message }, ?_, ?_⟩
    · rw [hcurrent]
      rfl
    · exact ⟨hturn.id, hturn.openedExplicitly, hturn.messages⟩
  · exact h

theorem agentEvent {event : EventMsg} (hrecord : (RolloutItem.eventMsg event).isTurnRecord)
    (hkeeps : b.KeepsMessages (.eventMsg event))
    (hagent : ∀ payload, event ≠ .userMessage payload) :
    InTurn (b.handleEvent event) turnId older messages := by
  obtain ⟨hid, hstands⟩ := hkeeps
  cases event with
  | userMessage payload => exact absurd rfl (hagent payload)
  | threadRolledBack | turnStarted | turnComplete | turnAborted => exact nomatch hrecord
  | agentMessage message unread => exact h.agentMessage message unread
  | agentReasoning text =>
    rw [handleEvent, handleAgentReasoning]
    split
    · exact h
    · exact h.reasoning [text] []
  | agentReasoningRawContent text =>
    rw [handleEvent, handleAgentReasoningRawContent]
    split
    · exact h
    · exact h.reasoning [] [text]
  | activeTurnCall kind call => exact h.upsert rfl (hid _ rfl)
  | execCommandBegin named call | execCommandEnd named call => exact h.into named rfl (hid _ rfl)
  | guardianAssessment assessment =>
    refine h.guardian assessment fun hstatus id hitem => hid (_, id) ?_
    rw [Builder.sought, if_neg hstatus, hitem]
    rfl
  | turnCall kind named call => exact h.intoOrHere named rfl (hid _ rfl)
  | contextCompacted => exact h.nextItemId.push rfl
  | enteredReviewMode named review | exitedReviewMode named review =>
    exact h.reviewMode _ named review (hid _ rfl) hstands
  | itemStarted named item | itemCompleted named item =>
    refine h.lifecycle _ named item (fun id hitem => hid (_, id) ?_) fun hreview => hstands named ?_
    · rw [Builder.sought, hitem]
      rfl
    · rw [reviewedTurn, if_pos hreview]
      rfl
  | error info message => exact h.error info message
  | other => exact h

theorem record (r : Rules) (promptId : Nat → ResponseItem → Text) {record : RolloutItem}
    (hrecord : record.isTurnRecord) (hkeeps : b.KeepsMessages record) :
    InTurn (b.handleRolloutItem r promptId record) turnId older
      (messages ++ (userEvents [record]).map shownAs) := by
  have hadvance : InTurn b.advance turnId older messages := ⟨h.older, h.current⟩
  have hrest (hagent : userEvents [record] = [])
      (hkept : InTurn (b.handleRolloutItem r promptId record) turnId older messages) :
      InTurn (b.handleRolloutItem r promptId record) turnId older
        (messages ++ (userEvents [record]).map shownAs) := by
    rw [hagent, map_nil, append_nil]
    exact hkept
  cases record with
  | compacted => exact nomatch hrecord
  | eventMsg event =>
    by_cases huser : ∃ payload, event = .userMessage payload
    · obtain ⟨payload, rfl⟩ := huser
      exact hadvance.userMessage payload
    · have hagent : ∀ payload, event ≠ .userMessage payload := fun payload heq =>
        huser ⟨payload, heq⟩
      refine hrest ?_ (hadvance.agentEvent hrecord hkeeps hagent)
      cases event with
      | userMessage payload => exact absurd rfl (hagent payload)
      | _ => rfl
  | responseItem response =>
    refine hrest rfl ?_
    obtain ⟨item, metadata⟩ := response
    cases item with
    | message role content passthrough unread =>
      rw [handleRolloutItem, handleRecord, handleResponseItem]
      split
      · exact hadvance.push rfl
      · exact hadvance
    | _ => exact hadvance
  | _ => exact hrest rfl hadvance

theorem records (r : Rules) (promptId : Nat → ResponseItem → Text) {body : List RolloutItem}
    (hbody : ∀ record ∈ body, record.isTurnRecord) (hkeeps : b.KeepsAll r promptId body) :
    InTurn (b.handleRolloutItems r promptId body) turnId older
      (messages ++ (userEvents body).map shownAs) := by
  induction body generalizing b messages with
  | nil =>
    rw [show userEvents [] = [] from rfl, map_nil, append_nil]
    exact h
  | cons record body ih =>
    have hfirst := h.record r promptId (hbody record mem_cons_self) hkeeps.1
    have hall := ih hfirst (fun x hx => hbody x (mem_cons_of_mem record hx)) hkeeps.2
    have hsplit : userEvents (record :: body) = userEvents [record] ++ userEvents body := by
      rw [← singleton_append]
      exact filterMap_append
    rw [hsplit, map_append, ← append_assoc]
    exact hall

end

end InTurn

structure BetweenTurns (b : Builder) (turns : List (List ShownMessage)) : Prop where
  closed : b.currentTurn = none
  messages : b.turns.map (·.messages) = turns

theorem betweenTurns_new : BetweenTurns .new [] := ⟨rfl, rfl⟩

theorem BetweenTurns.finishCurrentTurn {b : Builder} {turns : List (List ShownMessage)}
    (h : BetweenTurns b turns) : b.finishCurrentTurn = b := by
  rw [Builder.finishCurrentTurn, h.closed]

section
variable {b : Builder} {turnId : Text} {older : List (List ShownMessage)}
  (r : Rules) (promptId : Nat → ResponseItem → Text)

theorem BetweenTurns.turnStarted (h : BetweenTurns b older) (turnId unread : Text) :
    InTurn (b.handleRolloutItem r promptId (.eventMsg (.turnStarted turnId unread))) turnId
      older [] := by
  have hadvance : BetweenTurns b.advance older := ⟨h.closed, h.messages⟩
  rw [handleRolloutItem, handleRecord, handleEvent, handleTurnStarted, hadvance.finishCurrentTurn]
  exact ⟨h.messages, _, rfl, rfl, rfl, rfl⟩

theorem InTurn.turnComplete {messages : List ShownMessage} (h : InTurn b turnId older messages)
    (outcome : TurnOutcome) :
    BetweenTurns (b.handleRolloutItem r promptId (.eventMsg (.turnComplete turnId outcome)))
      (older ++ [messages]) := by
  obtain ⟨turn, hcurrent, hturn⟩ := h.current
  have hcompleted : OpenTurn turnId messages (Builder.applyCompletion outcome turn) := by
    rw [Builder.applyCompletion]
    split
    · exact ⟨hturn.id, hturn.openedExplicitly, hturn.messages⟩
    · split
      · exact ⟨hturn.id, hturn.openedExplicitly, hturn.messages⟩
      · exact hturn
  have hfilter : b.advance.currentTurn.filter (·.id = turnId) = some turn := by
    rw [show b.advance.currentTurn = some turn from hcurrent,
      filter_some_pos (by simpa using hturn.id)]
  rw [Builder.handleRolloutItem, Builder.handleRecord, Builder.handleEvent,
    Builder.handleTurnComplete, hfilter]
  simp only [Builder.finishCurrentTurn, Builder.withCurrent, hcompleted.openedExplicitly,
    Bool.not_true, Bool.and_false, Bool.false_and, Bool.false_eq_true, if_false]
  refine ⟨rfl, ?_⟩
  rw [map_append, map_singleton, hcompleted.messages]
  exact congrArg (· ++ _) h.older

theorem BetweenTurns.threadRolledBack {turns : List (List ShownMessage)}
    (h : BetweenTurns b turns) (n : Nat) :
    BetweenTurns (b.handleRolloutItem r promptId (.eventMsg (.threadRolledBack n)))
      (turns.take (turns.length - n)) := by
  have hadvance : BetweenTurns b.advance turns := ⟨h.closed, h.messages⟩
  rw [handleRolloutItem, handleRecord, handleEvent,
    handleThreadRollback, hadvance.finishCurrentTurn]
  refine ⟨h.closed, ?_⟩
  rw [← h.messages, length_map, ← map_take]
  rfl

end

end Codex.Transcript

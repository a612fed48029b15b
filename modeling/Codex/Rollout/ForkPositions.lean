import Codex.Rollout.RollbackSteps
import Codex.Rollout.StandingMessages

/-! The positions at which `core/src/thread_rollout_truncation.rs` forks a rollout, against the
instructions that its replay leaves. -/

namespace Codex.Rollout
open Codex.Lib Codex.Lib.UndoLog List Option

variable (r : Rules)

/-- `parse_visible_hook_prompt_message` finds a hook prompt. -/
def isVisibleHookPrompt (content : List ContentItem) : Bool :=
  (content.all fun
    | .inputText text => r.isHookPrompt text || r.isStandardContextualUserText text
    | _ => false) && anyInputText r.isHookPrompt content

/-- `parse_turn_item` makes a user message of the item. -/
def isRealUserMessageBoundary : ResponseItem → Bool
  | .message role content _ _ =>
    role = "user".toList && !isVisibleHookPrompt r content &&
      !isContextualUserMessageContent r content
  | _ => false

def userMessageStep (userPositions : List Nat) : RolloutItem × Nat → List Nat
  | (.responseItem e, idx) =>
    if isRealUserMessageBoundary r e.item then userPositions ++ [idx] else userPositions
  | (.eventMsg (.threadRolledBack numTurns), _) =>
    userPositions.take (userPositions.length - numTurns)
  | _ => userPositions

def userMessagePositionsInRollout (items : List RolloutItem) : List Nat :=
  items.zipIdx.foldl (userMessageStep r) []

variable (triggers : Text → Bool)

/-- `triggers` tells whether the communication that a text decodes to has `trigger_turn`. -/
def isTriggerTurnBoundary : ResponseItem → Bool
  | .message role content _ _ => role = "assistant".toList && isMessageContent
      { r with isCommunication := fun text => r.isCommunication text && triggers text } content
  | _ => false

def isAgentMessage : ResponseItem → Bool
  | .agentMessage .. => true
  | _ => false

def deliveryMetadata? : Option RolloutItem → Option Bool
  | some (.interAgentCommunicationMetadata triggerTurn) => some triggerTurn
  | _ => none

def forkTurnStep (previous : Option RolloutItem) (idx : Nat) (positions : List Nat × List Nat) :
    RolloutItem → List Nat × List Nat
  | .responseItem e =>
    let hasDeliveryMetadata := isAgentMessage e.item && (deliveryMetadata? previous).isSome
    (if isUserTurnBoundary r e.item && !hasDeliveryMetadata then positions.1 ++ [idx]
      else positions.1,
    if isRealUserMessageBoundary r e.item || isTriggerTurnBoundary r triggers e.item then
      positions.2 ++ [idx] else positions.2)
  | .interAgentCommunication communication =>
    (positions.1 ++ [idx], if communication.triggerTurn then positions.2 ++ [idx] else positions.2)
  | .interAgentCommunicationMetadata triggerTurn =>
    (positions.1 ++ [idx], if triggerTurn then positions.2 ++ [idx] else positions.2)
  | .eventMsg (.threadRolledBack numTurns) =>
    if numTurns = 0 then positions
    -- the subtraction stops at the first position
    else match positions.1[positions.1.length - numTurns]? with
      | none => positions
      | some rollbackStart => (positions.1.take (positions.1.length - numTurns),
          positions.2.filter (· < rollbackStart))
  | _ => positions

def forkTurnPositionsFrom : Option RolloutItem → Nat → List Nat × List Nat → List RolloutItem →
    List Nat × List Nat
  | _, _, positions, [] => positions
  | previous, idx, positions, item :: items =>
    forkTurnPositionsFrom (some item) (idx + 1)
      (forkTurnStep r triggers previous idx positions item) items

def forkTurnPositionsInRollout (items : List RolloutItem) : List Nat :=
  (forkTurnPositionsFrom r triggers none 0 ([], []) items).2

def truncateRolloutToLastNForkTurns (items : List RolloutItem) (nFromEnd : Nat) :
    List RolloutItem :=
  let positions := forkTurnPositionsInRollout r triggers items
  if nFromEnd = 0 then []
  else match positions[positions.length - nFromEnd]? with
    | none => []
    | some keepIdx => items.drop keepIdx

structure Instruction where
  position : Nat
  response : ResponseItemEnvelope
  isForkTurn : Bool
  deriving DecidableEq

/-- The instruction that a record adds to the history. One that was delivered begins with the
record of its delivery. -/
def instruction? (previous : Option RolloutItem) (k : Nat) : RolloutItem → Option Instruction
  | .responseItem e =>
    if isUserTurnBoundary r e.item then
      match (deliveryMetadata? previous).filter fun _ => isAgentMessage e.item with
      | some triggerTurn => some ⟨k - 1, e, triggerTurn⟩
      | none => some ⟨k, e, isRealUserMessageBoundary r e.item ||
          isTriggerTurnBoundary r triggers e.item⟩
    else none
  | .interAgentCommunication communication =>
    some ⟨k, ⟨communication.toModelInputItem, none⟩, communication.triggerTurn⟩
  | _ => none

def rolledBack? : RolloutItem → Option Nat
  | .eventMsg (.threadRolledBack numTurns) => some numTurns
  | _ => none

def instructionEvents (previous : Option RolloutItem) (k : Nat) (item : RolloutItem) :
    List (Event Instruction) :=
  match rolledBack? item with
  | some n => [.undo n]
  | none => ((instruction? r triggers previous k item).map .entry).toList

def instructionLog : Option RolloutItem → Nat → List RolloutItem → List (Event Instruction)
  | _, _, [] => []
  | previous, k, item :: items =>
    instructionEvents r triggers previous k item ++ instructionLog (some item) (k + 1) items

def standingInstructions (items : List RolloutItem) : List Instruction :=
  standing [] (instructionLog r triggers none 0 items)

variable {r triggers} {previous : Option RolloutItem} {k : Nat} {item : RolloutItem}
  {items : List RolloutItem}

theorem eq_of_rolledBack? {n : Nat} (h : rolledBack? item = some n) :
    item = .eventMsg (.threadRolledBack n) := by
  unfold rolledBack? at h
  split at h
  · rw [Option.some.inj h]
  · cases h

theorem replayItem_of_instruction? {history : List ResponseItemEnvelope}
    (hitem : item.isCompacted = false) (hmarker : rolledBack? item = none)
    (triggers : Text → Bool) (previous : Option RolloutItem) (k : Nat) :
    (replayItem r history item).filter (isUserTurnBoundary r ·.item) =
      history.filter (isUserTurnBoundary r ·.item) ++
        ((instruction? r triggers previous k item).map (·.response)).toList := by
  cases item with
  | responseItem e =>
    rw [replayItem, recordItem, filter_append, filter_recordedItem, instruction?]
    split
    · split <;> rfl
    · rfl
  | interAgentCommunication c =>
    rw [replayItem, recordItem, filter_append, filter_recordedItem]
    rfl
  | compacted => cases hitem
  | eventMsg event =>
    cases event with
    | threadRolledBack => cases hmarker
    | _ => exact (append_nil _).symm
  | _ => exact (append_nil _).symm

theorem filter_replayItems_eq_standing (hitems : ∀ item ∈ items, item.isCompacted = false)
    {history : List ResponseItemEnvelope} {older : List Instruction}
    (hhistory : history.filter (isUserTurnBoundary r ·.item) = older.map (·.response)) :
    (replayItems r history items).filter (isUserTurnBoundary r ·.item) =
      (standing older (instructionLog r triggers previous k items)).map (·.response) := by
  induction items generalizing history older previous k with
  | nil => exact hhistory
  | cons item items ih =>
    obtain ⟨hitem, hrest⟩ := forall_mem_cons.mp hitems
    rw [instructionLog, standing_append]
    refine ih hrest ?_
    rw [instructionEvents]
    cases hmarker : rolledBack? item with
    | some n =>
      obtain rfl := eq_of_rolledBack? hmarker
      rw [replayItem, filter_dropLastNUserTurns, hhistory, length_map, ← map_take]
      rfl
    | none =>
      rw [replayItem_of_instruction? hitem hmarker triggers previous k, hhistory]
      cases instruction? r triggers previous k item <;> simp

section UserMessages

def isUserMessage (r : Rules) : RolloutItem → Bool
  | .responseItem e => isRealUserMessageBoundary r e.item
  | _ => false

def isInstruction (r : Rules) : RolloutItem → Bool
  | .responseItem e => isUserTurnBoundary r e.item
  | .interAgentCommunication _ => true
  | _ => false

/-- The position of an instruction that is a user message. -/
def userPosition (r : Rules) (instruction : Instruction) : List Nat :=
  if isRealUserMessageBoundary r instruction.response.item then [instruction.position] else []

/-- Where the user messages stand that the replay of the records leaves. -/
def standingUserPositions (r : Rules) (triggers : Text → Bool) (items : List RolloutItem) :
    List Nat :=
  (standingInstructions r triggers items).flatMap (userPosition r)

theorem flatMap_instruction? (triggers : Text → Bool) (previous : Option RolloutItem) (k : Nat)
    (item : RolloutItem) :
    (instruction? r triggers previous k item).toList.flatMap (userPosition r) =
      if isUserMessage r item && isInstruction r item then [k] else [] := by
  cases item with
  | responseItem e =>
    obtain ⟨item, metadata⟩ := e
    rw [instruction?, isUserMessage, isInstruction]
    by_cases hboundary : isUserTurnBoundary r item
    case neg => simp [hboundary]
    rw [if_pos hboundary, hboundary, Bool.and_true]
    cases item with
    | message role content passthrough unread =>
      cases hreal : isRealUserMessageBoundary r (.message role content passthrough unread) <;>
        cases deliveryMetadata? previous <;>
          simp [isAgentMessage, hreal, Option.filter, userPosition]
    | agentMessage => cases deliveryMetadata? previous <;> rfl
    | _ => cases hboundary
  | _ => rfl

theorem instructionLog_append (r : Rules) (triggers : Text → Bool) (previous : Option RolloutItem)
    (k : Nat) (xs ys : List RolloutItem) :
    ∃ previous', instructionLog r triggers previous k (xs ++ ys) =
      instructionLog r triggers previous k xs ++
        instructionLog r triggers previous' (k + xs.length) ys := by
  induction xs generalizing previous k with
  | nil => exact ⟨previous, rfl⟩
  | cons item xs ih =>
    obtain ⟨previous', h⟩ := ih (some item) (k + 1)
    refine ⟨previous', ?_⟩
    rw [cons_append, instructionLog, h, instructionLog, append_assoc, length_cons,
      Nat.add_right_comm, Nat.add_assoc]

theorem length_instructionEvents_le (item : RolloutItem) :
    (instructionEvents r triggers previous k item).length ≤ 1 := by
  rw [instructionEvents]
  split
  · exact le_rfl
  · cases instruction? r triggers previous k item <;> simp

/-- A beginning of the log is the log of a beginning of the records. -/
theorem exists_of_prefix_instructionLog {log : List (Event Instruction)}
    (h : log <+: instructionLog r triggers previous k items) :
    ∃ xs, xs <+: items ∧ instructionLog r triggers previous k xs = log := by
  induction items generalizing previous k log with
  | nil => exact ⟨[], prefix_rfl, (prefix_nil.mp h).symm⟩
  | cons item items ih =>
    cases log with
    | nil => exact ⟨[], nil_prefix, rfl⟩
    | cons e log =>
      have hone : (instructionEvents r triggers previous k item).length ≤ 1 :=
        length_instructionEvents_le item
      rw [instructionLog] at h
      rcases hevents : instructionEvents r triggers previous k item with _ | ⟨first, _ | _⟩
      · rw [hevents] at h
        obtain ⟨xs, hxs, hlog⟩ := ih h
        refine ⟨item :: xs, (prefix_cons_inj item).mpr hxs, ?_⟩
        rw [instructionLog, hevents, hlog, nil_append]
      · rw [hevents, singleton_append, cons_prefix_cons] at h
        obtain ⟨xs, hxs, hlog⟩ := ih h.2
        refine ⟨item :: xs, (prefix_cons_inj item).mpr hxs, ?_⟩
        rw [instructionLog, hevents, hlog, h.1, singleton_append]
      · rw [hevents] at hone
        exact absurd hone (by simp)

theorem userMessageStep_eq_standing (triggers : Text → Bool) (previous : Option RolloutItem)
    (hitem : isUserMessage r item → isInstruction r item) (userPositions : List Nat) :
    userMessageStep r userPositions (item, k) = standing userPositions
      (partsLog (userPosition r) (instructionEvents r triggers previous k item)) := by
  rw [instructionEvents]
  cases hmarker : rolledBack? item with
  | some n =>
    obtain rfl := eq_of_rolledBack? hmarker
    rfl
  | none =>
    have hstep : userMessageStep r userPositions (item, k) =
        userPositions ++ if isUserMessage r item then [k] else [] := by
      unfold userMessageStep isUserMessage
      split <;> split <;> simp_all [rolledBack?]
    have hparts := flatMap_instruction? (r := r) triggers previous k item
    rw [Bool.and_eq_left_iff_imp.mpr hitem] at hparts
    rw [hstep, ← hparts]
    cases instruction? r triggers previous k item with
    | none => simp [partsLog]
    | some instruction => simp [partsLog, standing_map_entry]

/-- The index counts a marker in user messages. -/
theorem userMessagePositionsInRollout_eq_standing
    (hitems : ∀ item ∈ items, isUserMessage r item → isInstruction r item) :
    userMessagePositionsInRollout r items =
      standing [] (partsLog (userPosition r) (instructionLog r triggers none 0 items)) := by
  have hfold (userPositions : List Nat) (k : Nat) (previous : Option RolloutItem) :
      (items.zipIdx k).foldl (userMessageStep r) userPositions = standing userPositions
        (partsLog (userPosition r) (instructionLog r triggers previous k items)) := by
    induction items generalizing userPositions previous k with
    | nil => rfl
    | cons item items ih =>
      obtain ⟨hitem, hrest⟩ := forall_mem_cons.mp hitems
      rw [zipIdx_cons, foldl_cons, ih hrest _ _ (some item),
        userMessageStep_eq_standing triggers previous hitem,
        instructionLog, partsLog, partsLog, partsLog, flatMap_append, standing_append]
  exact hfold [] 0 none

/-- A message with the text of a summary is indexed, and is no instruction. -/
theorem isInstruction_of_prefixes (hindex : ∀ xs, xs <+: items →
      userMessagePositionsInRollout r xs = standingUserPositions r triggers xs)
    (hitem : item ∈ items) (huser : isUserMessage r item) : isInstruction r item := by
  obtain ⟨before, after, rfl⟩ := append_of_mem hitem
  have hbefore := hindex before (prefix_append _ _)
  have hafter := hindex (before ++ [item]) ⟨after, by simp⟩
  cases item with
  | responseItem e =>
    rw [← Bool.not_eq_false, isInstruction]
    intro hboundary
    have hindexed : userMessagePositionsInRollout r (before ++ [.responseItem e]) =
        userMessagePositionsInRollout r before ++ [before.length] := by
      rw [userMessagePositionsInRollout, zipIdx_append, foldl_append, Nat.zero_add]
      exact if_pos huser
    obtain ⟨previous', hlog⟩ :=
      instructionLog_append r triggers none 0 before [.responseItem e]
    have hsame : standingUserPositions r triggers (before ++ [.responseItem e]) =
        standingUserPositions r triggers before := by
      rw [standingUserPositions, standingInstructions, hlog]
      simp [instructionLog, instructionEvents, rolledBack?, instruction?, hboundary,
        standingUserPositions, standingInstructions]
    rw [hindexed, hsame, ← hbefore] at hafter
    exact absurd hafter (by simp)
  | _ => cases huser

/-- All along a rollout the index has the user messages that stand in the history just if no user
message has the text of a summary and every marker takes back as many user messages as
instructions. -/
theorem userMessagePositionsInRollout_eq_iff (r : Rules) (triggers : Text → Bool)
    {items : List RolloutItem} (hitems : ∀ item ∈ items, item.isCompacted = false) :
    (replayItems r [] items).filter (isUserTurnBoundary r ·.item) =
        (standingInstructions r triggers items).map (·.response) ∧
      ((∀ xs, xs <+: items →
          userMessagePositionsInRollout r xs = standingUserPositions r triggers xs) ↔
        (∀ item ∈ items, isUserMessage r item = true → isInstruction r item = true) ∧
          Aligned (userPosition r) [] (instructionLog r triggers none 0 items)) := by
  refine ⟨filter_replayItems_eq_standing hitems rfl, fun hindex => ?_, fun ⟨husers, haligned⟩ => ?_⟩
  · have husers : ∀ item ∈ items, isUserMessage r item → isInstruction r item :=
      fun item hitem => isInstruction_of_prefixes hindex hitem
    refine ⟨husers, aligned_of_length_eq fun log hlog => ?_⟩
    obtain ⟨xs, hxs, rfl⟩ := exists_of_prefix_instructionLog hlog
    rw [flatMap_nil, ← userMessagePositionsInRollout_eq_standing fun item hitem =>
      husers item (hxs.subset hitem), hindex xs hxs]
    rfl
  · rintro xs ⟨ys, rfl⟩
    obtain ⟨previous', happend⟩ := instructionLog_append r triggers none 0 xs ys
    rw [happend] at haligned
    rw [userMessagePositionsInRollout_eq_standing fun item hitem =>
      husers item (mem_append_left ys hitem)]
    exact haligned.of_append.standing_eq

theorem userMessagePositionsInRollout_eq_iff_two :
    userMessagePositionsInRollout plainRules [.responseItem (plainMessage "user" "a"),
        .responseItem (plainMessage "user" "b"), .eventMsg (.threadRolledBack 1)] =
      standingUserPositions plainRules (fun _ => false) [.responseItem (plainMessage "user" "a"),
        .responseItem (plainMessage "user" "b"), .eventMsg (.threadRolledBack 1)] :=
  (userMessagePositionsInRollout_eq_iff plainRules (fun _ => false) (by decide)).2.mpr
    (by decide +kernel) _ prefix_rfl

def answeredAgent : List RolloutItem :=
  [.responseItem (plainMessage "user" "a"),
    .interAgentCommunication ⟨none, [], [], [], none, none, true, []⟩,
    .eventMsg (.threadRolledBack 1)]

theorem agent_rollback_loses_user_position :
    (∀ item ∈ answeredAgent, item.isCompacted = false) ∧
      replayItems plainRules [] answeredAgent = [plainMessage "user" "a"] ∧
      standingUserPositions plainRules (fun _ => false) answeredAgent = [0] ∧
      userMessagePositionsInRollout plainRules answeredAgent = [] := by
  decide +kernel

end UserMessages

section ForkTurns

/-- What is left of the newest instructions does not depend on what stands before them. -/
theorem exists_dropLastNUserTurns_append {e : ResponseItemEnvelope}
    {rest : List ResponseItemEnvelope} {n : Nat} (he : isUserTurnBoundary r e.item)
    (hn : n ≤ boundaries r rest) :
    ∃ rest', boundaries r rest' = boundaries r rest - n ∧
      ∀ older, dropLastNUserTurns r n (older ++ e :: rest) = older ++ e :: rest' := by
  cases n with
  | zero => exact ⟨rest, rfl, fun older => rfl⟩
  | succ n =>
    obtain ⟨between, next, newer, rfl, hnext, hcount⟩ := exists_split_boundaries hn
    have htrimmed : isTrimmed r e.item = false := by
      rw [← Bool.not_eq_true]
      intro htrimmed
      rw [not_isUserTurnBoundary_of_isTrimmed htrimmed] at he
      cases he
    have hdrop (older : List ResponseItemEnvelope) :
        dropLastNUserTurns r (n + 1) (older ++ e :: (between ++ next :: newer)) =
          older ++ e :: between.rdropWhile (isTrimmed r ·.item) := by
      have hsome : boundaries r (older ++ e :: between) ≠ 0 := by
        rw [boundaries_split older between he]
        omega
      rw [← cons_append, ← append_assoc, ← items_dropLastNUserTurns,
        dropLastNUserTurns_eq_cutBefore hnext (.inl (congrArg (· + 1) hcount)) none, cutBefore,
        if_neg hsome]
      exact LastMarked.rdropWhile_append_cons
        (q := fun item : ResponseItemEnvelope => isTrimmed r item.item) htrimmed older between
    refine ⟨_, ?_, hdrop⟩
    have hleft := congrArg List.length (filter_dropLastNUserTurns r (n + 1)
      ([] ++ e :: (between ++ next :: newer)))
    rw [hdrop [], length_take, ← countP_eq_length_filter, ← countP_eq_length_filter] at hleft
    simp only [nil_append, countP_cons, he, if_true] at hleft
    simp only [boundaries]
    omega

/-- The history goes on with the instruction where the records from its position on begin with it,
and `m` instructions stand after it. -/
def Splits (r : Rules) (pre : List RolloutItem) (turn : Instruction) (m : Nat) : Prop :=
  turn.position < pre.length ∧ isUserTurnBoundary r turn.response.item = true ∧
    ∃ rest, boundaries r rest = m ∧
      replayItems r [] (pre.drop turn.position) = turn.response :: rest ∧
      replayItems r [] pre = replayItems r [] (pre.take turn.position) ++ turn.response :: rest

variable {pre new : List RolloutItem} {turn : Instruction} {turns : List Instruction} {m n : Nat}
  {added : List ResponseItemEnvelope} {positions : List Nat × List Nat} {summaries : Nat → Bool}

theorem Splits.append (h : Splits r pre turn m)
    (hnew : ∀ history, replayItems r history new = history ++ added) :
    Splits r (pre ++ new) turn (m + boundaries r added) := by
  obtain ⟨hlt, hturn, rest, hrest, hdrop, hsplit⟩ := h
  refine ⟨by rw [length_append]; omega, hturn, rest ++ added, ?_, ?_, ?_⟩
  · rw [boundaries, countP_append, ← hrest]
    rfl
  · rw [drop_append_of_le_length hlt.le, replayItems_append, hdrop, hnew, cons_append]
  · rw [take_append_of_le_length hlt.le, replayItems_append, hnew, hsplit, append_assoc,
      cons_append]

theorem Splits.rollBack (h : Splits r pre turn m) (hn : n ≤ m) :
    Splits r (pre ++ [.eventMsg (.threadRolledBack n)]) turn (m - n) := by
  obtain ⟨hlt, hturn, rest, rfl, hdrop, hsplit⟩ := h
  obtain ⟨rest', hrest', hleft⟩ := exists_dropLastNUserTurns_append hturn hn
  refine ⟨by rw [length_append]; omega, hturn, rest', hrest', ?_, ?_⟩
  · rw [drop_append_of_le_length hlt.le, replayItems_append, hdrop]
    exact hleft []
  · rw [take_append_of_le_length hlt.le, replayItems_append, hsplit]
    exact hleft _

/-- A user message for `parse_turn_item` that is no instruction: it has the text of a summary. -/
def isSummary (r : Rules) (item : RolloutItem) : Bool :=
  isUserMessage r item && !isInstruction r item

/-- `positions` has the turns, and the messages at the positions in `summaries`. -/
structure Follows (r : Rules) (summaries : Nat → Bool) (pre : List RolloutItem)
    (turns : List Instruction) (positions : List Nat × List Nat) : Prop where
  fst_eq : positions.1 = turns.map (·.position)
  snd_eq : positions.2.filter (!summaries ·) = (turns.filter (·.isForkTurn)).map (·.position)
  sorted : turns.Pairwise (·.position < ·.position)
  splits : ∀ older turn newer, turns = older ++ turn :: newer → Splits r pre turn newer.length

theorem Follows.append (h : Follows r summaries pre turns positions) (new : List RolloutItem)
    (added : List ResponseItemEnvelope)
    (hnew : ∀ history, replayItems r history new = history ++ added)
    (hadded : boundaries r added = 0) (marked : List Nat) (hmarked : ∀ i ∈ marked, summaries i) :
    Follows r summaries (pre ++ new) turns (positions.1, positions.2 ++ marked) := by
  refine ⟨h.fst_eq, ?_, h.sorted, ?_⟩
  · have hnone : marked.filter (!summaries ·) = [] :=
      filter_eq_nil_iff.mpr fun i hi => by simp [hmarked i hi]
    rw [filter_append, h.snd_eq, hnone, append_nil]
  intro older turn newer hturns
  have hsplits := (h.splits older turn newer hturns).append hnew
  rwa [hadded] at hsplits

theorem Follows.push (h : Follows r summaries pre turns positions) {e : ResponseItemEnvelope}
    (hsome : new ≠ []) (hnew : ∀ history, replayItems r history new = history ++ [e])
    (he : isUserTurnBoundary r e.item) (hsummary : summaries pre.length = false)
    (isForkTurn : Bool) :
    Follows r summaries (pre ++ new) (turns ++ [⟨pre.length, e, isForkTurn⟩])
      (positions.1 ++ [pre.length],
        if isForkTurn then positions.2 ++ [pre.length] else positions.2) := by
  have hone : boundaries r [e] = 1 := by simp [boundaries, he]
  refine ⟨by simp [h.fst_eq], ?_, ?_, ?_⟩
  · rw [filter_append, map_append, ← h.snd_eq]
    cases isForkTurn <;> simp [hsummary]
  · refine pairwise_append.mpr ⟨h.sorted, pairwise_singleton _ _, ?_⟩
    rintro turn hturn _ hlast
    obtain rfl := mem_singleton.mp hlast
    obtain ⟨older, newer, hturns⟩ := append_of_mem hturn
    exact (h.splits older turn newer hturns).1
  · intro older turn newer hturns
    rcases eq_nil_or_concat newer with rfl | ⟨newer, last, rfl⟩
    · obtain ⟨-, hlast⟩ := append_inj' hturns rfl
      obtain rfl := head_eq_of_cons_eq hlast
      refine ⟨?_, he, [], rfl, ?_, ?_⟩
      · rw [length_append]
        exact Nat.lt_add_of_pos_right (length_pos_of_ne_nil hsome)
      · rw [drop_left, hnew]
        rfl
      · rw [take_left, replayItems_append, hnew]
    · rw [concat_eq_append, ← cons_append, ← append_assoc] at hturns
      obtain ⟨hbefore, -⟩ := append_inj' hturns rfl
      have hsplits := (h.splits older turn newer hbefore).append hnew
      rwa [hone, ← length_concat] at hsplits

theorem filter_lt_position {older newer : List Instruction}
    (h : (older ++ turn :: newer).Pairwise (·.position < ·.position)) :
    (((older ++ turn :: newer).filter (·.isForkTurn)).map (·.position)).filter
        (· < turn.position) = (older.filter (·.isForkTurn)).map (·.position) := by
  obtain ⟨-, hnewer, hlt⟩ := pairwise_append.mp h
  have holder : ∀ x ∈ older, x.position < turn.position := fun x hx => hlt x hx turn mem_cons_self
  have hlater : ∀ x ∈ turn :: newer, ¬ x.position < turn.position := by
    intro x hx
    rcases mem_cons.mp hx with rfl | hx
    · exact Nat.lt_irrefl _
    · exact Nat.lt_asymm (rel_of_pairwise_cons hnewer hx)
  have hgone : (((turn :: newer).filter (·.isForkTurn)).map (·.position)).filter
      (· < turn.position) = [] := by
    refine filter_eq_nil_iff.mpr fun i hi => ?_
    obtain ⟨x, hx, rfl⟩ := List.mem_map.mp hi
    simpa using hlater x (mem_of_mem_filter hx)
  rw [filter_append, map_append, filter_append, hgone, append_nil]
  refine filter_eq_self.mpr fun i hi => ?_
  obtain ⟨x, hx, rfl⟩ := List.mem_map.mp hi
  simpa using holder x (mem_of_mem_filter hx)

theorem Follows.rollBack (h : Follows r summaries pre turns positions) (n : Nat) :
    Follows r summaries (pre ++ [.eventMsg (.threadRolledBack n)]) (turns.take (turns.length - n))
      (forkTurnStep r triggers previous k positions (.eventMsg (.threadRolledBack n))) := by
  have hsplits : ∀ older turn newer, turns.take (turns.length - n) = older ++ turn :: newer →
      Splits r (pre ++ [.eventMsg (.threadRolledBack n)]) turn newer.length := by
    intro older turn newer hturns
    have hlength := congrArg List.length hturns
    rw [length_take, length_append, length_cons] at hlength
    have hwhole := take_append_drop (turns.length - n) turns
    rw [hturns, append_assoc, cons_append] at hwhole
    have hsplit := (h.splits older turn _ hwhole.symm).rollBack (n := n)
    rw [length_append, length_drop] at hsplit
    have hcount : newer.length + (turns.length - (turns.length - n)) - n = newer.length := by omega
    rw [hcount] at hsplit
    exact hsplit (by omega)
  rw [forkTurnStep]
  by_cases hzero : n = 0
  · subst hzero
    rw [if_pos rfl]
    rw [Nat.sub_zero, take_length] at hsplits ⊢
    exact ⟨h.fst_eq, h.snd_eq, h.sorted, hsplits⟩
  have hstart : positions.1[positions.1.length - n]? =
      turns[turns.length - n]?.map (·.position) := by
    rw [h.fst_eq, length_map, List.getElem?_map]
  have htake : positions.1.take (positions.1.length - n) =
      (turns.take (turns.length - n)).map (·.position) := by
    rw [h.fst_eq, length_map, map_take]
  rw [if_neg hzero, hstart]
  cases hget : turns[turns.length - n]? with
  | none =>
    have hempty : turns = [] := by
      have hle := List.getElem?_eq_none_iff.mp hget
      exact length_eq_zero_iff.mp (by omega)
    subst hempty
    rw [take_nil] at hsplits ⊢
    exact ⟨h.fst_eq, h.snd_eq, h.sorted, hsplits⟩
  | some start =>
    obtain ⟨hlt, rfl⟩ := List.getElem?_eq_some_iff.mp hget
    have hwhole : turns.take (turns.length - n) ++
        turns[turns.length - n] :: turns.drop (turns.length - n + 1) = turns := by
      rw [← drop_eq_getElem_cons hlt, take_append_drop]
    have hsorted := h.sorted
    rw [← hwhole] at hsorted
    have hfilter := filter_lt_position hsorted
    rw [hwhole, ← h.snd_eq, filter_comm] at hfilter
    exact ⟨htake, hfilter, h.sorted.sublist (take_sublist _ _), hsplits⟩

/-- The record of a delivery is followed by the message that was delivered. -/
def Delivered : Option RolloutItem → List RolloutItem → Prop
  | previous, [] => deliveryMetadata? previous = none
  | previous, item :: items => (deliveryMetadata? previous ≠ none →
      ∃ e, item = .responseItem e ∧ isAgentMessage e.item = true) ∧ Delivered (some item) items

theorem isUserTurnBoundary_of_isTriggerTurnBoundary {item : ResponseItem}
    (h : isTriggerTurnBoundary r triggers item) : isUserTurnBoundary r item := by
  cases item with
  | message role content passthrough unread =>
    obtain ⟨hrole, hcontent⟩ := Bool.and_eq_true_iff.mp h
    refine Bool.or_eq_true_iff.mpr (.inr (Bool.and_eq_true_iff.mpr ⟨hrole, ?_⟩))
    unfold isMessageContent at hcontent
    split at hcontent
    · exact (Bool.and_eq_true_iff.mp hcontent).1
    · exact (Bool.and_eq_true_iff.mp hcontent).1
    · cases hcontent
  | _ => cases h

/-- Either `positions` follows the records, or the last one of them is that of a delivery, which is
in the lists already. -/
def Pending (r : Rules) (summaries : Nat → Bool) (previous : Option RolloutItem)
    (pre : List RolloutItem) (turns : List Instruction) (positions : List Nat × List Nat) : Prop :=
  deliveryMetadata? previous = none ∧ Follows r summaries pre turns positions ∨
    ∃ earlier triggerTurn before, previous = some (.interAgentCommunicationMetadata triggerTurn) ∧
      pre = earlier ++ [.interAgentCommunicationMetadata triggerTurn] ∧
      summaries earlier.length = false ∧ Follows r summaries earlier turns before ∧
      positions = (before.1 ++ [earlier.length],
        if triggerTurn then before.2 ++ [earlier.length] else before.2)

theorem Follows.step (h : Follows r summaries pre turns positions)
    (hprevious : deliveryMetadata? previous = none) (hcompacted : item.isCompacted = false)
    (hsummary : summaries pre.length = isSummary r item) :
    Pending r summaries (some item) (pre ++ [item])
      (standing turns (instructionEvents r triggers previous pre.length item))
      (forkTurnStep r triggers previous pre.length positions item) := by
  have hskip (hitem : ∀ history, replayItem r history item = history) :
      Follows r summaries (pre ++ [item]) turns positions := by
    have hsame := h.append [item] []
      (fun history => (hitem history).trans (append_nil _).symm) rfl [] (by simp)
    rwa [append_nil] at hsame
  cases item with
  | responseItem e =>
    refine .inl ⟨rfl, ?_⟩
    rw [forkTurnStep, hprevious]
    simp only [instructionEvents, rolledBack?, instruction?, hprevious, filter_none,
      isSome_none, Bool.and_false, Bool.not_false, Bool.and_true]
    by_cases hboundary : isUserTurnBoundary r e.item
    · rw [if_pos hboundary, if_pos hboundary]
      have hnew (history : List ResponseItemEnvelope) :
          replayItems r history [.responseItem e] = history ++ [e] := by
        rw [← recordedItem_of_isUserTurnBoundary hboundary]
        rfl
      refine h.push (by simp) hnew hboundary ?_ _
      simp [hsummary, isSummary, isInstruction, hboundary]
    · have htrigger : isTriggerTurnBoundary r triggers e.item = false :=
        Bool.eq_false_iff.mpr (hboundary ∘ isUserTurnBoundary_of_isTriggerTurnBoundary)
      have hadded : boundaries r (recordedItem r e) = 0 := by
        rw [boundaries, countP_eq_length_filter, filter_recordedItem, if_neg hboundary]
        rfl
      rw [if_neg hboundary, if_neg hboundary, htrigger, Bool.or_false]
      have hmarked : ∀ i ∈ if isRealUserMessageBoundary r e.item then [pre.length] else [],
          summaries i := by
        intro i hi
        split at hi
        · next hreal =>
          rw [mem_singleton.mp hi, hsummary]
          simpa [isSummary, isUserMessage, isInstruction, hreal] using hboundary
        · cases hi
      have hnext := h.append [.responseItem e] (recordedItem r e) (fun history => rfl) hadded _
        hmarked
      split <;> simp_all
  | interAgentCommunication c =>
    exact .inl ⟨rfl, h.push (by simp) (fun history => rfl) rfl hsummary c.triggerTurn⟩
  | interAgentCommunicationMetadata triggerTurn =>
    exact .inr ⟨pre, triggerTurn, positions, rfl, rfl, hsummary, h, rfl⟩
  | compacted => cases hcompacted
  | eventMsg event =>
    cases event with
    | threadRolledBack n => exact .inl ⟨rfl, h.rollBack n⟩
    | _ => exact .inl ⟨rfl, hskip fun history => rfl⟩
  | _ => exact .inl ⟨rfl, hskip fun history => rfl⟩

theorem Pending.run (h : Pending r summaries previous pre turns positions)
    (hcompacted : ∀ item ∈ items, item.isCompacted = false)
    (hsummary : ∀ i item, items[i]? = some item → summaries (pre.length + i) = isSummary r item)
    (hdelivered : Delivered previous items) :
    Follows r summaries (pre ++ items)
      (standing turns (instructionLog r triggers previous pre.length items))
      (forkTurnPositionsFrom r triggers previous pre.length positions items) := by
  induction items generalizing previous pre turns positions with
  | nil =>
    rcases h with ⟨-, h⟩ | ⟨earlier, triggerTurn, before, rfl, -⟩
    · rwa [append_nil]
    · cases hdelivered
  | cons item items ih =>
    obtain ⟨hcompacted, hlater⟩ := forall_mem_cons.mp hcompacted
    have hnext : Pending r summaries (some item) (pre ++ [item])
        (standing turns (instructionEvents r triggers previous pre.length item))
        (forkTurnStep r triggers previous pre.length positions item) := by
      rcases h with ⟨hprevious, h⟩ | ⟨earlier, triggerTurn, before, rfl, rfl, hearlier, h, rfl⟩
      · exact h.step hprevious hcompacted (hsummary 0 item rfl)
      · obtain ⟨⟨item, metadata⟩, rfl, hagent⟩ := hdelivered.1 (by simp [deliveryMetadata?])
        cases item with
        | agentMessage id author recipient content passthrough =>
          refine .inl ⟨rfl, ?_⟩
          rw [append_assoc, length_append, length_singleton]
          exact h.push (cons_ne_nil _ _) (fun history => rfl) rfl hearlier triggerTurn
        | _ => cases hagent
    have hrest := ih hnext hlater (fun i other hother => by
      rw [length_append, length_singleton, Nat.add_right_comm, Nat.add_assoc]
      exact hsummary (i + 1) other hother) hdelivered.2
    rw [append_assoc, singleton_append, length_append, length_singleton] at hrest
    rw [instructionLog, standing_append, forkTurnPositionsFrom]
    exact hrest

def isSummaryAt (r : Rules) (items : List RolloutItem) (i : Nat) : Bool :=
  items[i]?.any (isSummary r)

/-- The history that is replayed from a fork of the last `n` turns: the end of the whole one, from
the `n`-th last turn on that stands, or nothing when no turn stands. -/
def ForksAtTurn (r : Rules) (triggers : Text → Bool) (items : List RolloutItem) (n : Nat) : Prop :=
  let turns := (standingInstructions r triggers items).filter (·.isForkTurn)
  let tail := replayItems r [] (truncateRolloutToLastNForkTurns r triggers items n)
  (turns = [] → tail = []) ∧ ∀ turn ∈ turns[turns.length - n]?, ∃ older newer,
    standingInstructions r triggers items = older ++ turn :: newer ∧
      replayItems r [] items = replayItems r [] (items.take turn.position) ++ tail ∧
      tail.head? = some turn.response ∧
      tail.filter (isUserTurnBoundary r ·.item) = (turn :: newer).map (·.response)

/-- What stands before the first instruction is never taken back. -/
theorem head?_dropLastNUserTurns {e : ResponseItemEnvelope}
    (he : isUserTurnBoundary r e.item = false) (hdeveloper : isDeveloperMessage e.item = false)
    (n : Nat) {history : List ResponseItemEnvelope} (h : history.head? = some e) :
    (dropLastNUserTurns r n history).head? = some e := by
  obtain ⟨rest, rfl⟩ := head?_eq_some_iff.mp h
  rw [dropLastNUserTurns]
  split
  · rfl
  cases hcut : LastMarked.cutAt (isUserTurnBoundary r ·.item) (e :: rest) n with
  | none => rfl
  | some found =>
    obtain ⟨first, cut⟩ := found
    have hpos {i : Nat} (hi : ((e :: rest)[i]?.any (isUserTurnBoundary r ·.item)) = true) :
        0 < i := by
      refine Nat.pos_of_ne_zero ?_
      rintro rfl
      rw [getElem?_cons_zero, any_some, he] at hi
      cases hi
    obtain ⟨kept, hkept⟩ := Nat.exists_eq_succ_of_ne_zero (LastMarked.trimBack_pos
      (isTrimmed r ·.item) (e :: rest) (hpos (LastMarked.marked_first_cutAt hcut))
      (hpos (LastMarked.marked_cutAt hcut))).ne'
    have hself (id : Text) : withoutModelInstructions id e = some e :=
      if_neg (by simp [hdeveloper])
    simp only [hkept, take_succ_cons]
    split
    · rw [filterMap_cons_some (hself _), head?_cons]
    · rw [head?_cons]

theorem head?_replayItems {e : ResponseItemEnvelope} (he : isUserTurnBoundary r e.item = false)
    (hdeveloper : isDeveloperMessage e.item = false)
    (hitems : ∀ item ∈ items, item.isCompacted = false) {history : List ResponseItemEnvelope}
    (h : history.head? = some e) : (replayItems r history items).head? = some e := by
  refine foldlRecOn (motive := fun history : List ResponseItemEnvelope => history.head? = some e)
    items _ h fun history h item hitem => ?_
  have hcompacted := hitems item hitem
  cases item with
  | responseItem | interAgentCommunication =>
    rw [replayItem, recordItem, head?_append, h]
    rfl
  | compacted => cases hcompacted
  | eventMsg event =>
    cases event with
    | threadRolledBack n => exact head?_dropLastNUserTurns he hdeveloper n h
    | _ => exact h
  | _ => exact h

section
variable (hcompacted : ∀ item ∈ items, item.isCompacted = false)
include hcompacted

/-- A fork at a message with the text of a summary begins with that message. -/
theorem head?_replayItems_drop {i : Nat} (hsummary : isSummaryAt r items i) :
    ∃ e, (replayItems r [] (items.drop i)).head? = some e ∧
      isUserTurnBoundary r e.item = false := by
  obtain ⟨item, hitem, hsummary⟩ := (any_eq_true _ _).mp hsummary
  obtain ⟨hlt, rfl⟩ := List.getElem?_eq_some_iff.mp hitem
  obtain ⟨huser, hboundary⟩ := Bool.and_eq_true_iff.mp hsummary
  rw [drop_eq_getElem_cons hlt]
  have hlater : ∀ item ∈ items.drop (i + 1), item.isCompacted = false :=
    fun item hitem => hcompacted item (mem_of_mem_drop hitem)
  generalize items[i] = item at huser hboundary
  cases item with
  | responseItem e =>
    obtain ⟨item, metadata⟩ := e
    rw [Bool.not_eq_true', isInstruction] at hboundary
    cases item with
    | message role content passthrough unread =>
      obtain ⟨hrole, -⟩ := Bool.and_eq_true_iff.mp (Bool.and_eq_true_iff.mp huser).1
      obtain rfl : role = "user".toList := of_decide_eq_true hrole
      exact ⟨_, head?_replayItems hboundary rfl hlater rfl, hboundary⟩
    | _ => cases huser
  | _ => cases huser

variable {keep : Nat} {older newer : List Instruction} (hdelivered : Delivered none items)
include hdelivered

theorem follows_items (triggers : Text → Bool) :
    Follows r (isSummaryAt r items) items (standingInstructions r triggers items)
      (forkTurnPositionsFrom r triggers none 0 ([], []) items) := by
  have hstart : Follows r (isSummaryAt r items) [] [] ([], []) :=
    ⟨rfl, rfl, .nil, fun older turn newer h => absurd h.symm (by simp)⟩
  refine Pending.run (.inl ⟨rfl, hstart⟩) hcompacted (fun i item hitem => ?_) hdelivered
  rw [length_nil, Nat.zero_add, isSummaryAt, hitem, any_some]

/-- From its position on the records replay to the end of the history that begins with the
instruction. -/
theorem forks_of_standing
    (hstanding : standingInstructions r triggers items = older ++ turn :: newer) :
    let tail := replayItems r [] (items.drop turn.position)
    replayItems r [] items = replayItems r [] (items.take turn.position) ++ tail ∧
      tail.head? = some turn.response ∧ isUserTurnBoundary r turn.response.item = true ∧
      tail.filter (isUserTurnBoundary r ·.item) = (turn :: newer).map (·.response) := by
  intro tail
  have hhistory : (replayItems r [] items).filter (isUserTurnBoundary r ·.item) =
      (standingInstructions r triggers items).map (·.response) :=
    filter_replayItems_eq_standing hcompacted rfl
  obtain ⟨-, hturn, rest, hrest, hdrop, hsplit⟩ :=
    (follows_items hcompacted hdelivered triggers).splits older turn newer hstanding
  rw [← hdrop] at hsplit
  refine ⟨hsplit, by simp only [tail, hdrop, head?_cons], hturn, ?_⟩
  rw [hsplit, hstanding, filter_append, map_append] at hhistory
  refine (append_inj' hhistory ?_).2
  rw [hdrop, filter_cons_of_pos (by exact hturn), length_cons, length_map, length_cons, ← hrest,
    boundaries, countP_eq_length_filter]

variable (hkeep : keep ∈ forkTurnPositionsInRollout r triggers items)
include hkeep

theorem isSummaryAt_or_standing :
    isSummaryAt r items keep ∨ ∃ turn older newer, turn.position = keep ∧
      standingInstructions r triggers items = older ++ turn :: newer := by
  by_cases hsummary : isSummaryAt r items keep
  · exact .inl hsummary
  have hmem : keep ∈ (forkTurnPositionsInRollout r triggers items).filter
      (!isSummaryAt r items ·) := mem_filter.mpr ⟨hkeep, by simpa using hsummary⟩
  rw [forkTurnPositionsInRollout, (follows_items hcompacted hdelivered triggers).snd_eq] at hmem
  obtain ⟨turn, hturn, hposition⟩ := List.mem_map.mp hmem
  obtain ⟨older, newer, hstanding⟩ := append_of_mem (mem_of_mem_filter hturn)
  exact .inr ⟨turn, older, newer, hposition, hstanding⟩

theorem replayItems_drop_ne_nil : replayItems r [] (items.drop keep) ≠ [] := by
  obtain ⟨e, hhead⟩ : ∃ e, (replayItems r [] (items.drop keep)).head? = some e := by
    rcases isSummaryAt_or_standing hcompacted hdelivered hkeep with
      hsummary | ⟨turn, older, newer, rfl, hstanding⟩
    · obtain ⟨e, hhead, -⟩ := head?_replayItems_drop hcompacted hsummary
      exact ⟨e, hhead⟩
    · exact ⟨_, (forks_of_standing hcompacted hdelivered hstanding).2.1⟩
  exact ne_nil_of_mem (mem_of_head? hhead)

/-- A fork whose history has the instruction first, and as many as stand from it on, is cut at its
position. -/
theorem eq_position_of_tail
    (hstanding : standingInstructions r triggers items = older ++ turn :: newer)
    (hhead : (replayItems r [] (items.drop keep)).head? = some turn.response)
    (hfilter : (replayItems r [] (items.drop keep)).filter (isUserTurnBoundary r ·.item) =
      (turn :: newer).map (·.response)) :
    keep = turn.position := by
  rcases isSummaryAt_or_standing hcompacted hdelivered hkeep with
    hsummary | ⟨other, older', newer', rfl, hstanding'⟩
  · obtain ⟨e, hfirst, he⟩ := head?_replayItems_drop hcompacted hsummary
    rw [hfirst, Option.some.injEq] at hhead
    rw [hhead, (forks_of_standing hcompacted hdelivered hstanding).2.2.1] at he
    cases he
  · have hsame := congrArg List.length
      (hfilter.symm.trans (forks_of_standing hcompacted hdelivered hstanding').2.2.2)
    rw [length_map, length_map] at hsame
    have hinj := (append_inj' (hstanding.symm.trans hstanding') hsame).2
    rw [head_eq_of_cons_eq hinj]

end

/-- A fork of the last turns replays to the end of the history, from the first of these turns on,
just if the cut would be the same without the messages that have the text of a summary. -/
theorem fork_replays_to_tail (triggers : Text → Bool)
    (hcompacted : ∀ item ∈ items, item.isCompacted = false)
    (hdelivered : Delivered none items) (hn : n ≠ 0) :
    let positions := forkTurnPositionsInRollout r triggers items
    let turnPositions := positions.filter (!isSummaryAt r items ·)
    (replayItems r [] items).filter (isUserTurnBoundary r ·.item) =
        (standingInstructions r triggers items).map (·.response) ∧
      (ForksAtTurn r triggers items n ↔
        positions[positions.length - n]? = turnPositions[turnPositions.length - n]?) := by
  intro positions turnPositions
  refine ⟨filter_replayItems_eq_standing hcompacted rfl, ?_⟩
  have hturnPositions : turnPositions = ((standingInstructions r triggers items).filter
      (·.isForkTurn)).map (·.position) := (follows_items hcompacted hdelivered triggers).snd_eq
  have hempty {β : Type} {l : List β} (h : l[l.length - n]? = none) : l = [] :=
    length_eq_zero_iff.mp (by have := List.getElem?_eq_none_iff.mp h; omega)
  rw [ForksAtTurn, truncateRolloutToLastNForkTurns, if_neg hn]
  change _ ∧ _ ↔ positions[positions.length - n]? = _
  generalize hturns : (standingInstructions r triggers items).filter (·.isForkTurn) = turns
    at hturnPositions ⊢
  rw [hturnPositions, length_map, getElem?_map]
  constructor
  · rintro ⟨hnil, hturn⟩
    cases hcut : positions[positions.length - n]? with
    | none =>
      have hnone : turnPositions = [] := by simp only [turnPositions, hempty hcut, filter_nil]
      rw [hnone] at hturnPositions
      rw [map_eq_nil_iff.mp hturnPositions.symm]
      rfl
    | some keep =>
      rw [hcut] at hnil hturn
      have hkeep : keep ∈ positions := mem_of_getElem? hcut
      cases hget : turns[turns.length - n]? with
      | none =>
        exact absurd (hnil (hempty hget)) (replayItems_drop_ne_nil hcompacted hdelivered hkeep)
      | some turn =>
        obtain ⟨older, newer, hstanding, -, hhead, hfilter⟩ := hturn turn hget
        rw [eq_position_of_tail hcompacted hdelivered hkeep hstanding hhead hfilter]
        rfl
  · intro hcut
    rw [hcut]
    cases hget : turns[turns.length - n]? with
    | none => exact ⟨fun _ => rfl, by simp⟩
    | some turn =>
      have hmem : turn ∈ turns := mem_of_getElem? hget
      obtain ⟨older, newer, hstanding⟩ := append_of_mem (mem_of_mem_filter (hturns ▸ hmem))
      obtain ⟨hsplit, hhead, -, hfilter⟩ := forks_of_standing hcompacted hdelivered hstanding
      refine ⟨fun h => absurd h (ne_nil_of_mem hmem), ?_⟩
      rintro _ ⟨⟩
      exact ⟨older, newer, hstanding, hsplit, hhead, hfilter⟩

def deliveredThread : List RolloutItem :=
  [.responseItem (plainMessage "user" "a"), .responseItem (plainMessage "user" "b"),
    .interAgentCommunicationMetadata true, .responseItem ⟨.agentMessage none [] [] [] none, none⟩,
    .eventMsg (.threadRolledBack 1)]

theorem fork_replays_to_tail_delivered :
    ForksAtTurn plainRules (fun _ => false) deliveredThread 1 := by
  have hdelivered : Delivered none deliveredThread :=
    ⟨by simp [deliveryMetadata?], by simp [deliveryMetadata?], by simp [deliveryMetadata?],
      fun _ => ⟨_, rfl, rfl⟩, by simp [deliveryMetadata?], rfl⟩
  exact (fork_replays_to_tail (fun _ => false) (by decide) hdelivered Nat.one_ne_zero).2.mpr
    (by decide +kernel)

/-- A message with the text of a summary is a fork turn, but no turn of the history. -/
def summaryThread : List RolloutItem :=
  [.responseItem (plainMessage "user" "a"), .responseItem
      (plainMessage "user" "Another language model started to solve this problem\n"),
    .responseItem (plainMessage "developer" "<permissions instructions>"),
    .responseItem (plainMessage "user" "b"), .eventMsg (.threadRolledBack 1)]

theorem summary_fork_is_no_tail :
    (∀ item ∈ summaryThread, item.isCompacted = false) ∧
      (∀ triggerTurn, .interAgentCommunicationMetadata triggerTurn ∉ summaryThread) ∧
      ¬ replayItems plainRules [] (truncateRolloutToLastNForkTurns plainRules (fun _ => false)
        summaryThread 1) <:+ replayItems plainRules [] summaryThread := by
  decide +kernel

end ForkTurns

end Codex.Rollout

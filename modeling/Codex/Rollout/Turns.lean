import Codex.Lib.UndoLog
import Codex.Rollout.Reconstruction

/-! A rollout of complete turns and rollback markers as a log whose entries are turns: each turn
adds its items, and a compaction puts its replacement history in place of everything before it. -/

namespace Codex.Rollout
open Codex.Lib Codex.Lib.UndoLog List Option

inductive TurnItem
  | response (e : ResponseItemEnvelope)
  | compacted (c : CompactedItem)

def TurnItem.record : TurnItem → RolloutItem
  | .response e => .responseItem e
  | .compacted c => .compacted c

/-- The output of a model neither starts a turn nor is context, and a compaction has its
replacement history and window. -/
def TurnItem.WellFormed (r : Rules) : TurnItem → Prop
  | .response e =>
    countsAsBoundary r e.item = false ∧ isPreTurnContextUpdate r e.item = false ∧
      isUserTurnBoundary r e.item = false
  | .compacted c => c.replacementHistory.isSome = true ∧ c.windowNumber.isSome = true

/-- A complete turn: the user message, which the migration does not take for context, and what
follows it. -/
structure Turn (r : Rules) where
  turnId : Text
  started : Text
  content : List ContentItem
  passthrough : Option Passthrough
  unread : Text
  metadata : Option HarnessMetadata
  body : List TurnItem
  completed : TurnOutcome
  content_notKnownContextual : anyInputText (isKnownContextualUserText r) content = false
  body_wellFormed : ∀ item ∈ body, item.WellFormed r

variable {r : Rules}

def Turn.user (t : Turn r) : ResponseItemEnvelope :=
  ⟨.message "user".toList t.content t.passthrough t.unread, t.metadata⟩

def Turn.complete (t : Turn r) : RolloutItem := .eventMsg (.turnComplete t.turnId t.completed)

def Turn.records (t : Turn r) : List RolloutItem :=
  .eventMsg (.turnStarted t.turnId t.started) :: .responseItem t.user ::
    (t.body.map TurnItem.record ++ [t.complete])

abbrev Log (r : Rules) := List (Event (Turn r))

def records (log : Log r) : List RolloutItem :=
  log.flatMap fun
    | .entry t => t.records
    | .undo n => [.eventMsg (.threadRolledBack n)]

@[simp] theorem records_nil : records ([] : Log r) = [] := rfl

variable (t : Turn r)

@[simp] theorem records_entry (log : Log r) :
    records (.entry t :: log) = t.records ++ records log := rfl

@[simp] theorem records_undo (n : Nat) (log : Log r) :
    records (.undo n :: log) = .eventMsg (.threadRolledBack n) :: records log := rfl

@[simp] theorem records_append (xs ys : Log r) : records (xs ++ ys) = records xs ++ records ys :=
  flatMap_append

@[simp] theorem countsAsBoundary_user : countsAsBoundary r t.user.item := by
  simp [Turn.user, countsAsBoundary, t.content_notKnownContextual]

/-- Whether the resume counts the turn: its message is no context for it and no summary. -/
def Turn.counts (t : Turn r) : Bool := isUserTurnBoundary r t.user.item

theorem recordedItem_user : recordedItem r t.user = [t.user] := by
  simp [recordedItem, isApiMessage, processed, Turn.user]

def bodyItems (r : Rules) (body : List TurnItem) : List ResponseItemEnvelope :=
  body.flatMap fun
    | .response e => recordedItem r e
    | .compacted _ => []

def Turn.items (t : Turn r) : List ResponseItemEnvelope := t.user :: bodyItems r t.body

def bodyCompaction : List TurnItem → Option CompactedItem
  | [] => none
  | .compacted c :: body => (bodyCompaction body).or (some c)
  | .response _ :: body => bodyCompaction body

def Turn.compaction (t : Turn r) : Option CompactedItem := bodyCompaction t.body

/-- The history at the end of a turn that compacts: the newest replacement history and what the
turn adds to it. -/
def bodyBase (r : Rules) : List TurnItem → Option (List ResponseItemEnvelope)
  | [] => none
  | .compacted c :: body =>
    (bodyBase r body).or (some (c.replacementHistory.getD [] ++ bodyItems r body))
  | .response _ :: body => bodyBase r body

def Turn.base (t : Turn r) : Option (List ResponseItemEnvelope) := bodyBase r t.body

def historyAfter (history : List ResponseItemEnvelope) (t : Turn r) : List ResponseItemEnvelope :=
  t.base.getD (history ++ t.items)

def conversationHistory (turns : List (Turn r)) : List ResponseItemEnvelope :=
  turns.foldl historyAfter []

theorem isSome_bodyBase (body : List TurnItem) :
    (bodyBase r body).isSome = (bodyCompaction body).isSome := by
  induction body with
  | nil => rfl
  | cons item body ih => cases item <;> simp [bodyBase, bodyCompaction, ih]

theorem Turn.base_eq_none {t : Turn r} (h : t.compaction = none) : t.base = none := by
  have hsome := isSome_bodyBase (r := r) t.body
  rw [show bodyCompaction t.body = none from h] at hsome
  exact isSome_eq_false_iff.mp hsome |> isNone_iff_eq_none.mp

theorem foldl_historyAfter {turns : List (Turn r)} (h : ∀ t ∈ turns, t.compaction = none)
    (history : List ResponseItemEnvelope) :
    turns.foldl historyAfter history = history ++ turns.flatMap Turn.items := by
  induction turns generalizing history with
  | nil => simp
  | cons t turns ih =>
    have ht : historyAfter history t = history ++ t.items := by
      rw [historyAfter, Turn.base_eq_none (h t mem_cons_self), getD_none]
    rw [foldl_cons, ht, ih fun u hu => h u (mem_cons_of_mem _ hu), append_assoc, flatMap_cons]

theorem conversationHistory_append {older newer : List (Turn r)} {t : Turn r}
    {base : List ResponseItemEnvelope} (ht : t.base = some base)
    (hnewer : ∀ u ∈ newer, u.compaction = none) :
    conversationHistory (older ++ t :: newer) = base ++ newer.flatMap Turn.items := by
  rw [conversationHistory, foldl_append, foldl_cons, foldl_historyAfter hnewer,
    historyAfter, ht, getD_some]

theorem not_isUserTurnBoundary_of_mem_bodyItems {body : List TurnItem} {e : ResponseItemEnvelope}
    (hbody : ∀ item ∈ body, item.WellFormed r) (he : e ∈ bodyItems r body) :
    isUserTurnBoundary r e.item = false := by
  obtain ⟨item, hitem, he⟩ := mem_flatMap.mp he
  have hwf := hbody item hitem
  cases item with
  | compacted c => exact absurd he not_mem_nil
  | response e' =>
    simp only [recordedItem] at he
    split at he
    · obtain rfl := mem_singleton.mp he
      rw [isUserTurnBoundary_processed]
      exact hwf.2.2
    · exact absurd he not_mem_nil

theorem boundaries_bodyItems {body : List TurnItem} (hbody : ∀ item ∈ body, item.WellFormed r) :
    boundaries r (bodyItems r body) = 0 := by
  refine countP_eq_zero.mpr fun e he => ?_
  rw [not_isUserTurnBoundary_of_mem_bodyItems hbody he]
  exact Bool.false_ne_true

theorem boundaries_flatMap_items {turns : List (Turn r)} (h : ∀ t ∈ turns, t.counts) :
    boundaries r (turns.flatMap Turn.items) = turns.length := by
  induction turns with
  | nil => rfl
  | cons t turns ih =>
    have ht : boundaries r t.items = 1 := by
      have hcounts : isUserTurnBoundary r t.user.item := h t mem_cons_self
      rw [boundaries, Turn.items, countP_cons, if_pos hcounts]
      exact congrArg (· + 1) (boundaries_bodyItems t.body_wellFormed)
    have hrest := ih fun u hu => h u (mem_cons_of_mem _ hu)
    rw [boundaries] at hrest ht ⊢
    rw [flatMap_cons, countP_append, hrest, ht, length_cons, Nat.add_comm]

end Codex.Rollout

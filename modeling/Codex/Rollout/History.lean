import Codex.Lib.LastMarked
import Codex.Rollout.Items

/-! `record_item_with_metadata` and `drop_last_n_user_turns` of
`core/src/context_manager/history.rs`, and the `drop_last_n_user_turns` of
`thread-store/src/local/rollout_migration/rollback.rs`. -/

namespace Codex.Rollout
open Codex.Lib Codex.Lib.LastMarked List

def isApiMessage (e : ResponseItemEnvelope) : Bool :=
  match e.item with
  | .message role _ _ _ => role ≠ "system".toList
  | .configurationUpdate _ => e.metadata.any (·.harnessAuthoredConfiguration)
  | .compactionTrigger _ => false
  | .other => false
  | _ => true

def processed (r : Rules) (e : ResponseItemEnvelope) : ResponseItemEnvelope :=
  let limit := e.metadata.bind (·.historyTruncationTokenLimit)
  match e.item with
  | .functionCallOutput output unread =>
    { e with item := .functionCallOutput (r.truncateOutput limit output) unread }
  | .customToolCallOutput output unread =>
    { e with item := .customToolCallOutput (r.truncateOutput limit output) unread }
  | _ => e

def recordedItem (r : Rules) (e : ResponseItemEnvelope) : List ResponseItemEnvelope :=
  if isApiMessage e then [processed r e] else []

def recordItem (r : Rules) (history : List ResponseItemEnvelope) (e : ResponseItemEnvelope) :
    List ResponseItemEnvelope := history ++ recordedItem r e

variable (r : Rules) (e : ResponseItemEnvelope)

theorem isUserTurnBoundary_processed :
    isUserTurnBoundary r (processed r e).item = isUserTurnBoundary r e.item := by
  unfold processed
  split <;> simp_all [isUserTurnBoundary]

def matchesMarkedText (startMarker endMarker : String) (text : Text) : Bool :=
  let trimmed := text.dropWhile Text.isWhitespace
  startsWithIgnoreCase startMarker.toList trimmed &&
    endsWithIgnoreCase endMarker.toList (Text.trimEnd trimmed)

/-- Parts that are rebuilt from the model and effort of the next step. -/
def isModelInstruction : ContentItem → Bool
  | .inputText text =>
    matchesMarkedText "<model_switch>" "</model_switch>" text ||
      matchesMarkedText "<persistent_mode>" "</persistent_mode>" text
  | _ => false

/-- `to_annotated_content`: missing classifications are unknown. -/
def annotatedContent (content : List ContentItem) (passthrough : Option Passthrough) :
    List (ContentItem × Text) :=
  let kinds := (passthrough.bind (·.contentItemKinds)).getD []
  content.zipIdx.map fun (part, i) => (part, kinds.getD i "unknown".toList)

def isDeveloperMessage : ResponseItem → Bool
  | .message role _ _ _ => role = "developer".toList
  | _ => false

def withoutModelInstructions (firstTurnId : Text) (e : ResponseItemEnvelope) :
    Option ResponseItemEnvelope :=
  if e.item.turnId = some firstTurnId ∧ isDeveloperMessage e.item then
    match e.item with
    | .message role content passthrough unread =>
      let kept := (annotatedContent content passthrough).filter (!isModelInstruction ·.1)
      if kept.isEmpty then none
      else
        let metadata := passthrough.getD ⟨none, none, []⟩
        let updated := { metadata with contentItemKinds := some (kept.map (·.2)) }
        some { e with item := .message role (kept.map (·.1)) (some updated) unread }
    | _ => none
  else some e

def dropLastNUserTurns (r : Rules) (numTurns : Nat) (items : List ResponseItemEnvelope) :
    List ResponseItemEnvelope :=
  if numTurns = 0 then items
  else match cutAt (isUserTurnBoundary r ·.item) items numTurns with
    | none => items
    | some (first, cut) =>
      let cut := trimBack (isTrimmed r ·.item) items first cut
      match if cut = first then items[first]?.bind (·.item.turnId) else none with
      | some firstTurnId => (items.take cut).filterMap (withoutModelInstructions firstTurnId)
      | none => items.take cut

/-- The cut as `rollback.rs` keeps it for checkpoints. -/
def dropLastNUserTurnsOfCheckpoint (r : Rules) (numTurns : Nat)
    (items : List ResponseItemEnvelope) : List ResponseItemEnvelope :=
  if numTurns = 0 then items
  else match cutAt (countsAsBoundary r ·.item) items numTurns with
    | none => items
    | some (first, cut) => items.take (trimBack (isPreTurnContextUpdate r ·.item) items first cut)

theorem not_isUserTurnBoundary_of_isTrimmed {r : Rules} {item : ResponseItem}
    (h : isTrimmed r item) : isUserTurnBoundary r item = false := by
  cases item with
  | message role content passthrough unread =>
    simp only [isTrimmed, Bool.or_eq_true, Bool.and_eq_true, decide_eq_true_eq] at h
    rcases h with ⟨rfl, _⟩ | ⟨rfl, hcontext⟩
    · simp [isUserTurnBoundary]
    · simp [isUserTurnBoundary, hcontext]
  | _ => simp [isTrimmed] at h

theorem not_isUserTurnBoundary_of_isDeveloperMessage {r : Rules} {item : ResponseItem}
    (h : isDeveloperMessage item) : isUserTurnBoundary r item = false := by
  cases item with
  | message role content passthrough unread =>
    obtain rfl : role = "developer".toList := of_decide_eq_true h
    simp [isUserTurnBoundary]
  | _ => simp [isDeveloperMessage] at h

theorem withoutModelInstructions_cases (firstTurnId : Text) (e : ResponseItemEnvelope) :
    withoutModelInstructions firstTurnId e = some e ∨
      isDeveloperMessage e.item ∧
        ∀ e' ∈ withoutModelInstructions firstTurnId e, isDeveloperMessage e'.item := by
  by_cases h : e.item.turnId = some firstTurnId ∧ isDeveloperMessage e.item
  · refine .inr ⟨h.2, fun e' he' => ?_⟩
    obtain ⟨item, metadata⟩ := e
    cases item with
    | message role content passthrough unread =>
      simp only [withoutModelInstructions, if_pos h] at he'
      split at he'
      · exact nomatch he'
      · obtain rfl := Option.some.inj he'
        exact h.2
    | _ => exact absurd h.2 (by simp [isDeveloperMessage])
  · exact .inl (if_neg h)

theorem filter_withoutModelInstructions (firstTurnId : Text) (items : List ResponseItemEnvelope) :
    (items.filterMap (withoutModelInstructions firstTurnId)).filter
        (isUserTurnBoundary r ·.item) = items.filter (isUserTurnBoundary r ·.item) := by
  induction items with
  | nil => rfl
  | cons e items ih =>
    rcases withoutModelInstructions_cases firstTurnId e with hkept | ⟨hold, hnew⟩
    · rw [filterMap_cons_some hkept, filter_cons, filter_cons, ih]
    · have hboundary := not_isUserTurnBoundary_of_isDeveloperMessage (r := r) hold
      rw [filter_cons_of_neg (by simpa using hboundary), ← ih]
      cases hrest : withoutModelInstructions firstTurnId e with
      | none => rw [filterMap_cons_none hrest]
      | some e' =>
        have hnew := not_isUserTurnBoundary_of_isDeveloperMessage (r := r) (hnew e' hrest)
        rw [filterMap_cons_some hrest, filter_cons_of_neg (by simpa using hnew)]

theorem filter_dropLastNUserTurns (numTurns : Nat) (items : List ResponseItemEnvelope) :
    (dropLastNUserTurns r numTurns items).filter (isUserTurnBoundary r ·.item) =
      (items.filter (isUserTurnBoundary r ·.item)).take
        ((items.filter (isUserTurnBoundary r ·.item)).length - numTurns) := by
  rw [dropLastNUserTurns]
  by_cases hzero : numTurns = 0
  · rw [if_pos hzero, hzero, Nat.sub_zero, take_length]
  · rw [if_neg hzero]
    cases hcut : cutAt (isUserTurnBoundary r ·.item) items numTurns with
    | none =>
      rw [cutAt_eq_none_iff.mp hcut, take_nil]
    | some cut =>
      obtain ⟨first, cut⟩ := cut
      have htrimmed := filter_take_trimBack (p := (isUserTurnBoundary r ·.item))
        (q := (isTrimmed r ·.item)) (fun _ => not_isUserTurnBoundary_of_isTrimmed) items first cut
      rw [filter_take_cutAt hzero hcut] at htrimmed
      simp only
      split
      · rw [filter_withoutModelInstructions, htrimmed]
      · exact htrimmed

def boundaries (r : Rules) (history : List ResponseItemEnvelope) : Nat :=
  history.countP (isUserTurnBoundary r ·.item)

/-- Dropping a turn that starts with `next` takes nothing of the history before it: no contextual
item stands right before the turn, and when it is the first, no developer message of the history is
rebuilt for it. -/
structure Settled (r : Rules) (history : List ResponseItemEnvelope) (next : ResponseItem) :
    Prop where
  last : boundaries r history ≠ 0 → ∀ e ∈ history.getLast?, isTrimmed r e.item = false
  first : boundaries r history = 0 → ∀ id ∈ next.turnId,
    history.filterMap (withoutModelInstructions id) = history

theorem dropLastNUserTurns_append {r : Rules} {older newer : List ResponseItemEnvelope}
    {next : ResponseItemEnvelope} {n : Nat} (hnext : isUserTurnBoundary r next.item)
    (hn : boundaries r newer + 1 = n ∨ boundaries r older = 0 ∧ boundaries r newer + 1 ≤ n)
    (hsettled : Settled r older next.item) :
    dropLastNUserTurns r n (older ++ next :: newer) = older := by
  obtain ⟨first, hcut, hnone, hsome⟩ :=
    cutAt_append (p := fun e : ResponseItemEnvelope => isUserTurnBoundary r e.item) hnext hn
  have hzero : n ≠ 0 := by omega
  rw [dropLastNUserTurns, if_neg hzero, hcut]
  by_cases hold : boundaries r older = 0
  · -- the first turn goes: nothing is trimmed, but developer messages of that turn are rebuilt
    obtain rfl := hnone hold
    simp only [trimBack_self, if_true, getElem?_append_right le_rfl, Nat.sub_self,
      getElem?_cons_zero, Option.bind_some, take_left']
    cases hid : next.item.turnId with
    | none => rfl
    | some id => exact hsettled.first hold id hid
  · have hlt := hsome hold
    simp only [trimBack_append first (hsettled.last hold), if_neg hlt.ne', take_left']

end Codex.Rollout

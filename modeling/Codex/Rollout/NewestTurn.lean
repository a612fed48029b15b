import Mathlib.Data.List.Nodup
import Codex.Rollout.StandingMessages

/-! The reverse pass of a resume counts a rollback marker in turns, and the history counts it in
user messages. -/

namespace Codex.Rollout
open Codex.Lib Codex.Lib.UndoLog List

def RolloutItem.isContextRecord : RolloutItem → Bool
  | .turnContext _ => true
  | .worldState _ _ => true
  | _ => false

structure CompleteTurn (r : Rules) where
  turnId : Text
  started : Text
  before : List RolloutItem
  context : TurnContextItem
  after : List RolloutItem
  completed : TurnOutcome
  context_turnId : context.turnId = some turnId
  body_isTurnRecord : ∀ item ∈ before ++ after, item.isTurnRecord = true
  body_notContext : ∀ item ∈ before ++ after, item.isContextRecord = false
  boundary_isUserItem : ∀ e ∈ userMessages r (before ++ after), isUserItem e.item = true
  userMessages_ne_nil : userMessages r (before ++ after) ≠ []

variable {r : Rules}

namespace CompleteTurn

def body (t : CompleteTurn r) : List RolloutItem := t.before ++ .turnContext t.context :: t.after

def records (t : CompleteTurn r) : List RolloutItem :=
  .eventMsg (.turnStarted t.turnId t.started) ::
    (t.body ++ [.eventMsg (.turnComplete t.turnId t.completed)])

def messages (t : CompleteTurn r) : List ResponseItemEnvelope :=
  userMessages r (t.before ++ t.after)

def owned (t : CompleteTurn r) : List (CompleteTurn r × ResponseItemEnvelope) :=
  t.messages.map (t, ·)

theorem owned_ne_nil (t : CompleteTurn r) : t.owned ≠ [] := by
  rw [owned, ne_eq, map_eq_nil_iff]
  exact t.userMessages_ne_nil

end CompleteTurn

/-- The user messages that stand after a log, with their turns: a marker of `n` takes back the
newest `n` of them. -/
def standingMessages (log : List (Event (CompleteTurn r))) :
    List (CompleteTurn r × ResponseItemEnvelope) :=
  standing [] (partsLog CompleteTurn.owned log)

open CompleteTurn

theorem filter_replayItems_turn (t : CompleteTurn r) (history : List ResponseItemEnvelope) :
    (replayItems r history t.records).filter (isUserTurnBoundary r ·.item) =
      history.filter (isUserTurnBoundary r ·.item) ++ t.owned.map (·.2) := by
  have hbody : replayItems r history t.records = replayItems r history (t.before ++ t.after) := by
    simp only [records, body, replayItems, foldl_cons, foldl_append, foldl_nil, replayItem]
  have hmessages : t.owned.map (·.2) = t.messages := by
    rw [owned, map_map]
    exact map_id _
  rw [hbody, hmessages]
  exact filter_replayItems t.body_isTurnRecord history

variable (historyMode : ThreadHistoryMode) (log : List (Event (CompleteTurn r)))

theorem isCompacted_records : ∀ item ∈ logRecords records log, item.isCompacted = false := by
  intro item hitem
  obtain ⟨e, he, hitem⟩ := mem_flatMap.mp hitem
  cases e with
  | undo n =>
    obtain rfl := mem_singleton.mp hitem
    rfl
  | entry t =>
    simp only [records, body, mem_cons, mem_append, not_mem_nil, or_false] at hitem
    have hbody : item ∈ t.before ++ t.after → item.isCompacted = false := by
      intro hmem
      have hrecord := t.body_isTurnRecord item hmem
      cases item with
      | compacted c => exact nomatch hrecord
      | _ => rfl
    rcases hitem with rfl | (hmem | rfl | hmem) | rfl
    · rfl
    · exact hbody (mem_append_left _ hmem)
    · rfl
    · exact hbody (mem_append_right _ hmem)
    · rfl

def RolloutItem.countsAsUserTurn (r : Rules) : RolloutItem → Bool
  | .responseItem e => isUserTurnBoundary r e.item
  | .eventMsg (.userMessage _) => true
  | _ => false

def ReplayScan.within (s : ReplayScan) (segment : ActiveReplaySegment) : ReplayScan :=
  { s with activeSegment := some segment }

def ActiveReplaySegment.counting (segment : ActiveReplaySegment) (counts : Bool) :
    ActiveReplaySegment :=
  { segment with countsAsUserTurn := counts }

theorem scanItem_of_isTurnRecord {item : RolloutItem} (hitem : item.isTurnRecord)
    (hcontext : item.isContextRecord = false) (suffix : List RolloutItem) (s : ReplayScan)
    (segment : ActiveReplaySegment) :
    scanItem r suffix item (s.within segment) =
      s.within (segment.counting (item.countsAsUserTurn r || segment.countsAsUserTurn)) := by
  cases item with
  | responseItem e =>
    rw [Bool.or_comm]
    rfl
  | turnContext | worldState => exact nomatch hcontext
  | compacted | interAgentCommunication => exact nomatch hitem
  | eventMsg event =>
    cases event with
    | threadRolledBack | turnStarted | turnComplete | turnAborted => exact nomatch hitem
    | _ => rfl
  | _ => rfl

theorem scanItems_body {items rest : List RolloutItem}
    (hitems : ∀ item ∈ items, item.isTurnRecord)
    (hcontext : ∀ item ∈ items, item.isContextRecord = false) {s s' : ReplayScan}
    {segment : ActiveReplaySegment} (hs : scanItems r s rest = s'.within segment) :
    scanItems r s (items ++ rest) = s'.within (segment.counting
      (items.any (·.countsAsUserTurn r) || segment.countsAsUserTurn)) := by
  induction items with
  | nil => exact hs
  | cons item items ih =>
    rw [cons_append, scanItems, ih (fun x hx => hitems x (mem_cons_of_mem _ hx))
        (fun x hx => hcontext x (mem_cons_of_mem _ hx)),
      scanItem_of_isTurnRecord (hitems item mem_cons_self)
        (hcontext item mem_cons_self), any_cons, Bool.or_assoc]
    rfl

theorem any_countsAsUserTurn {items : List RolloutItem} (h : userMessages r items ≠ []) :
    items.any (·.countsAsUserTurn r) := by
  obtain ⟨e, he⟩ := exists_mem_of_ne_nil _ h
  obtain ⟨item, hitem, heq⟩ := mem_filterMap.mp he
  refine any_eq_true.mpr ⟨item, hitem, ?_⟩
  cases item with
  | responseItem e' =>
    simp only [Option.ite_none_right_eq_some] at heq
    exact heq.1
  | _ => exact nomatch heq

def CompleteTurn.segment (t : CompleteTurn r) : ActiveReplaySegment :=
  ⟨some t.turnId, true, true, some t.context.settings, .latest t.context, [], none⟩

theorem scanItems_turn (t : CompleteTurn r) {s : ReplayScan} {rest : List RolloutItem}
    (hs : (scanItems r s rest).activeSegment = none) :
    scanItems r s (t.records ++ rest) = finalizeActiveSegment (scanItems r s rest) t.segment := by
  have hafter := fun item hitem => t.body_isTurnRecord item (mem_append_right _ hitem)
  have hbefore := fun item hitem => t.body_isTurnRecord item (mem_append_left _ hitem)
  have hafterContext := fun item hitem => t.body_notContext item (mem_append_right _ hitem)
  have hbeforeContext := fun item hitem => t.body_notContext item (mem_append_left _ hitem)
  have hcounts := any_countsAsUserTurn t.userMessages_ne_nil
  rw [any_append] at hcounts
  have hrecords : t.records ++ rest = .eventMsg (.turnStarted t.turnId t.started) ::
      (t.before ++ .turnContext t.context ::
        (t.after ++ .eventMsg (.turnComplete t.turnId t.completed) :: rest)) := by
    simp [records, body]
  -- from the newest record: the end of the turn, the items, the context item and the start
  have hcomplete : scanItems r s (.eventMsg (.turnComplete t.turnId t.completed) :: rest) =
      (scanItems r s rest).within ⟨some t.turnId, true, false, none, .neverSet, [], none⟩ := by
    rw [scanItems, scanItem, hs]
    rfl
  have hopen := scanItems_body hafter hafterContext hcomplete
  have hcontext : scanItems r s (.turnContext t.context ::
      (t.after ++ .eventMsg (.turnComplete t.turnId t.completed) :: rest)) =
      (scanItems r s rest).within (t.segment.counting (t.after.any (·.countsAsUserTurn r))) := by
    rw [scanItems, hopen, Bool.or_false]
    simp [scanItem, ReplayScan.within, ActiveReplaySegment.counting, turnIdsAreCompatible,
      t.context_turnId, CompleteTurn.segment, TurnReferenceContextItem.isNeverSet]
  have hall : scanItems r s (t.before ++ .turnContext t.context ::
      (t.after ++ .eventMsg (.turnComplete t.turnId t.completed) :: rest)) =
      (scanItems r s rest).within t.segment := by
    rw [scanItems_body hbefore hbeforeContext hcontext,
      show (t.segment.counting (t.after.any (·.countsAsUserTurn r))).countsAsUserTurn =
        t.after.any (·.countsAsUserTurn r) from rfl, hcounts]
    rfl
  have hnone : { (scanItems r s rest).within t.segment with activeSegment := none } =
      scanItems r s rest := by
    rw [← hs]
    rfl
  rw [hrecords, scanItems, hall, ← hnone]
  simp [scanItem, ReplayScan.within, turnIdsAreCompatible, CompleteTurn.segment]

def referenceTo (turn : Option (CompleteTurn r)) : TurnReferenceContextItem :=
  turn.elim .neverSet fun t => .latest t.context

theorem scanItems_log :
    scanItems r ⟨none, none, .neverSet, 0, none⟩ (logRecords records log) =
      ⟨none, (net log).kept.getLast?.map (·.context.settings), referenceTo (net log).kept.getLast?,
        (net log).undone, none⟩ := by
  induction log with
  | nil => rfl
  | cons e log ih =>
    cases e with
    | undo n =>
      rw [logRecords, flatMap_cons]
      rw [logRecords] at ih
      simp only [singleton_append, scanItems, ih, scanItem, net_undo]
      rw [Nat.add_comm]
    | entry t =>
      rw [logRecords, flatMap_cons]
      rw [logRecords] at ih
      simp only
      rw [scanItems_turn t (by rw [ih]), ih, net_entry, finalizeActiveSegment]
      cases hundone : (net log).undone with
      | succ n => simp [CompleteTurn.segment]
      | zero =>
        -- a turn that stands is the newest if none stands after it
        cases hkept : (net log).kept.getLast? with
        | none =>
          rw [getLast?_eq_none_iff] at hkept
          simp [hkept, referenceTo, CompleteTurn.segment,
            ActiveReplaySegment.hasContextBaseline, TurnReferenceContextItem.isNeverSet]
        | some u =>
          simp [getLast?_cons, hkept, referenceTo, CompleteTurn.segment,
            TurnReferenceContextItem.isNeverSet]

theorem selectInputCompaction_log :
    selectInputCompaction historyMode (logRecords records log) = none := by
  rw [selectInputCompaction, newestCompaction_of_forall (isCompacted_records log),
    Option.filter_none]

theorem any_isLegacyCompaction_log :
    (logRecords records log).any (·.isLegacyCompaction) = false := by
  rw [any_eq_false]
  intro item hitem
  have hcompacted := isCompacted_records log item hitem
  cases item with
  | compacted c => exact nomatch hcompacted
  | _ => exact Bool.false_ne_true

theorem reconstructHistoryFromRollout_log (historyMode : ThreadHistoryMode)
    (log : List (Event (CompleteTurn r))) :
    let out := reconstructHistoryFromRollout r historyMode (logRecords records log)
    out.history = replayItems r [] (logRecords records log) ∧
      out.previousTurnSettings = (net log).kept.getLast?.map (·.context.settings) ∧
      out.referenceContextItem = (net log).kept.getLast?.map (·.context) := by
  simp only [reconstructHistoryFromRollout, selectInputCompaction_log, Option.map_none,
    Option.getD_none, Option.bind_none, scanItems_log, finalizeOldest, Option.or_none,
    any_isLegacyCompaction_log, Bool.false_eq_true, if_false]
  refine ⟨trivial, trivial, ?_⟩
  cases (net log).kept.getLast? <;> rfl

theorem filter_history_log : (reconstructHistoryFromRollout r historyMode
        (logRecords records log)).history.filter (isUserTurnBoundary r ·.item) =
      (standingMessages log).map (·.2) := by
  rw [(reconstructHistoryFromRollout_log historyMode log).1]
  exact filter_replayItems_logRecords filter_replayItems_turn rfl log

/-- A resume restores what the turn of the newest user message in its history had. -/
structure RestoresOwner (historyMode : ThreadHistoryMode) (log : List (Event (CompleteTurn r)))
    (owner : Option (CompleteTurn r)) : Prop where
  settings : (reconstructHistoryFromRollout r historyMode
    (logRecords CompleteTurn.records log)).previousTurnSettings = owner.map (·.context.settings)
  context : (reconstructHistoryFromRollout r historyMode
    (logRecords CompleteTurn.records log)).referenceContextItem = owner.map (·.context)

def newestOwner (log : List (Event (CompleteTurn r))) : Option (CompleteTurn r) :=
  (standingMessages log).getLast?.map (·.1)

theorem map_getLast?_owned (turns : List (CompleteTurn r)) :
    (turns.flatMap owned).getLast?.map (·.1) = turns.getLast? := by
  rcases eq_nil_or_concat turns with rfl | ⟨turns, t, rfl⟩
  · rfl
  · rw [concat_eq_append, flatMap_append, flatMap_singleton,
      getLast?_append_of_ne_nil _ t.owned_ne_nil, getLast?_concat,
      getLast?_eq_some_getLast t.owned_ne_nil, Option.map_some, Option.some.injEq]
    obtain ⟨e, _, he⟩ := mem_map.mp (getLast_mem t.owned_ne_nil)
    rw [← he]

theorem restoresOwner_of_aligned {log : List (Event (CompleteTurn r))}
    (h : Aligned owned [] log) : RestoresOwner historyMode log (newestOwner log) := by
  have howner : newestOwner log = (net log).kept.getLast? := by
    have hstanding := h.standing_eq
    rw [flatMap_nil] at hstanding
    rw [newestOwner, standingMessages, hstanding, map_getLast?_owned, standing_nil_eq_kept]
  obtain ⟨_, hsettings, hcontext⟩ := reconstructHistoryFromRollout_log historyMode log
  rw [howner]
  exact ⟨hsettings, hcontext⟩

theorem nodup_context {turns : List (CompleteTurn r)} (h : (turns.map (·.turnId)).Nodup) :
    (turns.map (·.context)).Nodup := by
  apply List.Nodup.of_map TurnContextItem.turnId
  have hids : (turns.map (·.context)).map (·.turnId) = (turns.map (·.turnId)).map some := by
    rw [map_map, map_map]
    exact map_congr_left fun t _ => t.context_turnId
  rw [hids]
  exact h.map fun _ _ => Option.some.inj

theorem aligned_of_restoresOwner {historyMode : ThreadHistoryMode}
    {log : List (Event (CompleteTurn r))} (hids : ((entries log).map (·.turnId)).Nodup)
    (h : ∀ p, p <+: log → RestoresOwner historyMode p (newestOwner p)) :
    Aligned owned [] log := by
  apply aligned_of_getLast_eq context fun b => b.1.context
  · exact owned_ne_nil
  · intro t b hb
    obtain ⟨e, _, rfl⟩ := mem_map.mp hb
    rfl
  · rw [nil_append]
    exact nodup_context hids
  · intro p hp
    have hcontext := (h p hp).context
    rw [(reconstructHistoryFromRollout_log historyMode p).2.2, newestOwner, Option.map_map]
      at hcontext
    rw [flatMap_nil, standing_nil_eq_kept p]
    exact hcontext.symm

/-- A thread resumes with the settings of the turn that owns its newest user message when every
marker takes back as many turns as messages, and, all along a rollout, only then. -/
theorem resume_restores_newest_owner (historyMode : ThreadHistoryMode)
    (log : List (Event (CompleteTurn r))) :
    (reconstructHistoryFromRollout r historyMode
          (logRecords CompleteTurn.records log)).history.filter (isUserTurnBoundary r ·.item) =
        (standingMessages log).map (·.2) ∧
      (Aligned CompleteTurn.owned [] log → RestoresOwner historyMode log (newestOwner log)) ∧
      (((entries log).map (·.turnId)).Nodup →
        (∀ p, p <+: log → RestoresOwner historyMode p (newestOwner p)) →
        Aligned CompleteTurn.owned [] log) :=
  ⟨filter_history_log historyMode log, restoresOwner_of_aligned historyMode,
    aligned_of_restoresOwner⟩

def plainContext (turnId : String) : TurnContextItem :=
  ⟨some turnId.toList, ("model of turn ".toList ++ turnId.toList), none, none, none, []⟩

def promptedTurn (turnId : String) : CompleteTurn plainRules where
  turnId := turnId.toList
  started := []
  before := []
  context := plainContext turnId
  after := [.responseItem (plainMessage "user" "hello"),
    .responseItem (plainMessage "assistant" "hi")]
  completed := ⟨none, []⟩
  context_turnId := rfl
  body_isTurnRecord := by decide +kernel
  body_notContext := by decide +kernel
  boundary_isUserItem := by decide +kernel
  userMessages_ne_nil := by decide +kernel

def steeredTurn (turnId : String) : CompleteTurn plainRules where
  turnId := turnId.toList
  started := []
  before := []
  context := plainContext turnId
  after := [.responseItem (plainMessage "user" "hello"),
    .responseItem (plainMessage "assistant" "hi"), .responseItem (plainMessage "user" "stop")]
  completed := ⟨none, []⟩
  context_turnId := rfl
  body_isTurnRecord := by decide +kernel
  body_notContext := by decide +kernel
  boundary_isUserItem := by decide +kernel
  userMessages_ne_nil := by decide +kernel

def steeredThread : List (Event (CompleteTurn plainRules)) :=
  [.entry (promptedTurn "1"), .entry (steeredTurn "2"), .undo 1]

def promptedThread : List (Event (CompleteTurn plainRules)) :=
  [.entry (steeredTurn "1"), .entry (promptedTurn "2"), .undo 1]

theorem resume_restores_newest_owner_promptedThread :
    Aligned CompleteTurn.owned [] promptedThread ∧
      RestoresOwner .legacy promptedThread (newestOwner promptedThread) :=
  have haligned : Aligned CompleteTurn.owned [] promptedThread := by decide +kernel
  ⟨haligned, (resume_restores_newest_owner .legacy promptedThread).2.1 haligned⟩

/-- The first message of the steered turn is left, and the settings are those of the turn before
it. -/
theorem resume_misses_steered_turn :
    (reconstructHistoryFromRollout plainRules .legacy
        (logRecords CompleteTurn.records steeredThread)).previousTurnSettings =
          some (plainContext "1").settings ∧
      (newestOwner steeredThread).map (·.turnId) = some "2".toList ∧
      ¬ RestoresOwner .legacy steeredThread (newestOwner steeredThread) := by
  have hsettings : (reconstructHistoryFromRollout plainRules .legacy
      (logRecords records steeredThread)).previousTurnSettings ≠
        (newestOwner steeredThread).map (·.context.settings) := by decide +kernel
  exact ⟨by decide +kernel, by decide +kernel, fun h => hsettings h.settings⟩

end Codex.Rollout

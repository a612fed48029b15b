import Codex.Rollout.StandingMessages

/-! The reverse pass keeps the newest context item of a turn and the settings of its oldest one: the
first is set once, the second is set again by every item. -/

namespace Codex.Rollout
open Codex.Lib List RolloutItem

def RolloutItem.context? : RolloutItem → Option TurnContextItem
  | .turnContext ctx => some ctx
  | _ => none

def contexts (items : List RolloutItem) : List TurnContextItem := items.filterMap (·.context?)

/-- What the reverse pass takes for the message of a user turn. -/
def RolloutItem.opensUserTurn (r : Rules) : RolloutItem → Bool
  | .responseItem e => isUserTurnBoundary r e.item
  | .eventMsg (.userMessage _) => true
  | .interAgentCommunication _ => true
  | _ => false

/-- Neither a compaction nor a rollback, nor the start or the end of a turn. -/
def RolloutItem.isWithinTurn : RolloutItem → Bool
  | .compacted _ => false
  | .eventMsg (.threadRolledBack _) => false
  | .eventMsg (.turnStarted _ _) => false
  | .eventMsg (.turnComplete _ _) => false
  | .eventMsg (.turnAborted _ _) => false
  | _ => true

structure ContextTurn (r : Rules) where
  turnId : Text
  started : Text
  body : List RolloutItem
  completed : TurnOutcome
  body_isWithinTurn : ∀ item ∈ body, item.isWithinTurn = true
  context_turnId : ∀ ctx ∈ contexts body, ctx.turnId = some turnId
  opensUserTurn : body.any (·.opensUserTurn r) = true

variable {r : Rules}

def ContextTurn.records (t : ContextTurn r) : List RolloutItem :=
  .eventMsg (.turnStarted t.turnId t.started) ::
    (t.body ++ [.eventMsg (.turnComplete t.turnId t.completed)])

def turnRollout (sessions : List Text) (turns : List (ContextTurn r)) : List RolloutItem :=
  sessions.map RolloutItem.sessionMeta ++ turns.flatMap ContextTurn.records

def newestContexts : List (ContextTurn r) → List TurnContextItem
  | [] => []
  | t :: turns => if newestContexts turns = [] then contexts t.body else newestContexts turns

def referenceOf (ctx : Option TurnContextItem) : TurnReferenceContextItem :=
  ctx.elim .neverSet .latest

/-- The segment of a turn after the records `items` at its end: the newest context item is kept
and the settings are of the oldest one. -/
def segmentOf (r : Rules) (turnId : Text) (items : List RolloutItem) : ActiveReplaySegment :=
  ⟨some turnId, true, items.any (·.opensUserTurn r), (contexts items).head?.map (·.settings),
    referenceOf (contexts items).getLast?,
    (items.filter fun
      | .worldState _ _ => true
      | _ => false).reverse, none⟩

theorem isNeverSet_referenceOf (ctx : Option TurnContextItem) :
    (referenceOf ctx).isNeverSet = ctx.isNone := by
  cases ctx <;> rfl

theorem scanItem_segmentOf {item : RolloutItem} (hitem : item.isWithinTurn) {turnId : Text}
    (hid : ∀ ctx ∈ item.context?, ctx.turnId = some turnId) (items suffix : List RolloutItem)
    (s : ReplayScan) :
    scanItem r suffix item { s with activeSegment := some (segmentOf r turnId items) } =
      { s with activeSegment := some (segmentOf r turnId (item :: items)) } := by
  cases item with
  | turnContext ctx =>
    have hctx : ctx.turnId = some turnId := hid ctx rfl
    have hlast : (contexts (.turnContext ctx :: items)).getLast? =
        some ((contexts items).getLast?.getD ctx) := getLast?_cons
    simp only [scanItem, segmentOf, Option.getD_some, Option.some_or, hctx, turnIdsAreCompatible,
      isNeverSet_referenceOf, hlast]
    cases (contexts items).getLast? <;> simp [contexts, context?, referenceOf, opensUserTurn]
  | worldState full unread =>
    simp [scanItem, segmentOf, opensUserTurn, contexts, context?]
  | responseItem e =>
    simp [scanItem, segmentOf, opensUserTurn, contexts, context?, Bool.or_comm]
  | interAgentCommunication =>
    simp [scanItem, segmentOf, opensUserTurn, contexts, context?]
  | compacted => cases hitem
  | eventMsg event =>
    cases event with
    | threadRolledBack | turnStarted | turnComplete | turnAborted => cases hitem
    | _ => simp [scanItem, segmentOf, opensUserTurn, contexts, context?]
  | _ => simp [scanItem, segmentOf, opensUserTurn, contexts, context?]

theorem scanItems_body_segmentOf {items rest : List RolloutItem} {turnId : Text}
    (hitems : ∀ item ∈ items, item.isWithinTurn)
    (hids : ∀ ctx ∈ contexts items, ctx.turnId = some turnId) {s s' : ReplayScan}
    (hs : scanItems r s rest = { s' with activeSegment := some (segmentOf r turnId []) }) :
    scanItems r s (items ++ rest) =
      { s' with activeSegment := some (segmentOf r turnId items) } := by
  induction items with
  | nil => exact hs
  | cons item items ih =>
    have hrest := ih (fun x hx => hitems x (mem_cons_of_mem item hx)) fun ctx hctx =>
      hids ctx (List.Sublist.subset ((sublist_cons_self item items).filterMap _) hctx)
    rw [cons_append, scanItems, hrest]
    refine scanItem_segmentOf (hitems item mem_cons_self) (fun ctx hctx => ?_) items _ s'
    exact hids ctx (mem_filterMap.mpr ⟨item, mem_cons_self, hctx⟩)

open ContextTurn

theorem scanItems_contextTurn (t : ContextTurn r) {s : ReplayScan} {rest : List RolloutItem}
    (hs : (scanItems r s rest).activeSegment = none) :
    scanItems r s (t.records ++ rest) =
      finalizeActiveSegment (scanItems r s rest) (segmentOf r t.turnId t.body) := by
  have hcomplete : scanItems r s (.eventMsg (.turnComplete t.turnId t.completed) :: rest) =
      { scanItems r s rest with activeSegment := some (segmentOf r t.turnId []) } := by
    rw [scanItems, scanItem, hs]
    rfl
  have hbody := scanItems_body_segmentOf t.body_isWithinTurn t.context_turnId hcomplete
  have hrecords : t.records ++ rest = .eventMsg (.turnStarted t.turnId t.started) ::
      (t.body ++ .eventMsg (.turnComplete t.turnId t.completed) :: rest) := by
    simp [records]
  rw [hrecords, scanItems, hbody]
  simp only [scanItem, segmentOf, turnIdsAreCompatible, ← hs]
  simp

variable (sessions : List Text) (turns : List (ContextTurn r))

theorem scanItems_turns :
    scanItems r ⟨none, none, .neverSet, 0, none⟩ (turns.flatMap records) =
      ⟨none, (newestContexts turns).head?.map (·.settings),
        referenceOf (newestContexts turns).getLast?, 0, none⟩ := by
  induction turns with
  | nil => rfl
  | cons t turns ih =>
    have hbaseline : (segmentOf r t.turnId t.body).hasContextBaseline := by
      rw [ActiveReplaySegment.hasContextBaseline, Bool.or_eq_true]
      exact .inl t.opensUserTurn
    rw [flatMap_cons, scanItems_contextTurn t (by rw [ih]), ih, finalizeActiveSegment,
      if_neg (Nat.lt_irrefl 0), newestContexts]
    simp only [hbaseline, isNeverSet_referenceOf, Bool.true_or, Bool.and_true, Option.isNone_map]
    cases hnewest : newestContexts turns with
    | nil => simp [segmentOf]
    | cons ctx older => simp [getLast?_cons, segmentOf]

theorem scanItems_sessions (s : ReplayScan) (sessions : List Text) (rest : List RolloutItem) :
    scanItems r s (sessions.map sessionMeta ++ rest) = scanItems r s rest := by
  induction sessions with
  | nil => rfl
  | cons session sessions ih => exact ih

theorem isCompacted_turnRollout :
    ∀ item ∈ turnRollout sessions turns, item.isCompacted = false := by
  intro item hitem
  rcases mem_append.mp hitem with hitem | hitem
  · obtain ⟨session, -, rfl⟩ := mem_map.mp hitem
    rfl
  · obtain ⟨t, -, hitem⟩ := mem_flatMap.mp hitem
    rcases mem_cons.mp hitem with rfl | hitem
    · rfl
    · rcases mem_append.mp hitem with hitem | hitem
      · have hwithin := t.body_isWithinTurn item hitem
        cases item with
        | compacted c => cases hwithin
        | _ => rfl
      · rw [mem_singleton.mp hitem]
        rfl

theorem contexts_records (t : ContextTurn r) : contexts t.records = contexts t.body := by
  simp [contexts, records, context?]

theorem getLast?_contexts_turns :
    (contexts (turns.flatMap records)).getLast? = (newestContexts turns).getLast? := by
  induction turns with
  | nil => rfl
  | cons t turns ih =>
    have hsplit : contexts ((t :: turns).flatMap records) =
        contexts t.body ++ contexts (turns.flatMap records) := by
      rw [flatMap_cons, contexts, filterMap_append, ← contexts_records]
      rfl
    rw [hsplit, newestContexts]
    by_cases hnewest : newestContexts turns = []
    · rw [hnewest, getLast?_nil, getLast?_eq_none_iff] at ih
      rw [ih, if_pos hnewest, append_nil]
    · have hne : contexts (turns.flatMap records) ≠ [] := by
        rwa [ne_eq, ← getLast?_eq_none_iff, ih, getLast?_eq_none_iff]
      rw [getLast?_append_of_ne_nil _ hne, ih, if_neg hnewest]

theorem getLast?_contexts_turnRollout :
    (contexts (turnRollout sessions turns)).getLast? = (newestContexts turns).getLast? := by
  have hsessions : contexts (sessions.map sessionMeta) = [] := by
    simp [contexts, context?]
  rw [contexts] at hsessions
  rw [← getLast?_contexts_turns, turnRollout, contexts, filterMap_append, hsessions]
  rfl

/-- The context item is the newest one, and the settings are its own exactly when the oldest and
the newest item of its turn have the same ones. -/
theorem resumed_settings_are_of_context_iff (historyMode : ThreadHistoryMode)
    (sessions : List Text) (turns : List (ContextTurn r)) :
    let rollout := turnRollout sessions turns
    let out := reconstructHistoryFromRollout r historyMode rollout
    out.referenceContextItem = (contexts rollout).getLast? ∧
      (out.previousTurnSettings = (contexts rollout).getLast?.map (·.settings) ↔
        (newestContexts turns).head?.map (·.settings) =
          (newestContexts turns).getLast?.map (·.settings)) := by
  intro rollout out
  have hselect : selectInputCompaction historyMode rollout = none := by
    rw [selectInputCompaction, newestCompaction_of_forall (isCompacted_turnRollout sessions turns),
      Option.filter_none]
  have hlegacy : rollout.any (·.isLegacyCompaction) = false := by
    rw [any_eq_false]
    intro item hitem
    have hcompacted := isCompacted_turnRollout sessions turns item hitem
    cases item with
    | compacted c => cases hcompacted
    | _ => exact Bool.false_ne_true
  have hscan : scanItems r ⟨none, none, .neverSet, 0, none⟩ rollout =
      ⟨none, (newestContexts turns).head?.map (·.settings),
        referenceOf (newestContexts turns).getLast?, 0, none⟩ :=
    (scanItems_sessions _ sessions _).trans (scanItems_turns turns)
  have hsettings : out.previousTurnSettings = (newestContexts turns).head?.map (·.settings) := by
    simp only [out, reconstructHistoryFromRollout, hselect, Option.map_none, Option.getD_none,
      Option.bind_none, hscan, finalizeOldest, Option.or_none]
  have hreference : out.referenceContextItem = (newestContexts turns).getLast? := by
    simp only [out, reconstructHistoryFromRollout, hselect, Option.map_none, Option.getD_none,
      Option.bind_none, hscan, finalizeOldest, hlegacy, Bool.false_eq_true, if_false]
    cases (newestContexts turns).getLast? <;> rfl
  rw [hsettings, hreference, getLast?_contexts_turnRollout]
  exact ⟨rfl, Iff.rfl⟩

def switchedTurn : ContextTurn plainRules where
  turnId := "1".toList
  started := []
  body := [.turnContext ⟨some "1".toList, "old".toList, none, none, none, []⟩,
    .responseItem (plainMessage "user" "hello"),
    .turnContext ⟨some "1".toList, "new".toList, none, none, none, []⟩]
  completed := ⟨none, []⟩
  body_isWithinTurn := by decide +kernel
  context_turnId := by decide +kernel
  opensUserTurn := by decide +kernel

theorem resumed_settings_miss_switch :
    let out := reconstructHistoryFromRollout plainRules .legacy (turnRollout [[]] [switchedTurn])
    out.referenceContextItem.map (·.model) = some "new".toList ∧
      out.previousTurnSettings.map (·.model) = some "old".toList := by
  decide +kernel

end Codex.Rollout

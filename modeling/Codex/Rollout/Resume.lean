import Codex.Rollout.Turns

/-! A rollout of complete turns and rollback markers resumes with the history of the turns that
stand, as long as the compaction that bounds the replay stands with its turn and the turns that are
rolled back take nothing else along. -/

namespace Codex.Rollout
open Codex.Lib Codex.Lib.UndoLog List Option TurnItem Turn

variable {r : Rules}

theorem replayItems_body {body : List TurnItem} (hbody : ∀ item ∈ body, item.WellFormed r)
    (history : List ResponseItemEnvelope) :
    replayItems r history (body.map record) = history ++ bodyItems r body := by
  induction body generalizing history with
  | nil => simp [replayItems, bodyItems]
  | cons item body ih =>
    have hrest := ih fun x hx => hbody x (mem_cons_of_mem _ hx)
    have hitem := hbody item mem_cons_self
    rw [map_cons, ← singleton_append, replayItems_append, hrest]
    cases item with
    | response e => simp [replayItems, replayItem, record, recordItem, bodyItems]
    | compacted c =>
      have hsome : c.replacementHistory.isNone = false := by
        rw [isNone_eq_false_iff]
        exact hitem.1
      simp [replayItems, replayItem, record, bodyItems, hsome]

variable (turns : List (Turn r)) (t : Turn r)

theorem replayItems_turn (history : List ResponseItemEnvelope) :
    replayItems r history t.records = history ++ t.items := by
  have hstart : replayItems r history [.eventMsg (.turnStarted t.turnId t.started),
      .responseItem t.user] = history ++ [t.user] := by
    simp [replayItems, replayItem, recordItem, recordedItem_user]
  have hsplit : t.records = [.eventMsg (.turnStarted t.turnId t.started), .responseItem t.user] ++
      (t.body.map record ++ [t.complete]) := rfl
  rw [hsplit, replayItems_append, hstart, replayItems_append, replayItems_body t.body_wellFormed]
  simp [replayItems, replayItem, complete, items]

theorem dropLastNUserTurns_turns {base : List ResponseItemEnvelope} {turns : List (Turn r)}
    {n : Nat} (hbase : base = [] ∨ n ≤ turns.length)
    (hsettled : ∀ older t newer, turns = older ++ t :: newer → newer.length < n →
      t.counts ∧ Settled r (base ++ older.flatMap items) t.user.item) :
    dropLastNUserTurns r n (base ++ turns.flatMap items) =
      base ++ (turns.take (turns.length - n)).flatMap items := by
  by_cases hzero : n = 0
  · simp [hzero, dropLastNUserTurns]
  -- the turns that stay, and the oldest of those that go
  rcases hgo : turns.drop (turns.length - n) with _ | ⟨t, gone⟩
  · have hnil : turns = [] := by
      have hlen := congrArg List.length hgo
      rw [length_drop, length_nil] at hlen
      exact length_eq_zero_iff.mp (by omega)
    subst hnil
    rcases hbase with rfl | hle
    · simp [dropLastNUserTurns, LastMarked.cutAt]
    · exact absurd (Nat.le_zero.mp hle) hzero
  · have hsplit : turns = turns.take (turns.length - n) ++ t :: gone := by
      rw [← hgo, take_append_drop]
    have hgone : gone.length + 1 = turns.length - (turns.length - n) := by
      rw [← length_drop, hgo, length_cons]
    obtain ⟨ht, hstay⟩ := hsettled _ t gone hsplit (by omega)
    have hcounts : ∀ u ∈ gone, u.counts := by
      intro u hu
      obtain ⟨xs, ys, rfl⟩ := append_of_mem hu
      rw [length_append, length_cons] at hgone
      refine (hsettled (turns.take (turns.length - n) ++ t :: xs) u ys ?_ (by omega)).1
      rw [append_assoc, cons_append, ← hsplit]
    have hlist : base ++ turns.flatMap items =
        (base ++ (turns.take (turns.length - n)).flatMap items) ++
          t.user :: (bodyItems r t.body ++ gone.flatMap items) := by
      conv_lhs => rw [hsplit]
      simp [items]
    have hcount : boundaries r (bodyItems r t.body ++ gone.flatMap items) = gone.length := by
      rw [boundaries, countP_append]
      change boundaries r _ + boundaries r _ = _
      rw [boundaries_bodyItems t.body_wellFormed, boundaries_flatMap_items hcounts, Nat.zero_add]
    rw [hlist]
    refine dropLastNUserTurns_append ht ?_ hstay
    rw [hcount]
    by_cases hle : n ≤ turns.length
    · exact .inl (by omega)
    · rw [hbase.resolve_right hle, Nat.sub_eq_zero_of_le (by omega), take_zero]
      exact .inr ⟨rfl, by omega⟩

variable {log : Log r} {tail : List RolloutItem}

/-- The resume counts every turn that is rolled back, and nothing of the history before it, from
`base` on, goes with it. -/
def SettledFrom (base : List ResponseItemEnvelope) (log : Log r) : Prop :=
  ∀ before t after, log = before ++ .entry t :: after → (net after).undone ≠ 0 →
    t.counts ∧ Settled r (base ++ (net before).kept.flatMap items) t.user.item

theorem settledFrom_map_entry (base : List ResponseItemEnvelope) (turns : List (Turn r)) :
    SettledFrom base (turns.map .entry) := by
  intro before t after h hne
  obtain ⟨xs, ys, rfl, rfl, hys⟩ := map_eq_append_iff.mp h
  obtain ⟨u, zs, rfl, _, rfl⟩ := map_eq_cons_iff.mp hys
  exact absurd (by rw [net_map_entry]) hne

theorem replayItems_records {base : List ResponseItemEnvelope}
    (hbase : base = [] ∨ (net log).undone = 0)
    (hsettled : SettledFrom base log) :
    replayItems r base (records log) = base ++ (net log).kept.flatMap items := by
  induction log using List.reverseRecOn with
  | nil => simp [replayItems, net]
  | append_singleton log e ih =>
    have hlog := ih (hbase.imp_right undone_of_append) fun before t after hsplit hafter =>
      hsettled before t (after ++ [e]) (by simp [hsplit]) fun h => hafter (undone_of_append h)
    rw [records_append, replayItems_append, hlog]
    cases e with
    | entry t =>
      rw [net_concat_entry, records_entry, records_nil, append_nil, replayItems_turn]
      simp
    | undo n =>
      rw [net_concat_undo] at hbase ⊢
      rw [records_undo, records_nil]
      change dropLastNUserTurns r n (base ++ (net log).kept.flatMap items) = _
      dsimp only at hbase
      refine dropLastNUserTurns_turns (hbase.imp_right fun h => by omega)
        fun older t newer hkept hlt => ?_
      obtain ⟨before, after, rfl, hundone, hafter⟩ := exists_of_kept_eq hkept
      rw [kept_append_entry t hundone, hafter] at hkept
      rw [← append_cancel_right hkept]
      refine hsettled before t (after ++ [.undo n]) (by simp) ?_
      rw [net_concat_undo, hundone, hafter]
      simp only
      omega

def bodyCheckpoint (tail : List RolloutItem) : List TurnItem → Option ReplayCheckpoint
  | [] => none
  | .compacted c :: body =>
    (bodyCheckpoint tail body).or (some ⟨c, body.map TurnItem.record ++ tail⟩)
  | .response _ :: body => bodyCheckpoint tail body

def Turn.checkpoint (t : Turn r) (tail : List RolloutItem) : Option ReplayCheckpoint :=
  bodyCheckpoint (t.complete :: tail) t.body

theorem map_compacted_bodyCheckpoint (tail : List RolloutItem) (body : List TurnItem) :
    (bodyCheckpoint tail body).map (·.compacted) = bodyCompaction body := by
  induction body with
  | nil => rfl
  | cons item body ih =>
    cases item with
    | response e => exact ih
    | compacted c => rw [bodyCheckpoint, bodyCompaction, map_or, ih, map_some]

theorem Turn.map_compacted_checkpoint (tail : List RolloutItem) :
    (t.checkpoint tail).map (·.compacted) = t.compaction :=
  map_compacted_bodyCheckpoint _ _

theorem Turn.checkpoint_eq_none {t : Turn r} (h : t.compaction = none) (tail : List RolloutItem) :
    t.checkpoint tail = none := by
  rw [← t.map_compacted_checkpoint tail, map_eq_none_iff] at h
  exact h

theorem replayItems_bodyCheckpoint {body : List TurnItem} {checkpoint : ReplayCheckpoint}
    (hbody : ∀ item ∈ body, item.WellFormed r) (h : bodyCheckpoint tail body = some checkpoint) :
    ∃ base, bodyBase r body = some base ∧
      replayItems r (checkpoint.compacted.replacementHistory.getD []) checkpoint.suffix =
        replayItems r base tail := by
  induction body with
  | nil => exact absurd h (by simp [bodyCheckpoint])
  | cons item body ih =>
    have hrest := fun x hx => hbody x (mem_cons_of_mem _ hx)
    cases item with
    | response e => exact ih hrest h
    | compacted c =>
      rw [bodyCheckpoint] at h
      rw [bodyBase]
      cases hnewer : bodyCheckpoint tail body with
      | some newer =>
        rw [hnewer, some_or] at h
        obtain ⟨base, hbase, hreplay⟩ := ih hrest (hnewer.trans h)
        exact ⟨base, by rw [hbase, some_or], hreplay⟩
      | none =>
        have hnone : bodyBase r body = none := by
          have hmap := map_compacted_bodyCheckpoint tail body
          rw [hnewer, map_none] at hmap
          have hsome := isSome_bodyBase (r := r) body
          rw [← hmap] at hsome
          exact not_isSome_iff_eq_none.mp (by rw [hsome]; exact Bool.false_ne_true)
        rw [hnewer, none_or] at h
        obtain rfl := Option.some.inj h
        refine ⟨_, by rw [hnone, none_or], ?_⟩
        rw [replayItems_append, replayItems_body hrest]

theorem replayItems_checkpoint {t : Turn r} {checkpoint : ReplayCheckpoint}
    (h : t.checkpoint tail = some checkpoint) : ∃ base, t.base = some base ∧
      replayItems r (checkpoint.compacted.replacementHistory.getD []) checkpoint.suffix =
        replayItems r base tail := by
  obtain ⟨base, hbase, hreplay⟩ := replayItems_bodyCheckpoint t.body_wellFormed h
  exact ⟨base, hbase, hreplay⟩

theorem newestCompaction_body (body : List TurnItem) (tail : List RolloutItem) :
    newestCompaction (body.map record ++ tail) =
      (newestCompaction tail).or (bodyCheckpoint tail body) := by
  induction body with
  | nil => simp [bodyCheckpoint]
  | cons item body ih =>
    cases item with
    | response e => simpa only [map_cons, cons_append, record,
        newestCompaction, bodyCheckpoint] using ih
    | compacted c =>
      simp only [map_cons, cons_append, record, newestCompaction,
        bodyCheckpoint, ih, Option.or_assoc]

theorem newestCompaction_turn (tail : List RolloutItem) :
    newestCompaction (t.records ++ tail) = (newestCompaction tail).or (t.checkpoint tail) := by
  simp only [Turn.records, cons_append, append_assoc, newestCompaction, nil_append]
  rw [newestCompaction_body]
  rfl

theorem replayRecords_turn (tail : List RolloutItem) :
    ∃ body, replayRecords r (t.records ++ tail) =
        turnRecords t.counts t.turnId body ++ replayRecords r tail ∧
      (∀ record ∈ body, record.IsBody) ∧ lastCheckpoint body = t.checkpoint tail := by
  have hbody (items : List TurnItem) (hitems : ∀ item ∈ items, item.WellFormed r)
      (tail : List RolloutItem) : ∃ body,
        replayRecords r (items.map record ++ tail) = body ++ replayRecords r tail ∧
          (∀ record ∈ body, record.IsBody) ∧ lastCheckpoint body = bodyCheckpoint tail items := by
    induction items with
    | nil => exact ⟨[], rfl, by simp, rfl⟩
    | cons item items ih =>
      obtain ⟨body, hrecords, hisBody, hlast⟩ := ih fun x hx => hitems x (mem_cons_of_mem _ hx)
      have hitem := hitems item mem_cons_self
      cases item with
      | response e =>
        refine ⟨.item false :: body, ?_, ?_, hlast⟩
        · simp [replayRecords, record, replayRecord, hrecords, hitem.2.2]
        · simpa [ReplayRecord.IsBody] using hisBody
      | compacted c =>
        refine ⟨.compacted (some ⟨c, items.map record ++ tail⟩) :: body, ?_, ?_, ?_⟩
        · simp [replayRecords, record, replayRecord, hrecords, hitem.1]
        · simpa [ReplayRecord.IsBody] using hisBody
        · rw [lastCheckpoint, hlast, bodyCheckpoint]
  obtain ⟨body, hrecords, hisBody, hlast⟩ := hbody t.body t.body_wellFormed (t.complete :: tail)
  refine ⟨body, ?_, hisBody, hlast⟩
  have hcomplete : replayRecords r (t.complete :: tail) =
      .turnComplete t.turnId :: replayRecords r tail := rfl
  rw [hcomplete] at hrecords
  simp only [Turn.records, cons_append, append_assoc, nil_append, replayRecords,
    replayRecord, Turn.counts, hrecords, turnRecords, toList_some]

def standingCheckpoint : Log r → Option ReplayCheckpoint
  | [] => none
  | .entry t :: log =>
    (standingCheckpoint log).or
      (if (net log).undone = 0 then t.checkpoint (records log) else none)
  | .undo _ :: log => standingCheckpoint log

theorem reverseScan_records (h : ∀ before t after, log = before ++ .entry t :: after →
      (net after).undone ≠ 0 → t.counts) :
    ∃ start, reverseScan none (replayRecords r (records log)) =
      ⟨standingCheckpoint log, start, (net log).undone, none⟩ := by
  induction log with
  | nil => exact ⟨none, rfl⟩
  | cons e log ih =>
    obtain ⟨start, ih⟩ := ih fun before t after hsplit hne =>
      h (e :: before) t after (by rw [hsplit, cons_append]) hne
    rw [reverseScan] at ih ⊢
    cases e with
    | undo n =>
      refine ⟨start, ?_⟩
      have hrecords : replayRecords r (records (.undo n :: log)) =
          .rollback n :: replayRecords r (records log) := rfl
      rw [hrecords, foldr_cons, ih, net_undo, standingCheckpoint, Nat.add_comm]
      rfl
    | entry t =>
      obtain ⟨body, hrecords, hbody, hlast⟩ := replayRecords_turn t (records log)
      refine ⟨(t.checkpoint (records log)).or start, ?_⟩
      rw [records_entry, hrecords, foldr_append, ih, foldr_turnRecords_closed _ hbody, hlast,
        net_entry, standingCheckpoint]
      by_cases hundone : (net log).undone = 0
      · simp [hundone]
      · simp [hundone, h [] t log rfl hundone]

theorem standingCheckpoint_eq_none_iff :
    standingCheckpoint log = none ↔ ∀ t ∈ (net log).kept, t.compaction = none := by
  induction log with
  | nil => simp [standingCheckpoint, net]
  | cons e log ih =>
    cases e with
    | undo n => rw [standingCheckpoint, net_undo, ih]
    | entry t =>
      rw [standingCheckpoint, or_eq_none_iff, ih, net_entry]
      split
      · dsimp only
        rw [forall_mem_cons, ← t.map_compacted_checkpoint (records log), map_eq_none_iff, and_comm]
      · simp

theorem exists_of_standingCheckpoint {checkpoint : ReplayCheckpoint}
    (h : standingCheckpoint log = some checkpoint) :
    ∃ before t after, log = before ++ .entry t :: after ∧ (net after).undone = 0 ∧
      (∀ u ∈ (net after).kept, u.compaction = none) ∧
        t.checkpoint (records after) = some checkpoint := by
  induction log with
  | nil => exact absurd h (by simp [standingCheckpoint])
  | cons e log ih =>
    have hlater (h : standingCheckpoint log = some checkpoint) : ∃ before t after,
        e :: log = before ++ .entry t :: after ∧ (net after).undone = 0 ∧
          (∀ u ∈ (net after).kept, u.compaction = none) ∧
            t.checkpoint (records after) = some checkpoint := by
      obtain ⟨before, t, after, rfl, hafter⟩ := ih h
      exact ⟨e :: before, t, after, rfl, hafter⟩
    cases e with
    | undo n => exact hlater h
    | entry t =>
      rw [standingCheckpoint, or_eq_some_iff] at h
      rcases h with h | ⟨hnone, h⟩
      · exact hlater h
      · split at h
        · next hundone =>
          exact ⟨[], t, log, rfl, hundone, standingCheckpoint_eq_none_iff.mp hnone, h⟩
        · exact absurd h (by simp)

theorem exists_of_newestCompaction :
    (newestCompaction (records log) = none → ∀ t ∈ entries log, t.compaction = none) ∧
      ∀ checkpoint, newestCompaction (records log) = some checkpoint →
        ∃ before t after, log = before ++ .entry t :: after ∧
          (∀ u ∈ entries after, u.compaction = none) ∧
            t.checkpoint (records after) = some checkpoint := by
  induction log with
  | nil => simp [newestCompaction]
  | cons e log ih =>
    obtain ⟨ihnone, ihsome⟩ := ih
    have hlater (checkpoint) (h : newestCompaction (records log) = some checkpoint) :
        ∃ before t after, e :: log = before ++ .entry t :: after ∧
          (∀ u ∈ entries after, u.compaction = none) ∧
            t.checkpoint (records after) = some checkpoint := by
      obtain ⟨before, t, after, rfl, hafter⟩ := ihsome checkpoint h
      exact ⟨e :: before, t, after, rfl, hafter⟩
    cases e with
    | undo n => exact ⟨ihnone, hlater⟩
    | entry t =>
      rw [records_entry, newestCompaction_turn]
      constructor
      · intro h
        rw [or_eq_none_iff] at h
        rw [entries_entry, forall_mem_cons, ← t.map_compacted_checkpoint (records log), h.2]
        exact ⟨rfl, ihnone h.1⟩
      · intro checkpoint h
        rcases or_eq_some_iff.mp h with h | ⟨hnone, h⟩
        · exact hlater checkpoint h
        · exact ⟨[], t, log, rfl, ihnone hnone, h⟩

def BoundStands (historyMode : ThreadHistoryMode) (log : Log r) : Prop :=
  ∀ before t after, log = before ++ .entry t :: after →
    (∀ u ∈ entries after, u.compaction = none) →
      ∀ c ∈ t.compaction, boundsReplay historyMode c = true → (net after).undone = 0

/-- The rollbacks after the newest compaction that stands are settled, or all if none stands. -/
def RollbacksSettled (log : Log r) : Prop :=
  ((∀ t ∈ (net log).kept, t.compaction = none) → SettledFrom [] log) ∧
    ∀ before t after, log = before ++ .entry t :: after → (net after).undone = 0 →
      (∀ u ∈ (net after).kept, u.compaction = none) → ∀ base ∈ t.base, SettledFrom base after

theorem replayItems_standing {before after : Log r} {t : Turn r} {checkpoint : ReplayCheckpoint}
    (hundone : (net after).undone = 0) (hafter : ∀ u ∈ (net after).kept, u.compaction = none)
    (hcheckpoint : t.checkpoint (records after) = some checkpoint)
    (hsettled : RollbacksSettled (before ++ .entry t :: after)) :
    replayItems r (checkpoint.compacted.replacementHistory.getD []) checkpoint.suffix =
      conversationHistory (net (before ++ .entry t :: after)).kept := by
  obtain ⟨base, hbase, hreplay⟩ := replayItems_checkpoint hcheckpoint
  rw [hreplay, kept_append_entry t hundone, conversationHistory_append hbase hafter]
  exact replayItems_records (.inr hundone) (hsettled.2 before t after rfl hundone hafter base hbase)

theorem selected_reverseScan_append {older newer : List RolloutItem} {checkpoint : ReplayCheckpoint}
    (h : (reverseScan none (replayRecords r newer)).selected = some checkpoint) :
    (reverseScan none (replayRecords r (older ++ newer))).selected = some checkpoint := by
  induction older with
  | nil => exact h
  | cons item older ih =>
    rw [cons_append, replayRecords, reverseScan, foldr_append]
    exact selected_foldr _ ih

/-- The reverse pass does not look behind the newest compaction that stands. -/
theorem selected_reverseReplay_records (h : RollbacksSettled log) :
    (reverseReplay none (replayRecords r (records log))).selected = standingCheckpoint log := by
  cases hstanding : standingCheckpoint log with
  | none =>
    have hfrom := h.1 (standingCheckpoint_eq_none_iff.mp hstanding)
    obtain ⟨start, hscan⟩ := reverseScan_records fun before t after hsplit hne =>
      (hfrom before t after hsplit hne).1
    rw [reverseReplay, hscan]
    exact hstanding
  | some checkpoint =>
    obtain ⟨before, t, after, rfl, hundone, hafter, hcheckpoint⟩ :=
      exists_of_standingCheckpoint hstanding
    obtain ⟨base, hbase, _⟩ := replayItems_checkpoint hcheckpoint
    have hfrom := h.2 before t after rfl hundone hafter base hbase
    obtain ⟨start, hscan⟩ := reverseScan_records fun before t after hsplit hne =>
      (hfrom before t after hsplit hne).1
    obtain ⟨body, hrecords, hbody, hlast⟩ := replayRecords_turn t (records after)
    rw [records_append, records_entry]
    refine selected_of_reverseScan (selected_reverseScan_append ?_)
    rw [hrecords, reverseScan, foldr_append, ← reverseScan, hscan,
      standingCheckpoint_eq_none_iff.mpr hafter, foldr_turnRecords_closed _ hbody, hundone,
      if_pos rfl, none_or, hlast, hcheckpoint]

theorem reconstructHistory_records {historyMode : ThreadHistoryMode}
    (hbound : BoundStands historyMode log) (hsettled : RollbacksSettled log) :
    reconstructHistory r historyMode (records log) = conversationHistory (net log).kept := by
  rw [reconstructHistory]
  rcases historyCheckpoint_cases r historyMode (records log) with
    ⟨checkpoint, hnewest, hbounds, heq⟩ | ⟨_, heq⟩
  · -- the newest compaction bounds the replay, so no later turn has one
    obtain ⟨before, t, after, rfl, hafter, hcheckpoint⟩ :=
      exists_of_newestCompaction.2 checkpoint hnewest
    have hcompaction : t.compaction = some checkpoint.compacted := by
      rw [← t.map_compacted_checkpoint (records after), hcheckpoint, map_some]
    have hundone := hbound before t after rfl hafter _ hcompaction hbounds
    rw [heq]
    exact replayItems_standing hundone
      (fun u hu => hafter u ((kept_sublist_entries after).subset hu)) hcheckpoint hsettled
  · rw [heq, selected_reverseReplay_records hsettled]
    cases hstanding : standingCheckpoint log with
    | some checkpoint =>
      obtain ⟨before, t, after, rfl, hundone, hafter, hcheckpoint⟩ :=
        exists_of_standingCheckpoint hstanding
      exact replayItems_standing hundone hafter hcheckpoint hsettled
    | none =>
      have hnone := standingCheckpoint_eq_none_iff.mp hstanding
      rw [conversationHistory, foldl_historyAfter hnone]
      exact replayItems_records (.inl rfl) (hsettled.1 hnone)

theorem reconstructHistory_turns (historyMode : ThreadHistoryMode) (turns : List (Turn r)) :
    reconstructHistory r historyMode (records (turns.map .entry)) = conversationHistory turns := by
  have hafter (before after : Log r) (t : Turn r)
      (h : turns.map .entry = before ++ .entry t :: after) :
      ∃ newer : List (Turn r), after = newer.map .entry := by
    obtain ⟨_, _, _, _, hys⟩ := map_eq_append_iff.mp h
    obtain ⟨_, newer, _, _, rfl⟩ := map_eq_cons_iff.mp hys
    exact ⟨newer, rfl⟩
  rw [reconstructHistory_records, net_map_entry]
  · intro before t after h _ _ _ _
    obtain ⟨newer, rfl⟩ := hafter before after t h
    rw [net_map_entry]
  · refine ⟨fun _ => settledFrom_map_entry _ _, fun before t after h _ _ base _ => ?_⟩
    obtain ⟨newer, rfl⟩ := hafter before after t h
    exact settledFrom_map_entry _ _

theorem newestCompaction_turns {checkpoint : ReplayCheckpoint}
    (h : newestCompaction tail = some checkpoint) :
    newestCompaction (records (turns.map .entry) ++ tail) = some checkpoint := by
  induction turns with
  | nil => exact h
  | cons t turns ih =>
    rw [map_cons, records_entry, append_assoc, newestCompaction_turn, ih, some_or]

/-- The reverse pass has a checkpoint, in a segment that is still open or for good. -/
structure Holds (checkpoint : ReplayCheckpoint) (s : ReverseState ReplayCheckpoint) : Prop where
  checkpoint : s.selected.or s.segment.checkpoint = some checkpoint
  pending : s.pendingRollbackTurns = 0
  turnId : s.segment.turnId = none
  counts : s.segment.countsAsUserTurn = false

theorem selected_finalizeActive {checkpoint : ReplayCheckpoint}
    {s : ReverseState ReplayCheckpoint} (h : Holds checkpoint s) :
    (finalizeActive s).selected = some checkpoint := by
  obtain ⟨hcheckpoint, hpending, _, _⟩ := h
  rw [finalizeActive]
  cases hactive : s.active with
  | none => simpa [ReverseState.segment, hactive, ReverseSegment.default] using hcheckpoint
  | some segment =>
    simp only [finalizeSegment, hpending, gt_iff_lt, lt_irrefl, if_false]
    simpa [ReverseState.segment, hactive] using hcheckpoint

theorem holds_turns {checkpoint : ReplayCheckpoint}
    (h : Holds checkpoint (reverseScan none (replayRecords r tail))) :
    Holds checkpoint (reverseScan none (replayRecords r (records (turns.map .entry) ++ tail))) := by
  induction turns with
  | nil => exact h
  | cons t turns ih =>
    obtain ⟨body, hrecords, hbody, _⟩ := replayRecords_turn t (records (turns.map .entry) ++ tail)
    rw [map_cons, records_entry, append_assoc, reverseScan, hrecords, foldr_append,
      ← reverseScan, foldr_turnRecords hbody ih.turnId ih.counts]
    refine ⟨?_, by rw [ih.pending, Nat.zero_sub], rfl, rfl⟩
    rw [ih.pending, if_pos rfl, ← Option.or_assoc, ih.checkpoint, Option.some_or, Option.some_or]

theorem reconstructHistory_planted (historyMode : ThreadHistoryMode) {c : CompactedItem}
    (hc : c.replacementHistory = some []) (older : List (Turn r)) {newer : List (Turn r)}
    (hnewer : ∀ t ∈ newer, t.compaction = none) :
    reconstructHistory r historyMode
        (records (older.map .entry) ++ .compacted c :: records (newer.map .entry)) =
      conversationHistory newer := by
  have hnone : newestCompaction (records (newer.map .entry)) = none := by
    cases h : newestCompaction (records (newer.map .entry)) with
    | none => rfl
    | some checkpoint =>
      obtain ⟨before, t, after, hsplit, _, hcheckpoint⟩ := exists_of_newestCompaction.2 _ h
      have ht : t ∈ newer := by
        have hmem : Event.entry t ∈ newer.map .entry := by
          rw [hsplit]
          simp
        simpa using hmem
      rw [checkpoint_eq_none (hnewer t ht)] at hcheckpoint
      exact absurd hcheckpoint (by simp)
  have hchosen : historyCheckpoint r historyMode
      (records (older.map .entry) ++ .compacted c :: records (newer.map .entry)) =
        some ⟨c, records (newer.map .entry)⟩ := by
    have hnewest : newestCompaction
        (records (older.map .entry) ++ .compacted c :: records (newer.map .entry)) =
          some ⟨c, records (newer.map .entry)⟩ :=
      newestCompaction_turns older (by rw [newestCompaction, hnone, none_or])
    rcases historyCheckpoint_cases r historyMode
        (records (older.map .entry) ++ .compacted c :: records (newer.map .entry)) with
      ⟨checkpoint, h, _, heq⟩ | ⟨_, heq⟩
    · rw [heq, ← h, hnewest]
    · rw [heq, reverseReplay]
      refine selected_finalizeActive (holds_turns older ?_)
      obtain ⟨start, hscan⟩ := reverseScan_records fun before t after hsplit hne =>
        (settledFrom_map_entry [] newer before t after hsplit hne).1
      have hstanding : standingCheckpoint (newer.map .entry : Log r) = none := by
        rw [standingCheckpoint_eq_none_iff, net_map_entry]
        exact hnewer
      rw [reverseScan, replayRecords, replayRecord, hc, isSome_some, if_pos rfl,
        toList_some, singleton_append, foldr_cons, ← reverseScan, hscan,
        hstanding, net_map_entry]
      exact ⟨rfl, rfl, rfl, rfl⟩
  rw [reconstructHistory, hchosen]
  change replayItems r (c.replacementHistory.getD []) (records (newer.map .entry)) = _
  rw [hc, getD_some, replayItems_records (.inl rfl) (settledFrom_map_entry _ _), net_map_entry,
    conversationHistory, foldl_historyAfter hnewer]

end Codex.Rollout

import Codex.Lib.Fallible
import Codex.Rollout.RollbackPlan
import Codex.Rollout.Turns

/-! On complete turns and rollback markers the boundaries that the planner has alive are the turns
that stand, and its frames are the compactions as they were read. -/

namespace Codex.Rollout
open Codex.Lib Codex.Lib.UndoLog List Option RollbackPlanner TurnItem

variable {r : Rules}

theorem getElem?_setAll {α : Type} (indices : List Nat) (x : α) (l : List α) (i : Nat) :
    (setAll indices x l)[i]? = if i ∈ indices then l[i]?.map fun _ => x else l[i]? := by
  induction indices generalizing l with
  | nil => simp [setAll]
  | cons j indices ih =>
    have hstep : setAll (j :: indices) x l = setAll indices x (l.set j x) := rfl
    rw [hstep, ih, getElem?_set]
    by_cases hj : j = i
    · subst hj
      by_cases hlt : j < l.length
      · simp [hlt]
      · simp [hlt]
    · have hne : i ≠ j := fun h => hj h.symm
      simp [hj, hne]

theorem length_setAll {α : Type} (indices : List Nat) (x : α) (l : List α) :
    (setAll indices x l).length = l.length := by
  induction indices generalizing l with
  | nil => rfl
  | cons j indices ih => exact (ih (l.set j x)).trans length_set

structure RollbackPlanner.Resting (s : RollbackPlanner) : Prop where
  activeTurnId : s.activeTurnId = none
  pendingTurnRecords : s.pendingTurnRecords = []
  pendingContextRecords : s.pendingContextRecords = []

def RollbackPlanner.beginTurn (s : RollbackPlanner) (t : Turn r) : RollbackPlanner :=
  let boundary := s.boundaryAlive.length
  { s with
    recordBoundaries := s.recordBoundaries ++ [some boundary, some boundary]
    boundaryAlive := s.boundaryAlive ++ [true]
    boundaryStack := s.boundaryStack ++ [boundary]
    activeTurnId := some t.turnId
    pendingTurnRecords := []
    pendingContextRecords := []
    pendingUserResponse := some ⟨boundary, t.content⟩
    pendingDeliveryBoundary := none
    turnBoundaries := Function.update s.turnBoundaries t.turnId (some boundary)
    modelReplay := s.modelReplay ++ [.turnStarted t.turnId, .item true] }

theorem observe_begin {s : RollbackPlanner} (hs : s.Resting) (t : Turn r) :
    [.eventMsg (.turnStarted t.turnId t.started), .responseItem t.user].foldlM
      (observe r) s = .ok (s.beginTurn t) := by
  have hboundary := countsAsBoundary_user t
  have hcontext := hs.pendingContextRecords
  simp only [foldlM_cons, foldlM_nil, observe, ok_bind,
    enter, migrationReplayRecord, observeResponse, hboundary,
    if_true]
  simp [Turn.user, startBoundary, beginTurn, setAll, hcontext]
  rfl

structure RollbackPlanner.InTurn (s : RollbackPlanner) (turnId : Text) (b : Nat) : Prop where
  activeTurnId : s.activeTurnId = some turnId
  turnBoundaries : s.turnBoundaries turnId = some b
  boundaryStack : s.boundaryStack.getLast? = some b

def bodyFrames (depth b : Nat) : Nat → List TurnItem → List CompactionFrame
  | _, [] => []
  | k, .response _ :: body => bodyFrames depth b (k + 1) body
  | k, .compacted c :: body => ⟨k, depth, some b, c⟩ :: bodyFrames depth b (k + 1) body

def bodyReplay : Nat → List TurnItem → List (ReplayRecord Nat)
  | _, [] => []
  | k, .response _ :: body => bodyReplay (k + 1) body
  | k, .compacted _ :: body => .compacted (some k) :: bodyReplay (k + 1) body

def RollbackPlanner.afterResponse (s : RollbackPlanner) (b : Nat) : RollbackPlanner :=
  { s with
    recordBoundaries := s.recordBoundaries ++ [some b]
    pendingUserResponse := none
    pendingDeliveryBoundary := none }

def RollbackPlanner.afterCompacted (s : RollbackPlanner) (b : Nat) (c : CompactedItem) :
    RollbackPlanner :=
  { s.afterResponse b with
    compactions := s.compactions ++
      [⟨s.recordBoundaries.length, s.boundaryStack.length, some b, c⟩]
    modelReplay := s.modelReplay ++ [.compacted (some s.recordBoundaries.length)] }

theorem observe_response {s : RollbackPlanner} {turnId : Text} {b : Nat} (hs : s.InTurn turnId b)
    {e : ResponseItemEnvelope} (he : (response e).WellFormed r) :
    s.observe r (.responseItem e) = .ok (s.afterResponse b) := by
  obtain ⟨hboundary, hcontext, _⟩ := he
  have hresponse (s : RollbackPlanner) (index : Nat) (paired : Option Nat) :
      s.observeResponse r index paired e.item = s := by
    unfold observeResponse
    split
    · -- an agent message is a boundary
      next heq =>
      rw [heq] at hboundary
      exact absurd hboundary (by simp [countsAsBoundary])
    · rw [hboundary, hcontext]
      rfl
  simp [observe, hresponse, enter, migrationReplayRecord,
    hboundary, hs.boundaryStack, afterResponse]

theorem observe_compacted {s : RollbackPlanner} {turnId : Text} {b : Nat} (hs : s.InTurn turnId b)
    {c : CompactedItem} (hc : (compacted c).WellFormed r) :
    s.observe r (.compacted c) = .ok (s.afterCompacted b c) := by
  simp [observe, enter, migrationReplayRecord, hc.1,
    hs.activeTurnId, hs.turnBoundaries, afterCompacted,
    afterResponse]

theorem observe_body {body : List TurnItem} (hbody : ∀ item ∈ body, item.WellFormed r)
    {s : RollbackPlanner} {turnId : Text} {b : Nat} (hs : s.InTurn turnId b) :
    ∃ pending delivery, (body.map record).foldlM (observe r) s =
      .ok { s with
        recordBoundaries := s.recordBoundaries ++ List.replicate body.length (some b)
        pendingUserResponse := pending
        pendingDeliveryBoundary := delivery
        compactions := s.compactions ++
          bodyFrames s.boundaryStack.length b s.recordBoundaries.length body
        modelReplay := s.modelReplay ++ bodyReplay s.recordBoundaries.length body } := by
  induction body generalizing s with
  | nil =>
    refine ⟨s.pendingUserResponse, s.pendingDeliveryBoundary, ?_⟩
    simp [bodyFrames, bodyReplay]
    rfl
  | cons item body ih =>
    have hrest := fun x hx => hbody x (mem_cons_of_mem _ hx)
    have hitem := hbody item mem_cons_self
    rw [map_cons, foldlM_cons]
    cases item with
    | response e =>
      have hnext : (s.afterResponse b).InTurn turnId b := ⟨hs.1, hs.2, hs.3⟩
      obtain ⟨pending, delivery, h⟩ := ih hrest hnext
      refine ⟨pending, delivery, ?_⟩
      rw [record, observe_response hs hitem, ok_bind, h]
      simp [afterResponse, bodyFrames, bodyReplay, replicate_succ]
    | compacted c =>
      have hnext : (s.afterCompacted b c).InTurn turnId b := ⟨hs.1, hs.2, hs.3⟩
      obtain ⟨pending, delivery, h⟩ := ih hrest hnext
      refine ⟨pending, delivery, ?_⟩
      rw [record, observe_compacted hs hitem, ok_bind, h]
      simp [afterCompacted, afterResponse, bodyFrames, bodyReplay, replicate_succ]

def RollbackPlanner.afterTurn (s : RollbackPlanner) (t : Turn r) : RollbackPlanner :=
  let boundary := s.boundaryAlive.length
  let k := s.recordBoundaries.length + 2
  { s with
    recordBoundaries := s.recordBoundaries ++ List.replicate t.records.length (some boundary)
    boundaryAlive := s.boundaryAlive ++ [true]
    boundaryStack := s.boundaryStack ++ [boundary]
    activeTurnId := none
    pendingTurnRecords := []
    pendingContextRecords := []
    pendingUserResponse := none
    pendingDeliveryBoundary := none
    turnBoundaries := Function.update s.turnBoundaries t.turnId (some boundary)
    compactions := s.compactions ++
      bodyFrames (s.boundaryStack.length + 1) boundary k t.body
    modelReplay := s.modelReplay ++ turnRecords true t.turnId (bodyReplay k t.body) }

theorem observe_turn {s : RollbackPlanner} (hs : s.Resting) (t : Turn r) :
    t.records.foldlM (observe r) s = .ok (s.afterTurn t) := by
  have hsplit : t.records = [.eventMsg (.turnStarted t.turnId t.started), .responseItem t.user] ++
      (t.body.map record ++ [t.complete]) := rfl
  have hreplicate (x : Option Nat) : List.replicate t.records.length x =
      x :: x :: (List.replicate t.body.length x ++ [x]) := by
    rw [show t.records.length = t.body.length + 1 + 1 + 1 by simp [Turn.records],
      replicate_succ, replicate_succ, replicate_succ']
  have hin : (s.beginTurn t).InTurn t.turnId s.boundaryAlive.length := by
    refine ⟨rfl, ?_, ?_⟩
    · simp [beginTurn]
    · simp [beginTurn]
  obtain ⟨pending, delivery, hbody⟩ := observe_body t.body_wellFormed hin
  rw [hsplit, foldlM_append_of_ok (observe_begin hs t), foldlM_append_of_ok hbody, foldlM_cons]
  simp [Turn.complete, observe, enter, migrationReplayRecord,
    assignTargetedRecord, endTurn, beginTurn,
    afterTurn, turnRecords, hreplicate]

theorem rollBackNewest_eq {count depthBefore : Nat} {boundaryAlive : List Bool}
    {frames : List CompactionFrame} (h : ∀ frame ∈ frames, frame.stands boundaryAlive →
      count + frame.boundaryDepth ≤ depthBefore) :
    rollBackNewest r count depthBefore boundaryAlive frames = .ok frames := by
  induction frames with
  | nil => rfl
  | cons frame frames ih =>
    rw [rollBackNewest, ih fun f hf => h f (mem_cons_of_mem _ hf)]
    split
    · rfl
    · split
      · next hstands =>
        have hdepth := h frame mem_cons_self hstands
        have hremaining : ¬ count - (depthBefore - frame.boundaryDepth) > 0 := by omega
        rw [CompactionFrame.rollBack, if_neg hremaining]
        rfl
      · rfl

def RollbackPlanner.afterRollback (s : RollbackPlanner) (n : Nat) : RollbackPlanner :=
  let depth := s.boundaryStack.length
  { s with
    recordBoundaries := s.recordBoundaries ++ [s.boundaryStack.getLast?]
    boundaryAlive := setAll (s.boundaryStack.drop (depth - n)) false s.boundaryAlive
    boundaryStack := s.boundaryStack.take (depth - n)
    activeTurnId := none
    pendingTurnRecords := []
    pendingContextRecords := []
    pendingUserResponse := none
    pendingDeliveryBoundary := none
    modelReplay := s.modelReplay ++ [.rollback n] }

theorem observe_rollback {s : RollbackPlanner} (hs : s.Resting) {n : Nat}
    (h : ∀ frame ∈ s.compactions, frame.stands (s.afterRollback n).boundaryAlive →
      n + frame.boundaryDepth ≤ s.boundaryStack.length) :
    s.observe r (.eventMsg (.threadRolledBack n)) = .ok (s.afterRollback n) := by
  obtain ⟨hactive, hturn, hcontext⟩ := hs
  have hframes : rollBackNewest r n s.boundaryStack.length (s.afterRollback n).boundaryAlive
      s.compactions = .ok s.compactions := rollBackNewest_eq h
  rw [afterRollback] at hframes
  by_cases hn : n = 0
  · simp [observe, enter, migrationReplayRecord,
      applyRollback, afterRollback, hn, setAll, hactive, hturn,
      hcontext]
  · simp only [observe, enter, migrationReplayRecord,
      applyRollback, if_neg hn, hframes, ok_bind, toList_some]
    rfl

def logReplay : Nat → Log r → List (ReplayRecord Nat)
  | _, [] => []
  | k, .entry t :: log =>
    turnRecords true t.turnId (bodyReplay (k + 2) t.body) ++ logReplay (k + t.records.length) log
  | k, .undo n :: log => .rollback n :: logReplay (k + 1) log

theorem logReplay_append (k : Nat) (xs ys : Log r) :
    logReplay k (xs ++ ys) = logReplay k xs ++ logReplay (k + (records xs).length) ys := by
  induction xs generalizing k with
  | nil => rfl
  | cons e xs ih =>
    cases e with
    | entry t =>
      rw [cons_append, logReplay, logReplay, ih, records_entry, length_append,
        append_assoc, Nat.add_assoc]
    | undo n =>
      rw [cons_append, logReplay, logReplay, ih, records_undo, length_cons,
        cons_append, Nat.add_assoc, Nat.add_comm 1]

theorem mem_bodyFrames {depth b k : Nat} {body : List TurnItem} {frame : CompactionFrame} :
    frame ∈ bodyFrames depth b k body ↔
      ∃ i c, body[i]? = some (.compacted c) ∧ frame = ⟨k + i, depth, some b, c⟩ := by
  induction body generalizing k with
  | nil => simp [bodyFrames]
  | cons item body ih =>
    have hshift : (∃ i c, body[i]? = some (.compacted c) ∧ frame = ⟨k + 1 + i, depth, some b, c⟩) ↔
        ∃ i c, (item :: body)[i + 1]? = some (.compacted c) ∧
          frame = ⟨k + (i + 1), depth, some b, c⟩ := by
      simp only [getElem?_cons_succ, Nat.add_assoc, Nat.add_comm 1]
    have hcases (p : Nat → Prop) : (∃ i, p i) ↔ p 0 ∨ ∃ i, p (i + 1) :=
      ⟨fun ⟨i, hi⟩ => by cases i with
        | zero => exact .inl hi
        | succ i => exact .inr ⟨i, hi⟩, fun h => h.elim (fun h => ⟨0, h⟩) fun ⟨i, h⟩ => ⟨_, h⟩⟩
    cases item with
    | response e =>
      rw [bodyFrames, ih, hshift, hcases fun i => ∃ c, (response e :: body)[i]? =
        some (.compacted c) ∧ frame = ⟨k + i, depth, some b, c⟩]
      simp
    | compacted c =>
      rw [bodyFrames, mem_cons, ih, hshift, hcases fun i => ∃ c',
        (compacted c :: body)[i]? = some (.compacted c') ∧ frame = ⟨k + i, depth, some b, c'⟩]
      simp

theorem getElem?_records_compacted {t : Turn r} {i : Nat} {c : CompactedItem} :
    t.records[i]? = some (.compacted c) ↔ ∃ j, i = j + 2 ∧ t.body[j]? = some (.compacted c) := by
  have hrecord (item : TurnItem) : item.record = .compacted c ↔ item = .compacted c := by
    cases item <;> simp [record]
  rcases i with _ | _ | i
  · simp [Turn.records]
  · simp [Turn.records]
  · simp only [Turn.records, getElem?_cons_succ, Nat.add_right_cancel_iff, exists_eq_left']
    by_cases hi : i < t.body.length
    · rw [getElem?_append_left (by rw [length_map]; exact hi), getElem?_map, map_eq_some_iff]
      simp only [hrecord, exists_eq_right]
    · have hnone : t.body[i]? = none := getElem?_eq_none (by omega)
      rw [hnone, getElem?_append_right (by rw [length_map]; omega)]
      simp [getElem?_singleton, Turn.complete]

structure Planned (log : Log r) (s : RollbackPlanner) : Prop where
  resting : s.Resting
  stack : s.boundaryStack = (net (number 0 log)).kept
  aliveLength : s.boundaryAlive.length = (entries log).length
  alive : ∀ b < (entries log).length, s.boundaryAlive[b]? = some (decide (b ∈ s.boundaryStack))
  length : s.recordBoundaries.length = (records log).length
  turn : ∀ before t after, log = before ++ .entry t :: after → ∀ i < t.records.length,
    s.recordBoundaries[(records before).length + i]? = some (some (entries before).length)
  frame : ∀ frame ∈ s.compactions,
    (records log)[frame.recordIndex]? = some (.compacted frame.item) ∧
    s.recordBoundaries[frame.recordIndex]? = some frame.owner
  depth : ∀ frame ∈ s.compactions, ∃ b, frame.owner = some b ∧ b < (entries log).length ∧
    ∀ m, b ∈ s.boundaryStack.take m → frame.boundaryDepth ≤ m
  framed : ∀ i c, (records log)[i]? = some (.compacted c) → ∃ frame ∈ s.compactions,
    frame.recordIndex = i
  replay : s.modelReplay = logReplay 0 log

theorem planned_new : Planned ([] : Log r) .new where
  resting := ⟨rfl, rfl, rfl⟩
  stack := rfl
  aliveLength := rfl
  alive := by simp
  length := rfl
  turn := by simp
  frame := by simp [new]
  depth := by simp [new]
  framed := by simp
  replay := rfl

theorem concat_eq_append_entry {log before after : Log r} {e : Event (Turn r)} {t : Turn r}
    (h : log ++ [e] = before ++ .entry t :: after) :
    (after = [] ∧ log = before ∧ e = .entry t) ∨
      ∃ rest, after = rest ++ [e] ∧ log = before ++ .entry t :: rest := by
  rcases eq_nil_or_concat after with rfl | ⟨rest, e', rfl⟩
  · obtain ⟨rfl, he⟩ := append_inj' h rfl
    exact .inl ⟨rfl, rfl, singleton_inj.mp he⟩
  · rw [concat_eq_append] at h ⊢
    rw [← cons_append, ← append_assoc] at h
    obtain ⟨rfl, he⟩ := append_inj' h rfl
    exact .inr ⟨rest, by rw [singleton_inj.mp he], rfl⟩

section step
variable {log : Log r} {s : RollbackPlanner}

theorem Planned.boundary_lt (h : Planned log s) {b : Nat} (hb : b ∈ s.boundaryStack) :
    b < (entries log).length := by
  rw [h.stack] at hb
  have hlt := (mem_entries_number.mp ((kept_sublist_entries _).subset hb)).2
  omega

theorem Planned.turn_append (h : Planned log s) {before rest : Log r} {u : Turn r}
    (hlog : log = before ++ .entry u :: rest) {i : Nat} (hi : i < u.records.length)
    (more : List (Option Nat)) :
    (s.recordBoundaries ++ more)[(records before).length + i]? =
      some (some (entries before).length) := by
  have hold := h.turn before u rest hlog i hi
  rw [← hold]
  exact List.getElem?_append_left (List.getElem?_eq_some_iff.mp hold).1

theorem Planned.frame_append (h : Planned log s) {f : CompactionFrame} (hf : f ∈ s.compactions)
    (items : List RolloutItem) (more : List (Option Nat)) :
    (records log ++ items)[f.recordIndex]? = some (.compacted f.item) ∧
      (s.recordBoundaries ++ more)[f.recordIndex]? = some f.owner := by
  obtain ⟨hitem, howner⟩ := h.frame f hf
  have hlt := (List.getElem?_eq_some_iff.mp howner).1
  refine ⟨?_, ?_⟩
  · rw [List.getElem?_append_left (by rw [← h.length]; exact hlt), hitem]
  · rw [List.getElem?_append_left hlt, howner]

theorem records_concat_entry (log : Log r) (t : Turn r) :
    records (log ++ [.entry t]) = records log ++ t.records := by simp

theorem length_entries_concat_entry (log : Log r) (t : Turn r) :
    (entries (log ++ [.entry t])).length = (entries log).length + 1 := by simp

theorem alive_afterTurn (h : Planned log s) (t : Turn r) {b : Nat}
    (hb : b < (entries log).length + 1) :
    (s.afterTurn t).boundaryAlive[b]? = some (decide (b ∈ (s.afterTurn t).boundaryStack)) := by
  change (s.boundaryAlive ++ [true])[b]? =
    some (decide (b ∈ s.boundaryStack ++ [s.boundaryAlive.length]))
  by_cases hnew : b = s.boundaryAlive.length
  · simp [hnew]
  · have hold : b < (entries log).length := by
      rw [h.aliveLength] at hnew
      omega
    rw [getElem?_append_left (by rw [h.aliveLength]; exact hold), h.alive b hold]
    simp [hnew]

theorem frame_afterTurn (h : Planned log s) (t : Turn r) {f : CompactionFrame}
    (hf : f ∈ (s.afterTurn t).compactions) :
    (records log ++ t.records)[f.recordIndex]? = some (.compacted f.item) ∧
      (s.afterTurn t).recordBoundaries[f.recordIndex]? = some f.owner := by
  rcases mem_append.mp hf with hf | hf
  · exact h.frame_append hf _ _
  · obtain ⟨i, c, hi, rfl⟩ := mem_bodyFrames.mp hf
    have hrecord : t.records[2 + i]? = some (.compacted c) :=
      getElem?_records_compacted.mpr ⟨i, Nat.add_comm 2 i, hi⟩
    have hbound := (List.getElem?_eq_some_iff.mp hrecord).1
    refine ⟨?_, ?_⟩
    · rw [Nat.add_assoc, h.length, List.getElem?_append_right (Nat.le_add_right _ _),
        Nat.add_sub_cancel_left, hrecord]
    · change (s.recordBoundaries ++ List.replicate t.records.length _)[_]? = _
      rw [Nat.add_assoc, List.getElem?_append_right (Nat.le_add_right _ _),
        Nat.add_sub_cancel_left, List.getElem?_replicate, if_pos hbound]

theorem depth_afterTurn (h : Planned log s) (t : Turn r) {f : CompactionFrame}
    (hf : f ∈ (s.afterTurn t).compactions) :
    ∃ b, f.owner = some b ∧ b < (entries log).length + 1 ∧
      ∀ m, b ∈ (s.afterTurn t).boundaryStack.take m → f.boundaryDepth ≤ m := by
  rcases mem_append.mp hf with hf | hf
  · obtain ⟨b, howner, hb, hdepth⟩ := h.depth f hf
    refine ⟨b, howner, by omega, fun m hm => hdepth m ?_⟩
    change b ∈ (s.boundaryStack ++ [s.boundaryAlive.length]).take m at hm
    rw [take_append, mem_append] at hm
    rcases hm with hm | hm
    · exact hm
    · have hnew := mem_singleton.mp (mem_of_mem_take hm)
      rw [h.aliveLength] at hnew
      omega
  · obtain ⟨i, c, _, rfl⟩ := mem_bodyFrames.mp hf
    refine ⟨s.boundaryAlive.length, rfl, by rw [h.aliveLength]; omega, fun m hm => ?_⟩
    change _ ∈ (s.boundaryStack ++ [s.boundaryAlive.length]).take m at hm
    change s.boundaryStack.length + 1 ≤ m
    by_contra hle
    rw [take_append_of_le_length (by omega)] at hm
    have hlt := h.boundary_lt (mem_of_mem_take hm)
    rw [h.aliveLength] at hlt
    omega

theorem framed_afterTurn (h : Planned log s) (t : Turn r) {i : Nat} {c : CompactedItem}
    (hi : (records log ++ t.records)[i]? = some (.compacted c)) :
    ∃ frame ∈ (s.afterTurn t).compactions, frame.recordIndex = i := by
  by_cases hold : i < (records log).length
  · rw [getElem?_append_left hold] at hi
    obtain ⟨f, hf, hindex⟩ := h.framed i c hi
    exact ⟨f, mem_append_left _ hf, hindex⟩
  · rw [getElem?_append_right (by omega)] at hi
    obtain ⟨j, hj, hbody⟩ := getElem?_records_compacted.mp hi
    refine ⟨_, mem_append_right _ (mem_bodyFrames.mpr ⟨j, c, hbody, rfl⟩), ?_⟩
    change s.recordBoundaries.length + 2 + j = i
    rw [h.length]
    omega

theorem planned_turn (h : Planned log s) (t : Turn r) :
    Planned (log ++ [.entry t]) (s.afterTurn t) where
  resting := ⟨rfl, rfl, rfl⟩
  stack := by
    rw [number_append, Nat.zero_add]
    change s.boundaryStack ++ [s.boundaryAlive.length] = (net (number 0 log ++ [.entry _])).kept
    rw [net_concat_entry, h.stack, h.aliveLength]
  aliveLength := by
    rw [length_entries_concat_entry, ← h.aliveLength]
    exact length_append
  alive b hb := alive_afterTurn h t (length_entries_concat_entry log t ▸ hb)
  length := by
    rw [records_concat_entry, length_append, ← h.length]
    simp [afterTurn]
  turn before u after hsplit i hi := by
    rcases concat_eq_append_entry hsplit with ⟨rfl, rfl, he⟩ | ⟨rest, rfl, hlog⟩
    · obtain rfl := Event.entry.inj he
      rw [← h.length, ← h.aliveLength]
      simp [afterTurn, hi]
    · exact h.turn_append hlog hi _
  frame f hf := by
    rw [records_concat_entry]
    exact frame_afterTurn h t hf
  depth f hf := by
    rw [length_entries_concat_entry]
    exact depth_afterTurn h t hf
  framed i c hi := by
    rw [records_concat_entry] at hi
    exact framed_afterTurn h t hi
  replay := by
    change s.modelReplay ++ _ = _
    rw [logReplay_append, h.replay, h.length, Nat.zero_add]
    simp [logReplay]

end step

theorem alive_afterRollback {log : Log r} {s : RollbackPlanner} (h : Planned log s) (n b : Nat)
    (hb : b < (entries log).length) :
    (s.afterRollback n).boundaryAlive[b]? =
      some (decide (b ∈ (s.afterRollback n).boundaryStack)) := by
  have hsplit := take_append_drop (s.boundaryStack.length - n) s.boundaryStack
  have hdisjoint : b ∈ s.boundaryStack.take (s.boundaryStack.length - n) →
      b ∉ s.boundaryStack.drop (s.boundaryStack.length - n) := by
    have hnodup : s.boundaryStack.Nodup := by
      rw [h.stack]
      exact nodup_kept_number 0 log
    rw [← hsplit] at hnodup
    exact fun htake hdrop => (nodup_append.mp hnodup).2.2 b htake b hdrop rfl
  have hmem : b ∈ s.boundaryStack ↔ b ∈ s.boundaryStack.take (s.boundaryStack.length - n) ∨
      b ∈ s.boundaryStack.drop (s.boundaryStack.length - n) := by
    rw [← mem_append, hsplit]
  have hstack : (s.afterRollback n).boundaryStack =
      s.boundaryStack.take (s.boundaryStack.length - n) := rfl
  change (setAll _ false s.boundaryAlive)[b]? = _
  rw [getElem?_setAll, h.alive b hb]
  by_cases hdrop : b ∈ s.boundaryStack.drop (s.boundaryStack.length - n)
  · have htake : b ∉ (s.afterRollback n).boundaryStack := fun h => hdisjoint h hdrop
    rw [if_pos hdrop, map_some, decide_eq_false htake]
  · rw [if_neg hdrop]
    refine congrArg some (decide_eq_decide.mpr ?_)
    rw [hmem, hstack, or_iff_left hdrop]

theorem planned_rollback {log : Log r} {s : RollbackPlanner} (h : Planned log s) (n : Nat) :
    Planned (log ++ [.undo n]) (s.afterRollback n) := by
  have hrecords : records (log ++ [.undo n]) =
      records log ++ [.eventMsg (.threadRolledBack n)] := by simp
  have hentries : entries (log ++ [.undo n]) = entries log := by simp
  refine ⟨⟨rfl, rfl, rfl⟩, ?_, ?_, ?_, ?_, ?_, ?_, ?_, ?_, ?_⟩
  · rw [number_append]
    change s.boundaryStack.take (s.boundaryStack.length - n) =
      (net (number 0 log ++ [.undo n])).kept
    rw [net_concat_undo, h.stack]
  · rw [hentries, ← h.aliveLength]
    exact length_setAll _ _ _
  · rw [hentries]
    exact alive_afterRollback h n
  · rw [hrecords, length_append, ← h.length]
    exact length_append
  · intro before u after hsplit i hi
    rcases concat_eq_append_entry hsplit with ⟨_, _, he⟩ | ⟨rest, rfl, hlog⟩
    · cases he
    · exact h.turn_append hlog hi _
  · intro f hf
    rw [hrecords]
    exact h.frame_append hf _ _
  · intro f hf
    obtain ⟨b, howner, hb, hdepth⟩ := h.depth f hf
    refine ⟨b, howner, by rw [hentries]; exact hb, fun m hm => ?_⟩
    change b ∈ (s.boundaryStack.take _).take m at hm
    rw [take_take] at hm
    exact (hdepth _ hm).trans (Nat.min_le_left _ _)
  · intro i c hi
    rw [hrecords] at hi
    by_cases hold : i < (records log).length
    · rw [getElem?_append_left hold] at hi
      exact h.framed i c hi
    · rw [getElem?_append_right (by omega), getElem?_singleton] at hi
      split at hi <;> simp at hi
  · change s.modelReplay ++ _ = _
    rw [logReplay_append, h.replay]
    rfl

theorem depth_of_stands {log : Log r} {s : RollbackPlanner} (h : Planned log s) {n : Nat}
    {frame : CompactionFrame} (hframe : frame ∈ s.compactions)
    (hstands : frame.stands (s.afterRollback n).boundaryAlive) :
    n + frame.boundaryDepth ≤ s.boundaryStack.length := by
  obtain ⟨b, howner, hb, hdepth⟩ := h.depth frame hframe
  have halive : b ∈ (s.afterRollback n).boundaryStack := by
    rw [CompactionFrame.stands, howner, all_some, getD_eq_getElem?_getD,
      alive_afterRollback h n b hb, getD_some, decide_eq_true_iff] at hstands
    exact hstands
  have hle := hdepth _ halive
  have hpos : 0 < (s.boundaryStack.take (s.boundaryStack.length - n)).length :=
    length_pos_of_mem halive
  rw [length_take] at hpos
  omega

theorem exists_planned (log : Log r) :
    ∃ s, (records log).foldlM (observe r) .new = .ok s ∧ Planned log s := by
  induction log using List.reverseRecOn with
  | nil => exact ⟨.new, rfl, planned_new⟩
  | append_singleton log e ih =>
    obtain ⟨s, hrun, hs⟩ := ih
    rw [records_append, foldlM_append_of_ok hrun]
    cases e with
    | entry t =>
      rw [records_entry, records_nil, append_nil]
      exact ⟨s.afterTurn t, observe_turn hs.resting t, planned_turn hs t⟩
    | undo n =>
      rw [records_undo, records_nil, foldlM_cons,
        observe_rollback hs.resting fun f hf => depth_of_stands hs hf]
      exact ⟨s.afterRollback n, rfl, planned_rollback hs n⟩

end Codex.Rollout

import Codex.Rollout.PlannerRun
import Codex.Rollout.Resume

/-! The records that a plan keeps are those of the turns that stand. When a rollout has compactions
but none of them stands, an empty checkpoint is planted in place of the newest compaction of the
oldest turn that has any; it hides the turns before it from the thread that is resumed. -/

namespace Codex.Rollout
open Codex.Lib Codex.Lib.UndoLog List Option RollbackPlan

variable {r : Rules}

theorem isBody_bodyReplay (k : Nat) (body : List TurnItem) :
    ∀ record ∈ bodyReplay k body, record.IsBody := by
  induction body generalizing k with
  | nil => simp [bodyReplay]
  | cons item body ih =>
    cases item with
    | response e => exact ih (k + 1)
    | compacted c => exact forall_mem_cons.mpr ⟨trivial, ih (k + 1)⟩

theorem lastCheckpoint_bodyReplay (k : Nat) (body : List TurnItem) :
    (lastCheckpoint (bodyReplay k body) = none ↔ bodyCompaction body = none) ∧
      ∀ a, lastCheckpoint (bodyReplay k body) = some a →
        ∃ i c, a = k + i ∧ body[i]? = some (.compacted c) := by
  induction body generalizing k with
  | nil => simp [bodyReplay, lastCheckpoint, bodyCompaction]
  | cons item body ih =>
    obtain ⟨ihnone, ihsome⟩ := ih (k + 1)
    have hlater (a) (h : lastCheckpoint (bodyReplay (k + 1) body) = some a) :
        ∃ i c, a = k + i ∧ (item :: body)[i]? = some (.compacted c) := by
      obtain ⟨i, c, hi, hbody⟩ := ihsome a h
      exact ⟨i + 1, c, by omega, by rw [getElem?_cons_succ, hbody]⟩
    cases item with
    | response e => exact ⟨ihnone, hlater⟩
    | compacted c =>
      rw [bodyReplay, lastCheckpoint, bodyCompaction]
      refine ⟨by simp, fun a h => ?_⟩
      rcases or_eq_some_iff.mp h with h | ⟨_, h⟩
      · exact hlater a h
      · exact ⟨0, c, (Option.some.inj h).symm, rfl⟩

def oldestCheckpoint : Nat → Log r → Option Nat
  | _, [] => none
  | k, .entry t :: log =>
    (lastCheckpoint (bodyReplay (k + 2) t.body)).or (oldestCheckpoint (k + t.records.length) log)
  | k, .undo _ :: log => oldestCheckpoint (k + 1) log

theorem reverseScan_logReplay (k : Nat) (log : Log r) :
    ∃ selected, reverseScan none (logReplay k log) =
        ⟨selected, oldestCheckpoint k log, (net log).undone, none⟩ ∧
      (selected = none ↔ ∀ t ∈ (net log).kept, t.compaction = none) := by
  induction log generalizing k with
  | nil => exact ⟨none, rfl, by simp [net]⟩
  | cons e log ih =>
    cases e with
    | undo n =>
      obtain ⟨selected, hscan, hselected⟩ := ih (k + 1)
      rw [reverseScan] at hscan ⊢
      refine ⟨selected, ?_, by rw [net_undo]; exact hselected⟩
      rw [logReplay, foldr_cons, hscan, net_undo, oldestCheckpoint, Nat.add_comm n]
      rfl
    | entry t =>
      obtain ⟨selected, hscan, hselected⟩ := ih (k + t.records.length)
      rw [reverseScan] at hscan ⊢
      have hturn : lastCheckpoint (bodyReplay (k + 2) t.body) = none ↔ t.compaction = none :=
        (lastCheckpoint_bodyReplay (k + 2) t.body).1
      rw [logReplay, foldr_append, hscan, foldr_turnRecords_closed true (isBody_bodyReplay _ _),
        net_entry, oldestCheckpoint]
      refine ⟨_, rfl, ?_⟩
      split
      · rw [or_eq_none_iff, hselected, hturn, forall_mem_cons, and_comm]
      · exact hselected

theorem exists_of_oldestCheckpoint (k : Nat) (log : Log r) :
    (oldestCheckpoint k log = none → ∀ t ∈ entries log, t.compaction = none) ∧
      ∀ a, oldestCheckpoint k log = some a → ∃ older t newer, log = older ++ .entry t :: newer ∧
        (∀ u ∈ entries older, u.compaction = none) ∧ t.compaction ≠ none ∧
          ∃ i c, a = k + (records older).length + i ∧ t.records[i]? = some (.compacted c) := by
  induction log generalizing k with
  | nil => simp [oldestCheckpoint]
  | cons e log ih =>
    cases e with
    | undo n =>
      obtain ⟨ihnone, ihsome⟩ := ih (k + 1)
      refine ⟨ihnone, fun a h => ?_⟩
      obtain ⟨older, t, newer, rfl, holder, ht, i, c, hi, hc⟩ := ihsome a h
      refine ⟨.undo n :: older, t, newer, rfl, holder, ht, i, c, ?_, hc⟩
      rw [records_undo, length_cons]
      omega
    | entry t =>
      obtain ⟨ihnone, ihsome⟩ := ih (k + t.records.length)
      obtain ⟨hnone, hsome⟩ := lastCheckpoint_bodyReplay (k + 2) t.body
      rw [oldestCheckpoint]
      refine ⟨fun h => ?_, fun a h => ?_⟩
      · rw [or_eq_none_iff] at h
        exact forall_mem_cons.mpr ⟨hnone.mp h.1, ihnone h.2⟩
      · rcases or_eq_some_iff.mp h with h | ⟨hfirst, h⟩
        · obtain ⟨i, c, hi, hbody⟩ := hsome a h
          refine ⟨[], t, log, rfl, by simp, fun hc => ?_, i + 2, c, ?_, ?_⟩
          · rw [hnone.mpr hc] at h
            exact nomatch h
          · rw [records_nil, length_nil]
            omega
          · exact getElem?_records_compacted.mpr ⟨i, rfl, hbody⟩
        · obtain ⟨older, u, newer, rfl, holder, hu, i, c, hi, hc⟩ := ihsome a h
          refine ⟨.entry t :: older, u, newer, rfl, ?_, hu, i, c, ?_, hc⟩
          · exact forall_mem_cons.mpr ⟨hnone.mp hfirst, holder⟩
          · rw [records_entry, length_append]
            omega

theorem emptyReplacementHistoryCompaction_cases (log : Log r) :
    ((∃ t ∈ (net log).kept, t.compaction ≠ none) ∧
        emptyReplacementHistoryCompaction (logReplay 0 log) = none) ∨
      (∀ t ∈ (net log).kept, t.compaction = none) ∧
        emptyReplacementHistoryCompaction (logReplay 0 log) = oldestCheckpoint 0 log := by
  obtain ⟨selected, hscan, hselected⟩ := reverseScan_logReplay 0 log
  rw [emptyReplacementHistoryCompaction, reverseReplay, hscan]
  change (_ ∧ (if selected.isNone then oldestCheckpoint 0 log else none) = none) ∨
    _ ∧ (if selected.isNone then oldestCheckpoint 0 log else none) = _
  cases selected with
  | none => exact .inr ⟨hselected.mp rfl, rfl⟩
  | some c =>
    refine .inl ⟨?_, rfl⟩
    by_contra hno
    refine absurd (hselected.mpr fun t ht => ?_) (by simp)
    by_contra hne
    exact hno ⟨t, ht, hne⟩

theorem applyFrom_append {plan : RollbackPlan} {k : Nat} {xs ys kept rest : List RolloutItem}
    (hxs : plan.applyFrom k xs = .ok kept) (hys : plan.applyFrom (k + xs.length) ys = .ok rest) :
    plan.applyFrom k (xs ++ ys) = .ok (kept ++ rest) := by
  induction xs generalizing k kept with
  | nil =>
    obtain rfl := Except.ok.inj hxs
    exact hys
  | cons item xs ih =>
    rw [applyFrom] at hxs
    obtain ⟨first, hfirst, hxs⟩ := exists_of_bind_eq_ok hxs
    obtain ⟨others, hothers, hxs⟩ := exists_of_bind_eq_ok hxs
    obtain rfl := Except.ok.inj hxs
    have hlength : k + (item :: xs).length = k + 1 + xs.length := by
      rw [length_cons]
      omega
    rw [hlength] at hys
    rw [cons_append, applyFrom, hfirst, ok_bind, ih hothers hys, ok_bind, append_assoc]
    rfl

theorem applyFrom_of_apply {plan : RollbackPlan} {k : Nat} {items : List RolloutItem}
    {f : RolloutItem → Option RolloutItem}
    (h : ∀ i item, items[i]? = some item → plan.apply (k + i) item = .ok (f item)) :
    plan.applyFrom k items = .ok (items.filterMap f) := by
  induction items generalizing k with
  | nil => rfl
  | cons item items ih =>
    have hrest : plan.applyFrom (k + 1) items = .ok (items.filterMap f) := ih fun i x hx => by
      rw [Nat.add_assoc, Nat.add_comm 1]
      exact h (i + 1) x (by rw [getElem?_cons_succ, hx])
    have hfirst : plan.apply k item = .ok (f item) := h 0 item rfl
    rw [applyFrom, hfirst, ok_bind, hrest, ok_bind]
    cases hf : f item with
    | none =>
      rw [filterMap_cons_none hf]
      rfl
    | some x =>
      rw [filterMap_cons_some hf]
      rfl

section

variable {log before after : Log r} {s : RollbackPlanner} {t : Turn r}

theorem getD_boundaryAlive (h : Planned (before ++ .entry t :: after) s) :
    s.boundaryAlive.getD (entries before).length false = decide ((net after).undone = 0) := by
  have hlt : (entries before).length < (entries (before ++ .entry t :: after)).length := by simp
  have hmem := mem_kept_number_iff 0 before after t
  rw [Nat.zero_add, ← h.stack] at hmem
  rw [getD_eq_getElem?_getD, h.alive _ hlt, getD_some]
  exact decide_eq_decide.mpr hmem

theorem getElem?_records {i : Nat} {item : RolloutItem} (hi : t.records[i]? = some item) :
    (records (before ++ .entry t :: after))[(records before).length + i]? = some item := by
  rw [records_append, records_entry, List.getElem?_append_right (Nat.le_add_right _ _),
    Nat.add_sub_cancel_left, List.getElem?_append_left (List.getElem?_eq_some_iff.mp hi).1, hi]

theorem not_isThreadRolledBack {item : RolloutItem} (h : item ∈ t.records) :
    isThreadRolledBack item = false := by
  rw [Turn.records, mem_cons, mem_cons, mem_append, List.mem_map, mem_singleton] at h
  rcases h with rfl | rfl | ⟨item, _, rfl⟩ | rfl
  · rfl
  · rfl
  · cases item <;> rfl
  · rfl

theorem apply_turn (h : Planned (before ++ .entry t :: after) s) {i : Nat} {item : RolloutItem}
    (hi : t.records[i]? = some item)
    (hanchor : some ((records before).length + i) ≠
      emptyReplacementHistoryCompaction s.modelReplay) :
    s.finish.apply ((records before).length + i) item =
      .ok (if (net after).undone = 0 then some item else none) := by
  have hboundary := h.turn before t after rfl i (List.getElem?_eq_some_iff.mp hi).1
  have halive := getD_boundaryAlive h
  have hmarker := not_isThreadRolledBack (mem_of_getElem? hi)
  rw [apply, show s.finish.recordBoundaries = s.recordBoundaries from rfl, hboundary]
  simp only [hmarker, Bool.false_eq_true, if_false]
  cases hlookup : s.finish.compactedItems.lookup ((records before).length + i) with
  | none =>
    change (if (!s.boundaryAlive.getD (entries before).length false) then _ else _) = _
    rw [halive]
    by_cases hundone : (net after).undone = 0
    · simp [hundone]
    · simp [hundone]
  | some c =>
    -- the frame of the record is that of a turn that stands, and has the item as it was read
    obtain ⟨l₁, l₂, hitems, _⟩ := lookup_eq_some_iff.mp hlookup
    have hmem : ((records before).length + i, c) ∈ s.finish.compactedItems := by
      rw [hitems]
      simp
    obtain ⟨frame, hframe, hplanned⟩ := mem_filterMap.mp hmem
    rw [CompactionFrame.planned] at hplanned
    split at hplanned
    · next heq =>
      have hindex := (Prod.mk.inj (Option.some.inj hplanned)).1
      rw [hindex] at heq
      exact absurd heq hanchor
    · split at hplanned
      · next hstands =>
        obtain ⟨hindex, rfl⟩ := Prod.mk.inj (Option.some.inj hplanned)
        obtain ⟨hrecord, howner⟩ := h.frame frame hframe
        rw [hindex, getElem?_records hi] at hrecord
        obtain rfl := Option.some.inj hrecord
        rw [hindex, hboundary] at howner
        rw [CompactionFrame.stands, ← Option.some.inj howner, all_some, halive,
          decide_eq_true_iff] at hstands
        rw [if_pos hstands]
      · cases hplanned

theorem apply_anchor (h : Planned log s) {k : Nat} {c : CompactedItem}
    (hk : (records log)[k]? = some (.compacted c))
    (hanchor : emptyReplacementHistoryCompaction s.modelReplay = some k) :
    ∃ planted : CompactedItem, planted.replacementHistory = some [] ∧
      s.finish.apply k (.compacted c) = .ok (some (.compacted planted)) := by
  have hlt : k < s.recordBoundaries.length := by
    rw [h.length]
    exact (List.getElem?_eq_some_iff.mp hk).1
  obtain ⟨frame, hframe, rfl⟩ := h.framed k c hk
  cases hlookup : s.finish.compactedItems.lookup frame.recordIndex with
  | none =>
    have hmem : frame.planned (emptyReplacementHistoryCompaction s.modelReplay) s.boundaryAlive =
        some (frame.recordIndex, { frame.item with
          replacementHistory := some [], mcpResourceOrigins := none }) := by
      rw [CompactionFrame.planned, if_pos hanchor.symm]
    have hne := lookup_eq_none_iff.mp hlookup _ (mem_filterMap.mpr ⟨frame, hframe, hmem⟩)
    simp at hne
  | some planted =>
    refine ⟨planted, ?_, ?_⟩
    · obtain ⟨l₁, l₂, hitems, _⟩ := lookup_eq_some_iff.mp hlookup
      have hmem : (frame.recordIndex, planted) ∈ s.finish.compactedItems := by
        rw [hitems]
        simp
      obtain ⟨other, _, hplanned⟩ := mem_filterMap.mp hmem
      rw [CompactionFrame.planned] at hplanned
      split at hplanned
      · obtain ⟨_, rfl⟩ := Prod.mk.inj (Option.some.inj hplanned)
        rfl
      · next hother =>
        split at hplanned
        · have hindex := (Prod.mk.inj (Option.some.inj hplanned)).1
          rw [hindex] at hother
          exact absurd hanchor.symm hother
        · cases hplanned
    · rw [apply, show s.finish.recordBoundaries = s.recordBoundaries from rfl,
        List.getElem?_eq_getElem hlt]
      simp only [isThreadRolledBack, Bool.false_eq_true, if_false, hlookup]

end

theorem applyFrom_records {s : RollbackPlanner} (before log after : Log r)
    (h : Planned (before ++ log ++ after) s)
    (hanchor : ∀ i < (records log).length, some ((records before).length + i) ≠
      emptyReplacementHistoryCompaction s.modelReplay) :
    s.finish.applyFrom (records before).length (records log) =
      .ok (records ((keptUnder log (net after).undone).map .entry)) := by
  induction log generalizing before with
  | nil => simp [keptUnder, net, applyFrom]
  | cons e log ih =>
    have hsplit : before ++ e :: log ++ after = before ++ e :: (log ++ after) := by simp
    have hsplit' : before ++ e :: log ++ after = before ++ [e] ++ log ++ after := by simp
    have hlength : (records (before ++ [e])).length =
        (records before).length + (records [e]).length := by
      rw [records_append, length_append]
    have hcons : records (e :: log) = records [e] ++ records log := by
      rw [← records_append, singleton_append]
    have hrest := ih (before ++ [e]) (by rw [← hsplit']; exact h) fun i hi => by
      rw [hlength, Nat.add_assoc]
      refine hanchor _ ?_
      rw [hcons, length_append]
      omega
    rw [hlength] at hrest
    rw [hcons]
    cases e with
    | undo n =>
      have hmarker : s.finish.applyFrom (records before).length
          (records ([.undo n] : Log r)) = .ok [] := by
        have hlt : (records before).length < s.recordBoundaries.length := by
          rw [h.length]
          simp
        rw [records_undo, records_nil, applyFrom, applyFrom]
        rw [apply, show s.finish.recordBoundaries = s.recordBoundaries from rfl,
          List.getElem?_eq_getElem hlt]
        rfl
      rw [keptUnder_undo]
      exact applyFrom_append hmarker hrest
    | entry t =>
      rw [hsplit] at h
      have hturn : s.finish.applyFrom (records before).length (records [.entry t]) =
          .ok (t.records.filterMap fun item =>
            if (net (log ++ after)).undone = 0 then some item else none) := by
        rw [records_entry, records_nil, append_nil]
        refine applyFrom_of_apply fun i item hi => apply_turn h hi (hanchor i ?_)
        rw [records_entry, length_append]
        have := (List.getElem?_eq_some_iff.mp hi).1
        omega
      rw [applyFrom_append hturn hrest, keptUnder_entry]
      by_cases hundone : (net (log ++ after)).undone = 0
      · simp [hundone]
      · simp [hundone]

theorem applyFrom_planted {s : RollbackPlanner} {before after : Log r} {t : Turn r}
    (h : Planned (before ++ .entry t :: after) s) (hundone : (net after).undone ≠ 0) {i : Nat}
    {c : CompactedItem} (hi : t.records[i]? = some (.compacted c))
    (hanchor : emptyReplacementHistoryCompaction s.modelReplay =
      some ((records before).length + i)) :
    ∃ planted : CompactedItem, planted.replacementHistory = some [] ∧
      s.finish.applyFrom (records before).length t.records = .ok [.compacted planted] := by
  obtain ⟨planted, hempty, hplanted⟩ := apply_anchor h (getElem?_records hi) hanchor
  refine ⟨planted, hempty, ?_⟩
  obtain ⟨hlt, hget⟩ := List.getElem?_eq_some_iff.mp hi
  have hsplit : t.records = t.records.take i ++ ([.compacted c] ++ t.records.drop (i + 1)) := by
    rw [← hget, singleton_append, getElem_cons_drop, take_append_drop]
  have hlength : (t.records.take i).length = i := by
    rw [length_take]
    omega
  -- every record but the one at the anchor goes
  have hgone (j item) (hj : t.records[j]? = some item) (hne : j ≠ i) :
      s.finish.apply ((records before).length + j) item = .ok none := by
    rw [apply_turn h hj, if_neg hundone]
    rw [hanchor, Ne, Option.some.injEq]
    omega
  have hbefore : s.finish.applyFrom (records before).length (t.records.take i) = .ok [] := by
    rw [applyFrom_of_apply (f := fun _ => none), filterMap_none]
    intro j item hj
    rw [List.getElem?_take] at hj
    split at hj
    · exact hgone j item hj (by omega)
    · exact nomatch hj
  have hafter : s.finish.applyFrom ((records before).length + i + 1) (t.records.drop (i + 1)) =
      .ok [] := by
    rw [applyFrom_of_apply (f := fun _ => none), filterMap_none]
    intro j item hj
    rw [List.getElem?_drop] at hj
    have := hgone (i + 1 + j) item hj (by omega)
    rw [← Nat.add_assoc, ← Nat.add_assoc] at this
    exact this
  have hmid : s.finish.applyFrom ((records before).length + i) [.compacted c] =
      .ok [.compacted planted] := by
    rw [applyFrom, hplanted, ok_bind]
    rfl
  rw [hsplit]
  refine applyFrom_append hbefore ?_
  rw [hlength]
  exact applyFrom_append hmid hafter

theorem migrateRecords_cases (log : Log r) :
    ((∃ t ∈ (net log).kept, t.compaction ≠ none) ∨ ∀ t ∈ entries log, t.compaction = none) ∧
        migrateRecords r (records log) = .ok (records ((net log).kept.map .entry)) ∨
      ∃ older t newer, ∃ planted : CompactedItem, log = older ++ .entry t :: newer ∧
        (∀ u ∈ (net log).kept, u.compaction = none) ∧
        (∀ u ∈ entries older, u.compaction = none) ∧ t.compaction ≠ none ∧
        planted.replacementHistory = some [] ∧
        migrateRecords r (records log) =
          .ok (records ((keptUnder older (net (.entry t :: newer)).undone).map .entry) ++
            .compacted planted :: records ((net newer).kept.map .entry)) := by
  obtain ⟨s, hrun, hs⟩ := exists_planned log
  have hmigrate : migrateRecords r (records log) = s.finish.applyFrom 0 (records log) := by
    rw [migrateRecords, hrun, ok_bind]
  have hreplay := hs.replay
  have hall (h : emptyReplacementHistoryCompaction s.modelReplay = none) :
      migrateRecords r (records log) = .ok (records ((net log).kept.map .entry)) := by
    have hwhole : Planned ([] ++ log ++ []) s := by simpa using hs
    have := applyFrom_records [] log [] hwhole fun i _ => by simp [h]
    rw [hmigrate, ← keptUnder_zero]
    exact this
  rcases emptyReplacementHistoryCompaction_cases log with ⟨hstands, hnone⟩ | ⟨hgone, hanchor⟩
  · exact .inl ⟨.inl hstands, hall (by rw [hreplay, hnone])⟩
  · obtain ⟨hnothing, hoccurs⟩ := exists_of_oldestCheckpoint 0 log
    cases holdest : oldestCheckpoint 0 log with
    | none => exact .inl ⟨.inr (hnothing holdest), hall (by rw [hreplay, hanchor, holdest])⟩
    | some a =>
      obtain ⟨older, t, newer, rfl, holder, ht, i, c, ha, hc⟩ := hoccurs a holdest
      have hanchor' : emptyReplacementHistoryCompaction s.modelReplay =
          some ((records older).length + i) := by
        rw [hreplay, hanchor, holdest, ha, Nat.zero_add]
      have hlt := (List.getElem?_eq_some_iff.mp hc).1
      have hundone : (net newer).undone ≠ 0 := by
        intro hzero
        refine ht (hgone t ?_)
        rw [kept_append_entry t hzero]
        simp
      obtain ⟨planted, hempty, hplanted⟩ := applyFrom_planted hs hundone hc hanchor'
      refine .inr ⟨older, t, newer, planted, rfl, hgone, holder, ht, hempty, ?_⟩
      have hfirst := applyFrom_records [] older (.entry t :: newer) hs fun j hj => by
        rw [hanchor', records_nil, length_nil, Ne, Option.some.injEq]
        omega
      have hlast := applyFrom_records (older ++ [.entry t]) newer [] (by simpa using hs)
        fun j hj => by
          rw [hanchor', records_append, length_append, records_entry, records_nil,
            append_nil, Ne, Option.some.injEq]
          omega
      rw [records_append, length_append, records_entry, records_nil, append_nil,
        show (net ([] : Log r)).undone = 0 from rfl, keptUnder_zero] at hlast
      rw [hmigrate, records_append, records_entry]
      refine applyFrom_append hfirst ?_
      rw [Nat.zero_add]
      exact applyFrom_append hplanted hlast

/-- A compaction stands, or no turn stands before the oldest turn with a compaction. -/
def ResumesAlike (log : Log r) : Prop :=
  (∃ t ∈ (net log).kept, t.compaction ≠ none) ∨
    ∀ older t newer, log = older ++ .entry t :: newer → t.compaction ≠ none →
      (∀ u ∈ entries older, u.compaction = none) →
        (net older).kept.length ≤ (net (.entry t :: newer)).undone

theorem oldest_compaction_unique {older older' newer newer' : Log r} {t t' : Turn r}
    (h : older ++ .entry t :: newer = older' ++ .entry t' :: newer')
    (holder : ∀ u ∈ entries older, u.compaction = none) (ht : t.compaction ≠ none)
    (holder' : ∀ u ∈ entries older', u.compaction = none) (ht' : t'.compaction ≠ none) :
    older = older' ∧ t = t' ∧ newer = newer' := by
  rcases append_eq_append_iff.mp h with ⟨mid, rfl, hmid⟩ | ⟨mid, rfl, hmid⟩
  · cases mid with
    | nil =>
      obtain ⟨he, rfl⟩ := List.cons.inj hmid
      exact ⟨by simp, Event.entry.inj he, rfl⟩
    | cons e mid =>
      obtain ⟨rfl, _⟩ := List.cons.inj hmid
      exact absurd (holder' t (by simp)) ht
  · cases mid with
    | nil =>
      obtain ⟨he, rfl⟩ := List.cons.inj hmid
      exact ⟨by simp, (Event.entry.inj he).symm, rfl⟩
    | cons e mid =>
      obtain ⟨rfl, _⟩ := List.cons.inj hmid
      exact absurd (holder t' (by simp)) ht'

theorem conversationHistory_append_eq_iff {older newer : List (Turn r)}
    (h : ∀ t ∈ older ++ newer, t.compaction = none) :
    conversationHistory newer = conversationHistory (older ++ newer) ↔ older = [] := by
  have hnewer : ∀ t ∈ newer, t.compaction = none := fun t ht => h t (mem_append_right _ ht)
  rw [conversationHistory, conversationHistory, foldl_historyAfter h, foldl_historyAfter hnewer,
    flatMap_append, nil_append, nil_append, self_eq_append_left]
  cases older with
  | nil => simp
  | cons t older => simp [Turn.items]

def plainTurn (turnId : String) (compactions : List (List ResponseItemEnvelope)) :
    Turn plainRules where
  turnId := turnId.toList
  started := []
  content := [.inputText "hello".toList]
  passthrough := none
  unread := []
  metadata := none
  body := compactions.map fun history => .compacted ⟨[], some history, none, some 1, none, []⟩
  completed := ⟨none, []⟩
  content_notKnownContextual := by decide +kernel
  body_wellFormed := by
    intro item hitem
    obtain ⟨history, _, rfl⟩ := List.mem_map.mp hitem
    exact ⟨rfl, rfl⟩

def compactedThread : Log plainRules :=
  [.entry (plainTurn "1" []), .entry (plainTurn "2" [[plainMessage "user" "hello"]]),
    .entry (plainTurn "3" []), .undo 1]

theorem settledFrom_compactedThread :
    SettledFrom [plainMessage "user" "hello"] [.entry (plainTurn "3" []), .undo 1] := by
  intro before u after hsplit _
  obtain _ | ⟨e, before⟩ := before
  · obtain rfl := Event.entry.inj (List.cons.inj hsplit).1
    refine ⟨by decide +kernel, fun _ e he => ?_, fun hzero => absurd hzero (by decide +kernel)⟩
    obtain rfl := Option.some.inj he
    decide +kernel
  · have hmem : Event.entry u ∈ [Event.undo 1] := by simp [(List.cons.inj hsplit).2]
    simp at hmem

end Codex.Rollout

import Codex.Transcript.Truncation

/-! A fork shows the right turns when its turn comes back nowhere but in its place and, for a fork
after it, when every turn that is opened on top of it is taken off again. -/

namespace Codex.Transcript
open Codex.Lib Codex.Lib.TurnStack Codex.Rollout List

variable (r : Rules) (promptId : Nat → ResponseItem → Text) (turnId : Text)
  (items : List RolloutItem)

def shownAt (i : Nat) : List Text := shownTurnIds r promptId (items.take i)

/-- The last moment at which the turn is not shown. -/
def absentTill : Nat :=
  Nat.findGreatest (fun i => turnId ∉ shownAt r promptId items i) items.length

/-- The turns that the turn is put on when it comes for the last time. -/
def turnsBelow : List Text := shownAt r promptId items (absentTill r promptId turnId items)

/-- Every turn that is opened on top of the turn is taken off again. -/
def TakenOffAgain : Prop :=
  ∀ i < items.length, absentTill r promptId turnId items < i →
    (shownAt r promptId items i).length < (shownAt r promptId items (i + 1)).length →
      ∃ j ≤ items.length, i < j ∧
        (shownAt r promptId items j).length ≤ (shownAt r promptId items i).length

/-- The fork shows the turn, and puts it on the same turns in the end. -/
def SamePlace (result : List RolloutItem) : Prop :=
  turnId ∈ shownTurnIds r promptId result ∧
    turnsBelow r promptId turnId result = turnsBelow r promptId turnId items

/-- No review-mode record names the turn while it is not shown. -/
def NotReopened : Prop :=
  ∀ i (hi : i < items.length), reviewedTurn items[i] = some turnId →
    turnId ∈ shownAt r promptId items i

instance : Decidable (TakenOffAgain r promptId turnId items) :=
  inferInstanceAs (Decidable (∀ i < _, _))

instance : Decidable (NotReopened r promptId turnId items) :=
  inferInstanceAs (Decidable (∀ i (_ : i < items.length), _ = _ → _))

theorem shownTurnIds_eq_run :
    shownTurnIds r promptId items =
      (Stack.run rolloutTurnId ⟨[], none⟩ 0 (items.map (turnUse r))).shown :=
  map_id_buildTurnsFromRolloutItems r promptId items

variable {r promptId turnId items}

theorem shownAt_length : shownAt r promptId items items.length = shownTurnIds r promptId items := by
  rw [shownAt, take_length]

theorem shownAt_take {i m : Nat} (h : i ≤ m) :
    shownAt r promptId (items.take m) i = shownAt r promptId items i := by
  rw [shownAt, shownAt, take_take, Nat.min_eq_left h]

variable (r promptId) in
theorem shownAt_succ {i : Nat} (hi : i < items.length) :
    ∃ s : Stack Text, s.shown = shownAt r promptId items i ∧
      (s.step (rolloutTurnId i) (turnUse r items[i])).shown =
        shownAt r promptId items (i + 1) := by
  refine ⟨_, (shownTurnIds_eq_run r promptId _).symm, ?_⟩
  rw [shownAt, shownTurnIds_eq_run, ← take_append_getElem hi, map_append, run_append, length_map,
    length_take, Nat.min_eq_left hi.le, Nat.zero_add]
  rfl

theorem trace_shownAt : Trace (shownAt r promptId items) items.length := by
  intro i hi
  obtain ⟨s, hs, hstep⟩ := shownAt_succ r promptId hi
  rw [← hs, ← hstep]
  rcases step_cases s (rolloutTurnId i) (turnUse r items[i]) with ⟨x, _, hx⟩ | hk
  · exact .inl ⟨x, hx⟩
  · exact .inr hk

theorem absentTill_le : absentTill r promptId turnId items ≤ items.length := Nat.findGreatest_le _

theorem notMem_turnsBelow : turnId ∉ turnsBelow r promptId turnId items :=
  Nat.findGreatest_spec (P := fun i => turnId ∉ shownAt r promptId items i) (Nat.zero_le _)
    not_mem_nil

theorem mem_shownAt_of_lt {i : Nat} (h : absentTill r promptId turnId items < i)
    (hi : i ≤ items.length) : turnId ∈ shownAt r promptId items i :=
  Decidable.not_not.mp (Nat.findGreatest_is_greatest h hi)

theorem absentTill_lt (h : turnId ∈ shownTurnIds r promptId items) :
    absentTill r promptId turnId items < items.length := by
  refine lt_of_le_of_ne absentTill_le fun heq => ?_
  have habsent : turnId ∉ turnsBelow r promptId turnId items := notMem_turnsBelow
  rw [turnsBelow, heq, shownAt_length] at habsent
  exact habsent h

theorem absentTill_take {m : Nat} (h : absentTill r promptId turnId items < m)
    (hm : m ≤ items.length) :
    absentTill r promptId turnId (items.take m) = absentTill r promptId turnId items := by
  rw [absentTill, Nat.findGreatest_eq_iff, length_take, Nat.min_eq_left hm]
  refine ⟨h.le, fun _ => ?_, fun i hi him => ?_⟩
  · rw [shownAt_take h.le]
    exact notMem_turnsBelow
  · rw [shownAt_take him, Decidable.not_not]
    exact mem_shownAt_of_lt hi (him.trans hm)

theorem takeWhile_ne_append {below above : List Text} (hbelow : turnId ∉ below) :
    (below ++ turnId :: above).takeWhile (· ≠ turnId) = below := by
  rw [takeWhile_append_of_pos, takeWhile_cons_of_neg, append_nil]
  · simp
  · intro id hid
    exact decide_eq_true fun heq => hbelow (heq ▸ hid)

theorem takeWhile_shownTurnIds :
    (shownTurnIds r promptId items).takeWhile (· ≠ turnId) =
      turnsBelow r promptId turnId items := by
  by_cases hmem : turnId ∈ shownTurnIds r promptId items
  · obtain ⟨above, habove⟩ := below_of_stays trace_shownAt notMem_turnsBelow
      (fun _ => mem_shownAt_of_lt) (absentTill_lt hmem) le_rfl
    rw [shownAt_length] at habove
    rw [habove]
    exact takeWhile_ne_append notMem_turnsBelow
  · have hall : absentTill r promptId turnId items = items.length := by
      refine le_antisymm absentTill_le (Nat.le_of_not_lt fun hlt => hmem ?_)
      rw [← shownAt_length]
      exact mem_shownAt_of_lt hlt le_rfl
    rw [turnsBelow, hall, shownAt_length, takeWhile_eq_self_iff]
    exact fun id hid => decide_eq_true fun heq => hmem (heq ▸ hid)

theorem takenOffAgain_iff (hmem : turnId ∈ shownTurnIds r promptId items) :
    TakenOffAgain r promptId turnId items ↔
      shownTurnIds r promptId items = turnsBelow r promptId turnId items ++ [turnId] := by
  rw [← shownAt_length]
  exact (top_iff trace_shownAt notMem_turnsBelow (fun _ => mem_shownAt_of_lt)
    (absentTill_lt hmem)).symm

/-- The fork shows the turn on top of the turns that it is put on in the original. -/
theorem shown_fork_iff {result : List RolloutItem} :
    shownTurnIds r promptId result =
        (shownTurnIds r promptId items).takeWhile (· ≠ turnId) ++ [turnId] ↔
      SamePlace r promptId turnId items result ∧ TakenOffAgain r promptId turnId result := by
  rw [takeWhile_shownTurnIds]
  constructor
  · intro hshown
    have hmem : turnId ∈ shownTurnIds r promptId result := by
      rw [hshown]
      exact mem_append_right _ mem_cons_self
    have hbelow : turnsBelow r promptId turnId result = turnsBelow r promptId turnId items := by
      rw [← takeWhile_shownTurnIds, hshown]
      exact takeWhile_ne_append notMem_turnsBelow
    exact ⟨⟨hmem, hbelow⟩, (takenOffAgain_iff hmem).mpr (hbelow ▸ hshown)⟩
  · rintro ⟨⟨hmem, hbelow⟩, hoff⟩
    rw [← hbelow]
    exact (takenOffAgain_iff hmem).mp hoff

/-- A `TurnStarted` record of a turn that no other record starts and that no generated id names. -/
structure StartedAt (turnId : Text) (pre : List RolloutItem) (start : RolloutItem)
    (post : List RolloutItem) : Prop where
  starts : startsTurn turnId start = true
  before : ∀ item ∈ pre, startedTurnId item ≠ some turnId
  after : ∀ item ∈ post, startedTurnId item ≠ some turnId
  generated : ∀ n, rolloutTurnId n ≠ turnId

section Started

variable {pre post : List RolloutItem} {start : RolloutItem}

theorem startedAt_of_nodup (hdistinct : ((pre ++ start :: post).filterMap startedTurnId).Nodup)
    (hgenerated : ∀ id ∈ (pre ++ start :: post).filterMap startedTurnId, ∀ n, id ≠ rolloutTurnId n)
    (hstart : startsTurn turnId start) : StartedAt turnId pre start post := by
  have hid : startedTurnId start = some turnId := of_decide_eq_true hstart
  rw [filterMap_append, filterMap_cons_some hid] at hdistinct hgenerated
  rw [nodup_append, nodup_cons] at hdistinct
  obtain ⟨_, ⟨hpost, _⟩, hpre⟩ := hdistinct
  refine ⟨hstart, fun item hitem heq => ?_, fun item hitem heq => ?_, fun n heq => ?_⟩
  · exact hpre turnId (mem_filterMap.mpr ⟨item, hitem, heq⟩) turnId mem_cons_self rfl
  · exact hpost (mem_filterMap.mpr ⟨item, hitem, heq⟩)
  · exact hgenerated turnId (mem_append_right _ mem_cons_self) n heq.symm

theorem StartedAt.index_eq (h : StartedAt turnId pre start post) {i : Nat}
    (hi : i < (pre ++ start :: post).length)
    (hstarts : startedTurnId (pre ++ start :: post)[i] = some turnId) : i = pre.length := by
  by_contra hne
  rcases Nat.lt_or_gt_of_ne hne with hlt | hgt
  · rw [getElem_append_left hlt] at hstarts
    exact h.before _ (getElem_mem hlt) hstarts
  · obtain ⟨k, rfl⟩ := Nat.exists_eq_add_of_lt hgt
    rw [getElem_append_right (by omega), getElem_cons, dif_neg (by omega)] at hstarts
    exact h.after _ (getElem_mem _) hstarts

/-- The turn comes for the last time with its `TurnStarted` record. -/
theorem StartedAt.absentTill_eq (h : StartedAt turnId pre start post)
    (hreview : NotReopened r promptId turnId (pre ++ start :: post))
    (hmem : turnId ∈ shownTurnIds r promptId (pre ++ start :: post)) :
    absentTill r promptId turnId (pre ++ start :: post) = pre.length := by
  set i := absentTill r promptId turnId (pre ++ start :: post) with hi
  have hlt : i < (pre ++ start :: post).length := absentTill_lt hmem
  have habsent : turnId ∉ shownAt r promptId (pre ++ start :: post) i := notMem_turnsBelow
  have hcomes := mem_shownAt_of_lt (Nat.lt_succ_self i) hlt
  obtain ⟨s, hs, hstep⟩ := shownAt_succ r promptId hlt
  rw [← hs] at habsent
  rw [← hstep] at hcomes
  refine h.index_eq hlt ?_
  rcases step_cases s (rolloutTurnId i) (turnUse r (pre ++ start :: post)[i]) with
    ⟨x, hopens, hx⟩ | ⟨k, hk⟩
  · rw [hx, mem_append, mem_singleton] at hcomes
    obtain rfl := hcomes.resolve_left habsent
    obtain ⟨hstart, hnamed, _⟩ := turnUse_inversion r (pre ++ start :: post)[i] turnId
    rcases opens_eq_some hopens with hfresh | huse | ⟨huse, _⟩
    · exact absurd hfresh (h.generated i)
    · exact hstart.mp huse
    · exact absurd (hs ▸ hreview i hlt (hnamed.mp huse)) habsent
  · rw [hk] at hcomes
    exact absurd (mem_of_mem_take hcomes) habsent

theorem StartedAt.mem_shown (h : StartedAt turnId pre start post)
    (hpost : post.any isThreadRolledBack = false) :
    turnId ∈ shownTurnIds r promptId (pre ++ start :: post) := by
  have hstays : ∀ i, pre.length < i → i ≤ (pre ++ start :: post).length →
      turnId ∈ shownAt r promptId (pre ++ start :: post) i := by
    intro i hi
    induction i, hi using Nat.le_induction with
    | base =>
      intro hle
      obtain ⟨s, _, hstep⟩ := shownAt_succ r promptId hle
      have huse : turnUse r start = .start turnId :=
        (turnUse_inversion r start turnId).1.mpr (of_decide_eq_true h.starts)
      rw [← hstep, getElem_append_right le_rfl]
      simp [huse, Stack.step, Stack.shown]
    | succ i hi ih =>
      intro hle
      obtain ⟨s, hs, hstep⟩ := shownAt_succ r promptId hle
      obtain ⟨k, rfl⟩ := Nat.exists_eq_add_of_lt hi
      have hitem : (pre ++ start :: post)[pre.length + k + 1] ∈ post := by
        rw [getElem_append_right (by omega), getElem_cons, dif_neg (by omega)]
        exact getElem_mem _
      have hrollback := Bool.eq_false_iff.mpr (any_eq_false.mp hpost _ hitem)
      rw [← (turnUse_inversion r _ turnId).2.2] at hrollback
      rw [← hstep, shown_step s _ hrollback, hs]
      exact mem_append_left _ (ih (Nat.le_of_lt hle))
  rw [← shownAt_length]
  exact hstays _ (by simp) le_rfl

end Started

variable {start : RolloutItem} {result : List RolloutItem}

section Cut
variable (hdistinct : (items.filterMap startedTurnId).Nodup)
  (hgenerated : ∀ id ∈ items.filterMap startedTurnId, ∀ n, id ≠ rolloutTurnId n)
  (hstart : startsTurn turnId start = true)
  (hsplit : items = recordsBefore turnId items ++ start :: recordsAfterStart turnId items)
include hdistinct hgenerated hstart hsplit

theorem startedAt_recordsBefore :
    StartedAt turnId (recordsBefore turnId items) start (recordsAfterStart turnId items) := by
  rw [hsplit] at hdistinct hgenerated
  exact startedAt_of_nodup hdistinct hgenerated hstart

theorem absentTill_eq_of_notReopened (hreview : NotReopened r promptId turnId items)
    (hmem : turnId ∈ shownTurnIds r promptId items) :
    absentTill r promptId turnId items = (recordsBefore turnId items).length := by
  have h := startedAt_recordsBefore hdistinct hgenerated hstart hsplit
  conv_lhs => rw [hsplit]
  exact h.absentTill_eq (hsplit ▸ hreview) (hsplit ▸ hmem)

/-- The fork is the beginning of the rollout up to the next start. -/
theorem samePlace_of_notReopened (hreview : NotReopened r promptId turnId items)
    (hmem : turnId ∈ shownTurnIds r promptId items) :
    SamePlace r promptId turnId items
      (recordsBefore turnId items ++ start :: recordsOf turnId items) := by
  have htill := absentTill_eq_of_notReopened hdistinct hgenerated hstart hsplit hreview hmem
  set fork := recordsBefore turnId items ++ start :: recordsOf turnId items with hfork
  obtain ⟨rest, hrest⟩ : recordsOf turnId items <+: recordsAfterStart turnId items :=
    List.takeWhile_prefix _
  have htake : fork = items.take fork.length := by
    refine List.prefix_iff_eq_take.mp ⟨rest, ?_⟩
    rw [hfork, append_assoc, cons_append, hrest, ← hsplit]
  have hle : fork.length ≤ items.length := by
    rw [htake, length_take]
    exact Nat.min_le_right _ _
  have hlt : absentTill r promptId turnId items < fork.length := by
    rw [htill, hfork, length_append, length_cons]
    omega
  constructor
  · rw [htake]
    exact mem_shownAt_of_lt hlt hle
  · rw [turnsBelow, turnsBelow, htake, absentTill_take hlt hle, shownAt_take hlt.le]

theorem shown_recordsBefore (hreview : NotReopened r promptId turnId items)
    (hmem : turnId ∈ shownTurnIds r promptId items) :
    shownTurnIds r promptId (recordsBefore turnId items) = turnsBelow r promptId turnId items := by
  have htake : recordsBefore turnId items = items.take (recordsBefore turnId items).length :=
    List.prefix_iff_eq_take.mp (List.takeWhile_prefix _)
  rw [turnsBelow, absentTill_eq_of_notReopened hdistinct hgenerated hstart hsplit hreview hmem,
    shownAt, ← htake]

end Cut

def plainTurn (turnId : String) : List RolloutItem :=
  [.eventMsg (.turnStarted turnId.toList []), plainPrompt "hello",
    .eventMsg (.turnComplete turnId.toList ⟨none, []⟩)]

def rolledBackThread : List RolloutItem :=
  plainTurn "1" ++ plainTurn "2" ++ plainTurn "3" ++ [.eventMsg (.threadRolledBack 1)]

theorem ne_rolloutTurnId {items : List RolloutItem}
    (h : ∀ id ∈ items.filterMap startedTurnId, id.head? ≠ some 'r') :
    ∀ id ∈ items.filterMap startedTurnId, ∀ n, id ≠ rolloutTurnId n := by
  intro id hid n heq
  have hhead := h id hid
  rw [heq] at hhead
  exact hhead rfl

def interruptedThread : List RolloutItem :=
  plainTurn "1" ++ [plainPrompt "again"] ++ plainTurn "2"

end Codex.Transcript

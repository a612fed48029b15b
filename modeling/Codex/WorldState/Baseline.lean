import Codex.WorldState.MergePatch

/-! The world-state baseline of a running session, the records that it leaves in the rollout, and
the baseline that a resumed session replays from them. -/

namespace Codex.WorldState
open Codex.Lib Option

variable {Number : Type}

/-- The sections at one rendering, with what `render_diff` makes of each. -/
structure LiveSections (Number : Type) where
  sections : Finset Text
  renderDiff : Text → Option (Value Number)

/-- A section that skips its snapshot keeps the stored one, and a null one is left out. -/
def LiveSections.renderWith (self : LiveSections Number)
    (stored : Option (WorldStateSnapshot Number)) : WorldStateSnapshot Number where
  sections := .ofFun self.sections fun id =>
    (((self.renderDiff id).map removeNullObjectFields).or
      (stored.bind (·.sections.get? id))).filter (!·.isNull)

theorem renderWith_hasNoNullFields {stored : Option (WorldStateSnapshot Number)}
    (h : ∀ snapshot ∈ stored, snapshot.HasNoNullFields) (sections : LiveSections Number) :
    (sections.renderWith stored).HasNoNullFields := by
  refine hasNoNullFields_ofFun fun id _ value hvalue => ?_
  rw [mem_def, filter_eq_some_iff, or_eq_some_iff, map_eq_some_iff, bind_eq_some_iff] at hvalue
  obtain ⟨⟨rendered, _, rfl⟩ | ⟨_, snapshot, hsnapshot, hstored⟩, hnull⟩ := hvalue
  · exact ⟨by simpa using hnull, hasNoNullFields_removeNullObjectFields rendered⟩
  · exact hasNoNullFields_ofMap.mp (h snapshot hsnapshot) id value hstored

/-- Of the extension for skills, the only one that keeps anything. -/
def retainWorldStateAfterCompaction (previous : Map Number) : Option (WorldStateSnapshot Number) :=
  let allocation := ((previous.get? "cloud_skills".toList).bind (·.asObject)).bind
    (·.get? "allocation".toList)
  allocation.map fun allocation => ⟨.ofFun {"cloud_skills".toList} fun _ =>
    some (.ofMap (.ofFun {"allocation".toList} fun _ => some allocation))⟩

theorem retained_hasNoNullFields {previous retained : WorldStateSnapshot Number}
    (h : previous.HasNoNullFields)
    (hretained : retainWorldStateAfterCompaction previous.sections = some retained) :
    retained.HasNoNullFields := by
  obtain ⟨allocation, hallocation, rfl⟩ := map_eq_some_iff.mp hretained
  obtain ⟨fields, hfields, hget⟩ := bind_eq_some_iff.mp hallocation
  obtain ⟨value, hvalue, hobject⟩ := bind_eq_some_iff.mp hfields
  obtain ⟨_, hskills⟩ := hasNoNullFields_ofMap.mp h _ value hvalue
  have hinner : HasNoNullFields (.ofMap fields) := by
    cases value <;> cases hobject
    exact hskills
  refine hasNoNullFields_ofFun fun _ _ value hvalue => ?_
  cases hvalue
  refine ⟨rfl, hasNoNullFields_ofFun fun _ _ value hvalue => ?_⟩
  cases hvalue
  exact hasNoNullFields_ofMap.mp hinner _ _ hget

structure Session (Number : Type) where
  worldStateBaseline : Option (WorldStateSnapshot Number)
  rollout : List (WorldStateRecord Number)

inductive SessionEvent (Number : Type) where
  | initialContext (sections : LiveSections Number)
  | update (sections : LiveSections Number)
  | compact (initialContext : Option (LiveSections Number))
  | resume

def WorldStateSnapshot.full (snapshot : WorldStateSnapshot Number) : WorldStateRecord Number :=
  .worldState true snapshot.sections

variable [DecidableEq Number]

def worldStateItem (baseline : Option (WorldStateSnapshot Number))
    (snapshot : WorldStateSnapshot Number) : Option (WorldStateRecord Number) :=
  match baseline with
  | none => some snapshot.full
  | some previous => (snapshot.mergePatchFrom previous).map (.worldState false)

def Session.step (self : Session Number) : SessionEvent Number → Session Number
  | .initialContext sections =>
    let snapshot := sections.renderWith none
    ⟨some snapshot, self.rollout ++ [snapshot.full]⟩
  | .update sections =>
    let snapshot := sections.renderWith self.worldStateBaseline
    ⟨some snapshot, self.rollout ++ (worldStateItem self.worldStateBaseline snapshot).toList⟩
  | .compact initialContext =>
    let snapshot := (initialContext.map (·.renderWith none)).or
      (self.worldStateBaseline.bind (retainWorldStateAfterCompaction ·.sections))
    ⟨snapshot, self.rollout ++ .compacted :: (snapshot.map (·.full)).toList⟩
  | .resume => { self with worldStateBaseline := self.rollout.foldl replayRecord none }

def Session.run (events : List (SessionEvent Number)) : Session Number :=
  events.foldl step ⟨none, []⟩

structure Resumable (session : Session Number) : Prop where
  replay : session.rollout.foldl replayRecord none = session.worldStateBaseline
  noNull : ∀ snapshot ∈ session.worldStateBaseline, snapshot.HasNoNullFields

theorem foldl_worldStateItem {snapshot : WorldStateSnapshot Number} (h : snapshot.HasNoNullFields)
    (baseline : Option (WorldStateSnapshot Number)) :
    (worldStateItem baseline snapshot).toList.foldl replayRecord baseline = some snapshot := by
  cases baseline with
  | none => rfl
  | some previous =>
    rw [worldStateItem]
    cases hpatch : snapshot.mergePatchFrom previous with
    | none => exact congrArg some (WorldStateSnapshot.mergePatchFrom_eq_none_iff.mp hpatch)
    | some patch =>
      exact congrArg some (WorldStateSnapshot.applyMergePatch_mergePatchFrom h hpatch)

theorem Resumable.step {session : Session Number} (h : Resumable session)
    (event : SessionEvent Number) : Resumable (session.step event) := by
  have hfull (sections : LiveSections Number) : (sections.renderWith none).HasNoNullFields :=
    renderWith_hasNoNullFields (fun _ hnone => by cases hnone) sections
  cases event with
  | initialContext sections =>
    refine ⟨by simp [Session.step, replayRecord, WorldStateSnapshot.full], ?_⟩
    rintro _ ⟨⟩
    exact hfull sections
  | update sections =>
    have hsnapshot := renderWith_hasNoNullFields h.noNull sections
    refine ⟨?_, ?_⟩
    · rw [Session.step, List.foldl_append, h.replay]
      exact foldl_worldStateItem hsnapshot session.worldStateBaseline
    · rintro _ ⟨⟩
      exact hsnapshot
  | compact initialContext =>
    constructor
    · rw [Session.step, List.foldl_append, List.foldl_cons, replayRecord]
      generalize Option.or _ _ = snapshot
      cases snapshot <;> rfl
    · intro snapshot hsnapshot
      rw [mem_def, Session.step, or_eq_some_iff, map_eq_some_iff, bind_eq_some_iff] at hsnapshot
      obtain ⟨sections, _, rfl⟩ | ⟨_, previous, hprevious, hretained⟩ := hsnapshot
      · exact hfull sections
      · exact retained_hasNoNullFields (h.noNull previous hprevious) hretained
  | resume => exact ⟨rfl, fun snapshot hsnapshot => h.noNull snapshot (h.replay ▸ hsnapshot)⟩

/-- However turns, steps, compactions and resumes follow each other, replaying the rollout gives the
baseline that the session has. -/
theorem replayed_baseline_eq_live (events : List (SessionEvent Number)) :
    (Session.run events).rollout.foldl replayRecord none =
      (Session.run events).worldStateBaseline := by
  have hrun : Resumable (Session.run events) := by
    induction events using List.reverseRecOn with
    | nil => exact ⟨rfl, fun _ hnone => by cases hnone⟩
    | append_singleton events event ih =>
      rw [Session.run, List.foldl_concat]
      exact ih.step event
  exact hrun.replay

end Codex.WorldState

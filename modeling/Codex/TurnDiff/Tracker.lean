import Codex.ApplyPatch.Delta
import Mathlib.Data.List.AList

/-! `TurnDiffTracker` of `core/src/turn_diff_tracker.rs`. The hash maps are association lists; the
order in which they are walked is an argument where the source depends on it. -/

namespace Codex.TurnDiff
open Codex.Lib Codex.ApplyPatch Function

structure TrackedContent where
  content : Text
  revision : Nat
  deriving DecidableEq

structure TrackedPath (Path : Type) where
  environmentId : Text
  path : Path
  deriving DecidableEq

structure DiffCacheKey (Path : Type) where
  leftPath : TrackedPath Path
  leftRevision : Option Nat
  rightPath : TrackedPath Path
  rightRevision : Option Nat
  deriving DecidableEq

abbrev PathMap (Path β : Type) := AList fun _ : TrackedPath Path => β

structure TurnDiffTracker (Path : Type) where
  valid : Bool
  baselineByPath : PathMap Path TrackedContent
  currentByPath : PathMap Path TrackedContent
  originByCurrentPath : PathMap Path (TrackedPath Path)
  nextRevision : Nat
  renderedDiffs : AList fun _ : DiffCacheKey Path => Option Text
  unifiedDiff : Option Text

namespace TurnDiffTracker

variable {Path : Type}

def default : TurnDiffTracker Path := ⟨true, ∅, ∅, ∅, 0, ∅, none⟩

variable [DecidableEq Path]

def insertBaseline (s : TurnDiffTracker Path) (path : TrackedPath Path) (content : Text) :
    TurnDiffTracker Path :=
  { s with
    baselineByPath := s.baselineByPath.insert path ⟨content, s.nextRevision⟩
    nextRevision := s.nextRevision + 1 }

def insertCurrent (s : TurnDiffTracker Path) (path : TrackedPath Path) (content : Text) :
    TurnDiffTracker Path :=
  { s with
    currentByPath := s.currentByPath.insert path ⟨content, s.nextRevision⟩
    nextRevision := s.nextRevision + 1 }

/-- The first change of a path tells what it held before. -/
def noteBaseline (s : TurnDiffTracker Path) (path : TrackedPath Path) (content : Option Text) :
    TurnDiffTracker Path :=
  match content with
  | some content =>
    if path ∉ s.currentByPath ∧ path ∉ s.baselineByPath then s.insertBaseline path content else s
  | none => s

def removeOrigin (s : TurnDiffTracker Path) (path : TrackedPath Path) : TurnDiffTracker Path :=
  { s with originByCurrentPath := s.originByCurrentPath.erase path }

def applyAdd (s : TurnDiffTracker Path) (path : TrackedPath Path) (content : Text)
    (overwrittenContent : Option Text) : TurnDiffTracker Path :=
  ((s.removeOrigin path).noteBaseline path overwrittenContent).insertCurrent path content

def applyDelete (s : TurnDiffTracker Path) (path : TrackedPath Path) (content : Text) :
    TurnDiffTracker Path :=
  let removed := s.currentByPath.lookup path
  let s := { s with currentByPath := s.currentByPath.erase path }
  let s := if removed.isNone ∧ path ∉ s.baselineByPath then s.insertBaseline path content else s
  s.removeOrigin path

def applyUpdate (s : TurnDiffTracker Path) (sourcePath : TrackedPath Path)
    (movePath : Option (TrackedPath Path)) (oldContent : Text)
    (overwrittenMoveContent : Option Text) (newContent : Text) : TurnDiffTracker Path :=
  let s := s.noteBaseline sourcePath (some oldContent)
  match movePath with
  | some destPath =>
    let s := s.noteBaseline destPath overwrittenMoveContent
    -- a file that was moved before keeps the path that it had at first
    let origin := (s.originByCurrentPath.lookup sourcePath).getD sourcePath
    let s := s.removeOrigin sourcePath
    let s := { s with currentByPath := s.currentByPath.erase sourcePath }
    let s := (s.insertCurrent destPath newContent).removeOrigin destPath
    if destPath ≠ origin then
      { s with originByCurrentPath := s.originByCurrentPath.insert destPath origin }
    else s
  | none => s.insertCurrent sourcePath newContent

def tracked (environmentId : Text) (change : AppliedPatchChange Path) :
    AppliedPatchChange (TrackedPath Path) where
  path := ⟨environmentId, change.path⟩
  change := match change.change with
    | .add content overwritten => .add content overwritten
    | .delete content => .delete content
    | .update movePath oldContent overwritten newContent =>
      .update (movePath.map (TrackedPath.mk environmentId)) oldContent overwritten newContent

def applyTracked (s : TurnDiffTracker Path) (change : AppliedPatchChange (TrackedPath Path)) :
    TurnDiffTracker Path :=
  match change.change with
  | .add content overwritten => s.applyAdd change.path content overwritten
  | .delete content => s.applyDelete change.path content
  | .update movePath oldContent overwritten newContent =>
    s.applyUpdate change.path movePath oldContent overwritten newContent

def applyChange (s : TurnDiffTracker Path) (environmentId : Text)
    (change : AppliedPatchChange Path) : TurnDiffTracker Path :=
  s.applyTracked (tracked environmentId change)

def baseline (s : TurnDiffTracker Path) (path : TrackedPath Path) : Option Text :=
  (s.baselineByPath.lookup path).map (·.content)

def current (s : TurnDiffTracker Path) (path : TrackedPath Path) : Option Text :=
  (s.currentByPath.lookup path).map (·.content)

def IsTracked (s : TurnDiffTracker Path) (path : TrackedPath Path) : Prop :=
  path ∈ s.baselineByPath ∨ path ∈ s.currentByPath

theorem map_lookup_insert (m : PathMap Path TrackedContent) (path : TrackedPath Path)
    (content : TrackedContent) :
    (fun p => ((m.insert path content).lookup p).map (·.content)) =
      update (fun p => (m.lookup p).map (·.content)) path (some content.content) := by
  funext p
  by_cases hp : p = path
  · subst hp
    simp
  · rw [update_of_ne hp, AList.lookup_insert_ne hp]

theorem map_lookup_erase (m : PathMap Path TrackedContent) (path : TrackedPath Path) :
    (fun p => ((m.erase path).lookup p).map (·.content)) =
      update (fun p => (m.lookup p).map (·.content)) path none := by
  funext p
  by_cases hp : p = path
  · subst hp
    simp
  · rw [update_of_ne hp, AList.lookup_erase_ne hp]

theorem baseline_eq_none_iff {s : TurnDiffTracker Path} {path : TrackedPath Path} :
    s.baseline path = none ↔ path ∉ s.baselineByPath := by
  rw [baseline, Option.map_eq_none_iff, AList.lookup_eq_none]

theorem current_eq_none_iff {s : TurnDiffTracker Path} {path : TrackedPath Path} :
    s.current path = none ↔ path ∉ s.currentByPath := by
  rw [current, Option.map_eq_none_iff, AList.lookup_eq_none]

variable (s : TurnDiffTracker Path) (path : TrackedPath Path) (content : Text)

@[simp] theorem baseline_insertBaseline :
    (s.insertBaseline path content).baseline = update s.baseline path (some content) :=
  map_lookup_insert s.baselineByPath path _

@[simp] theorem current_insertBaseline : (s.insertBaseline path content).current = s.current := rfl

@[simp] theorem baseline_insertCurrent : (s.insertCurrent path content).baseline = s.baseline := rfl

@[simp] theorem current_insertCurrent :
    (s.insertCurrent path content).current = update s.current path (some content) :=
  map_lookup_insert s.currentByPath path _

@[simp] theorem baseline_removeOrigin : (s.removeOrigin path).baseline = s.baseline := rfl

@[simp] theorem current_removeOrigin : (s.removeOrigin path).current = s.current := rfl

theorem current_erase :
    current { s with currentByPath := s.currentByPath.erase path } = update s.current path none :=
  map_lookup_erase s.currentByPath path

theorem baseline_noteBaseline (content : Option Text) :
    (s.noteBaseline path content).baseline =
      if s.current path = none ∧ s.baseline path = none then
        update s.baseline path content
      else s.baseline := by
  simp only [current_eq_none_iff, baseline_eq_none_iff]
  cases content with
  | none =>
    split
    · next h =>
      have hnone : update s.baseline path none = s.baseline := by
        nth_rewrite 1 [← baseline_eq_none_iff.mpr h.2]
        exact update_eq_self path s.baseline
      exact hnone.symm
    · rfl
  | some content =>
    simp only [noteBaseline]
    split
    · exact baseline_insertBaseline s path content
    · rfl

@[simp] theorem current_noteBaseline (content : Option Text) :
    (s.noteBaseline path content).current = s.current := by
  cases content with
  | none => rfl
  | some content =>
    simp only [noteBaseline]
    split <;> rfl

variable {s path}
variable {before after : Files (TrackedPath Path)}

/-- A tracked path has its content of before and its content of now; one that is not tracked has
not changed. -/
structure Nets (before after : Files (TrackedPath Path)) (s : TurnDiffTracker Path) : Prop where
  tracked : ∀ p, s.IsTracked p → s.baseline p = before p ∧ s.current p = after p
  untracked : ∀ p, ¬ s.IsTracked p → before p = after p

theorem isTracked_iff {p : TrackedPath Path} :
    s.IsTracked p ↔ ¬ (s.current p = none ∧ s.baseline p = none) := by
  rw [current_eq_none_iff, baseline_eq_none_iff, IsTracked]
  tauto

theorem nets_default (files : Files (TrackedPath Path)) : Nets files files default where
  tracked := fun p h => h.elim (fun h => absurd h (AList.notMem_empty p))
    (fun h => absurd h (AList.notMem_empty p))
  untracked := fun _ _ => rfl

theorem nets_of_forall (h : ∀ p, s.baseline p = before p ∧ s.current p = after p ∨
    (¬ s.IsTracked p ∧ before p = after p)) : Nets before after s where
  tracked := by
    intro p hp
    rcases h p with hcontents | ⟨hnot, _⟩
    · exact hcontents
    · exact absurd hp hnot
  untracked := by
    intro p hp
    rcases h p with ⟨hbaseline, hcurrent⟩ | ⟨_, hsame⟩
    · rw [isTracked_iff, not_not] at hp
      rw [← hbaseline, ← hcurrent, hp.1, hp.2]
    · exact hsame

theorem Nets.baseline_noteBaseline {content : Option Text} (h : Nets before after s)
    (hcontent : after path = content) :
    (s.noteBaseline path content).baseline path = before path := by
  rw [TurnDiffTracker.baseline_noteBaseline]
  split
  · next hnone =>
    have huntracked : ¬ s.IsTracked path := by
      rw [isTracked_iff, not_not]
      exact hnone
    rw [update_self, ← hcontent, h.untracked path huntracked]
  · next hsome => exact (h.tracked path (isTracked_iff.mpr hsome)).1

open TurnDiffTracker

theorem baseline_noteBaseline_of_ne {p : TrackedPath Path} (content : Option Text)
    (hp : p ≠ path) : (s.noteBaseline path content).baseline p = s.baseline p := by
  rw [baseline_noteBaseline]
  split
  · exact update_of_ne hp _ _
  · rfl

theorem Nets.of_untouched {s' : TurnDiffTracker Path} {p : TrackedPath Path}
    {after' : Files (TrackedPath Path)} (h : Nets before after s)
    (hbaseline : s'.baseline p = s.baseline p) (hcurrent : s'.current p = s.current p)
    (hafter : after' p = after p) :
    s'.baseline p = before p ∧ s'.current p = after' p ∨
      (¬ s'.IsTracked p ∧ before p = after' p) := by
  rw [isTracked_iff, hbaseline, hcurrent, hafter, ← isTracked_iff]
  by_cases hp : s.IsTracked p
  · exact .inl (h.tracked p hp)
  · exact .inr ⟨hp, h.untracked p hp⟩

theorem Nets.applyAdd {content : Text} {overwritten : Option Text} (h : Nets before after s)
    (hrecorded : after path = overwritten) :
    Nets before (update after path (some content)) (s.applyAdd path content overwritten) := by
  have hremoved : Nets before after (s.removeOrigin path) := ⟨h.tracked, h.untracked⟩
  apply nets_of_forall
  intro p
  by_cases hp : p = path
  · subst hp
    left
    simp only [TurnDiffTracker.applyAdd, baseline_insertCurrent, current_insertCurrent,
      update_self, and_true]
    exact hremoved.baseline_noteBaseline hrecorded
  · apply h.of_untouched
    · exact baseline_noteBaseline_of_ne overwritten hp
    · simp [TurnDiffTracker.applyAdd, update_of_ne hp]
    · exact update_of_ne hp _ _

theorem baseline_applyDelete (s : TurnDiffTracker Path) (path : TrackedPath Path) (content : Text) :
    (s.applyDelete path content).baseline = (s.noteBaseline path (some content)).baseline := by
  simp only [applyDelete, noteBaseline, Option.isNone_iff_eq_none,
    AList.lookup_eq_none, baseline_removeOrigin]
  split
  · simp only [baseline_insertBaseline]
    rfl
  · rfl

theorem current_applyDelete (s : TurnDiffTracker Path) (path : TrackedPath Path) (content : Text) :
    (s.applyDelete path content).current = update s.current path none := by
  simp only [applyDelete, current_removeOrigin]
  split
  · rw [current_insertBaseline, current_erase]
  · exact current_erase s path

theorem Nets.applyDelete {content : Text} (h : Nets before after s)
    (hrecorded : after path = some content) :
    Nets before (update after path none) (s.applyDelete path content) := by
  apply nets_of_forall
  intro p
  rw [baseline_applyDelete, current_applyDelete]
  by_cases hp : p = path
  · subst hp
    left
    simp only [update_self, and_true]
    exact h.baseline_noteBaseline hrecorded
  · rw [← baseline_applyDelete, ← current_applyDelete s path content]
    apply h.of_untouched
    · rw [baseline_applyDelete]
      exact baseline_noteBaseline_of_ne _ hp
    · rw [current_applyDelete]
      exact update_of_ne hp _ _
    · exact update_of_ne hp _ _

theorem Nets.applyUpdate_inPlace {oldContent newContent : Text} (overwritten : Option Text)
    (h : Nets before after s) (hrecorded : after path = some oldContent) :
    Nets before (update after path (some newContent))
      (s.applyUpdate path none oldContent overwritten newContent) := by
  apply nets_of_forall
  intro p
  by_cases hp : p = path
  · subst hp
    left
    simp only [applyUpdate, baseline_insertCurrent, current_insertCurrent, update_self, and_true]
    exact h.baseline_noteBaseline hrecorded
  · apply h.of_untouched
    · exact baseline_noteBaseline_of_ne (some oldContent) hp
    · simp [applyUpdate, update_of_ne hp]
    · exact update_of_ne hp _ _

theorem baseline_applyUpdate_move (s : TurnDiffTracker Path) (path dest : TrackedPath Path)
    (oldContent newContent : Text) (overwritten : Option Text) :
    (s.applyUpdate path (some dest) oldContent overwritten newContent).baseline =
      ((s.noteBaseline path (some oldContent)).noteBaseline dest overwritten).baseline := by
  simp only [applyUpdate]
  split <;> rfl

theorem current_applyUpdate_move (s : TurnDiffTracker Path) (path dest : TrackedPath Path)
    (oldContent newContent : Text) (overwritten : Option Text) :
    (s.applyUpdate path (some dest) oldContent overwritten newContent).current =
      update (update s.current path none) dest (some newContent) := by
  have hinserted : ∀ t : TurnDiffTracker Path, t.current = s.current →
      (({ t.removeOrigin path with
        currentByPath := (t.removeOrigin path).currentByPath.erase path } :
          TurnDiffTracker Path).insertCurrent dest newContent).current =
        update (update s.current path none) dest (some newContent) := by
    intro t ht
    rw [current_insertCurrent, current_erase, current_removeOrigin, ht]
  have hnoted : ((s.noteBaseline path (some oldContent)).noteBaseline dest overwritten).current =
      s.current := by
    rw [current_noteBaseline, current_noteBaseline]
  simp only [applyUpdate]
  split
  · exact hinserted _ hnoted
  · exact hinserted _ hnoted

theorem Nets.applyUpdate_move {dest : TrackedPath Path} {oldContent newContent : Text}
    {overwritten : Option Text} (h : Nets before after s) (hmoved : dest ≠ path)
    (hrecorded : after path = some oldContent) (hdest : after dest = overwritten) :
    Nets before (update (update after dest (some newContent)) path none)
      (s.applyUpdate path (some dest) oldContent overwritten newContent) := by
  apply nets_of_forall
  intro p
  rw [baseline_applyUpdate_move, current_applyUpdate_move]
  by_cases hp : p = path
  · subst hp
    left
    rw [baseline_noteBaseline_of_ne overwritten hmoved.symm, h.baseline_noteBaseline hrecorded]
    simp [update_of_ne hmoved.symm]
  · by_cases hd : p = dest
    · subst hd
      left
      have hnoted : ((s.noteBaseline path (some oldContent)).noteBaseline p overwritten).baseline p
          = (s.noteBaseline p overwritten).baseline p := by
        simp only [TurnDiffTracker.baseline_noteBaseline _ p, current_noteBaseline,
          baseline_noteBaseline_of_ne (some oldContent) hp]
        split
        · rw [update_self, update_self]
        · exact baseline_noteBaseline_of_ne (some oldContent) hp
      rw [hnoted, h.baseline_noteBaseline hdest]
      simp [update_of_ne hp]
    · rw [← baseline_applyUpdate_move s path dest oldContent newContent,
        ← current_applyUpdate_move s path dest oldContent newContent overwritten]
      apply h.of_untouched
      · rw [baseline_applyUpdate_move, baseline_noteBaseline_of_ne overwritten hd]
        exact baseline_noteBaseline_of_ne _ hp
      · rw [current_applyUpdate_move, update_of_ne hd, update_of_ne hp]
      · rw [update_of_ne hp, update_of_ne hd]

def MovesAway (change : AppliedPatchChange (TrackedPath Path)) : Prop :=
  match change.change with
  | .update (some dest) _ _ _ => dest ≠ change.path
  | _ => True

theorem Nets.applyTracked {change : AppliedPatchChange (TrackedPath Path)}
    (h : Nets before after s) (hrecords : Records after change) (hmoves : MovesAway change) :
    Nets before (ApplyPatch.applyChange after change) (s.applyTracked change) := by
  obtain ⟨path, change⟩ := change
  cases change with
  | add content overwritten => exact h.applyAdd hrecords
  | delete content => exact h.applyDelete hrecords
  | update movePath oldContent overwritten newContent =>
    cases movePath with
    | none => exact h.applyUpdate_inPlace overwritten hrecords
    | some dest => exact h.applyUpdate_move hmoves hrecords.1 hrecords.2

theorem Nets.foldl_applyTracked {changes : List (AppliedPatchChange (TrackedPath Path))}
    (h : Nets before after s) (hfaithful : Faithful after changes)
    (hmoves : ∀ change ∈ changes, MovesAway change) :
    Nets before (replay after changes) (changes.foldl TurnDiffTracker.applyTracked s) := by
  induction changes generalizing after s with
  | nil => exact h
  | cons change changes ih =>
    obtain ⟨hrecords, hrest⟩ := hfaithful
    have hstep := h.applyTracked hrecords (hmoves change List.mem_cons_self)
    exact ih hstep hrest fun c hc => hmoves c (List.mem_cons_of_mem _ hc)

end TurnDiffTracker

end Codex.TurnDiff

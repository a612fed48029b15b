import Codex.Lib.Memo
import Codex.TurnDiff.NetDiff

/-! `refresh_unified_diff` takes the diffs of the last time by their paths and revisions. A revision
is given out once, so it stands for one content in the maps of the tracker and in the cache. A text
of the cache is what `render_diff` gave for these contents at an earlier moment. -/

namespace Codex.TurnDiff
open Codex.Lib Codex.ApplyPatch Function AList

variable {Path : Type}

namespace DiffCacheKey

def render (r : Rendering Path) (moment : Nat) (contents : Nat → Text) (key : DiffCacheKey Path) :
    Option Text :=
  TurnDiffTracker.renderDiff r moment key.leftPath (key.leftRevision.map contents) key.rightPath
    (key.rightRevision.map contents)

def Rendered (r : Rendering Path) (moments : List Nat) (contents : Nat → Text)
    (key : DiffCacheKey Path) (text : Option Text) : Prop :=
  ∃ moment ∈ moments, text = key.render r moment contents

def IsIssued (next : Nat) (key : DiffCacheKey Path) : Prop :=
  (∀ revision, key.leftRevision = some revision → revision < next) ∧
    ∀ revision, key.rightRevision = some revision → revision < next

theorem IsIssued.succ {next : Nat} {key : DiffCacheKey Path} (h : key.IsIssued next) :
    key.IsIssued (next + 1) :=
  ⟨fun v hv => Nat.lt_succ_of_lt (h.1 v hv), fun v hv => Nat.lt_succ_of_lt (h.2 v hv)⟩

theorem render_issue {contents : Nat → Text} {next : Nat} {key : DiffCacheKey Path}
    (h : key.IsIssued next) (r : Rendering Path) (moment : Nat) (content : Text) :
    key.render r moment (update contents next content) = key.render r moment contents := by
  have hmap : ∀ revision : Option Nat, (∀ v, revision = some v → v < next) →
      revision.map (update contents next content) = revision.map contents := by
    intro revision hlt
    cases revision with
    | none => rfl
    | some v => exact congrArg some (update_of_ne (hlt v rfl).ne _ _)
  rw [render, render, hmap _ h.1, hmap _ h.2]

end DiffCacheKey

variable [DecidableEq Path]

def Known (contents : Nat → Text) (next : Nat) (tracked : TrackedContent) : Prop :=
  tracked.revision < next ∧ contents tracked.revision = tracked.content

theorem Known.issue {contents : Nat → Text} {next : Nat} {tracked : TrackedContent}
    (h : Known contents next tracked) (content : Text) :
    Known (update contents next content) (next + 1) tracked :=
  ⟨Nat.lt_succ_of_lt h.1, (update_of_ne h.1.ne _ _).trans h.2⟩

theorem known_issued (contents : Nat → Text) (next : Nat) (content : Text) :
    Known (update contents next content) (next + 1) ⟨content, next⟩ :=
  ⟨Nat.lt_succ_self next, update_self _ _ _⟩

def AllKnown (contents : Nat → Text) (next : Nat) (m : PathMap Path TrackedContent) : Prop :=
  ∀ p tracked, m.lookup p = some tracked → Known contents next tracked

namespace AllKnown
variable {contents : Nat → Text} {next : Nat} {m : PathMap Path TrackedContent}

section
variable (h : AllKnown contents next m)
include h

theorem issue (content : Text) : AllKnown (update contents next content) (next + 1) m :=
  fun p tracked hp => (h p tracked hp).issue content

theorem insert (path : TrackedPath Path) (content : Text) :
    AllKnown (update contents next content) (next + 1) (m.insert path ⟨content, next⟩) := by
  intro p tracked hp
  by_cases hpath : p = path
  · subst hpath
    rw [lookup_insert] at hp
    rw [← Option.some.inj hp]
    exact known_issued contents next content
  · rw [lookup_insert_ne hpath] at hp
    exact h.issue content p tracked hp

theorem erase (path : TrackedPath Path) : AllKnown contents next (m.erase path) := by
  intro p tracked hp
  by_cases hpath : p = path
  · subst hpath
    rw [lookup_erase] at hp
    cases hp
  · rw [lookup_erase_ne hpath] at hp
    exact h p tracked hp

theorem map_revision (p : TrackedPath Path) :
    ((m.lookup p).map (·.revision)).map contents = (m.lookup p).map (·.content) := by
  cases hp : m.lookup p with
  | none => rfl
  | some tracked => exact congrArg some (h p tracked hp).2

theorem revision_lt {p : TrackedPath Path} {revision : Nat}
    (hp : (m.lookup p).map (·.revision) = some revision) : revision < next := by
  obtain ⟨tracked, hlookup, rfl⟩ := Option.map_eq_some_iff.mp hp
  exact (h p tracked hlookup).1

end

end AllKnown

namespace TurnDiffTracker

/-- Every revision in the maps and in the cache stands for the one content that it has. -/
structure Consistent (r : Rendering Path) (moments : List Nat) (contents : Nat → Text)
    (s : TurnDiffTracker Path) : Prop where
  baseline : AllKnown contents s.nextRevision s.baselineByPath
  current : AllKnown contents s.nextRevision s.currentByPath
  issued : ∀ key ∈ s.renderedDiffs, key.IsIssued s.nextRevision
  cached : Memo.Sound (DiffCacheKey.Rendered r moments contents) s.renderedDiffs

def IsConsistent (r : Rendering Path) (moments : List Nat) (s : TurnDiffTracker Path) : Prop :=
  ∃ contents, s.Consistent r moments contents

section Changes
variable {r : Rendering Path} {moments : List Nat} {s : TurnDiffTracker Path}

theorem isConsistent_default (r : Rendering Path) (moments : List Nat) :
    (default : TurnDiffTracker Path).IsConsistent r moments := by
  have hempty : AllKnown (fun _ => []) 0 (∅ : PathMap Path TrackedContent) := by
    intro p tracked hp
    rw [lookup_empty] at hp
    cases hp
  exact ⟨_, hempty, hempty, fun key hkey => absurd hkey (notMem_empty key), Memo.sound_empty _⟩

theorem Consistent.cached_issue {contents : Nat → Text} (h : s.Consistent r moments contents)
    (content : Text) :
    Memo.Sound (DiffCacheKey.Rendered r moments (update contents s.nextRevision content))
      s.renderedDiffs := by
  refine h.cached.mono fun key hkey text => ?_
  rintro ⟨moment, hmoment, rfl⟩
  exact ⟨moment, hmoment, (DiffCacheKey.render_issue (h.issued key hkey) r moment content).symm⟩

section
variable (h : s.IsConsistent r moments)
include h

theorem IsConsistent.insertBaseline (path : TrackedPath Path) (content : Text) :
    (s.insertBaseline path content).IsConsistent r moments := by
  obtain ⟨contents, h⟩ := h
  exact ⟨_, h.baseline.insert path content, h.current.issue content,
    fun key hkey => (h.issued key hkey).succ, h.cached_issue content⟩

theorem IsConsistent.insertCurrent (path : TrackedPath Path) (content : Text) :
    (s.insertCurrent path content).IsConsistent r moments := by
  obtain ⟨contents, h⟩ := h
  exact ⟨_, h.baseline.issue content, h.current.insert path content,
    fun key hkey => (h.issued key hkey).succ, h.cached_issue content⟩

theorem IsConsistent.eraseCurrent (path : TrackedPath Path) :
    IsConsistent r moments { s with currentByPath := s.currentByPath.erase path } := by
  obtain ⟨contents, h⟩ := h
  exact ⟨contents, h.baseline, h.current.erase path, h.issued, h.cached⟩

theorem IsConsistent.withOrigins (origins : PathMap Path (TrackedPath Path)) :
    IsConsistent r moments { s with originByCurrentPath := origins } := by
  obtain ⟨contents, h⟩ := h
  exact ⟨contents, h.baseline, h.current, h.issued, h.cached⟩

theorem IsConsistent.noteBaseline (path : TrackedPath Path) (content : Option Text) :
    (s.noteBaseline path content).IsConsistent r moments := by
  cases content with
  | none => exact h
  | some content =>
    rw [TurnDiffTracker.noteBaseline]
    split
    · exact h.insertBaseline path content
    · exact h

theorem IsConsistent.applyDelete (path : TrackedPath Path) (content : Text) :
    (s.applyDelete path content).IsConsistent r moments := by
  unfold TurnDiffTracker.applyDelete
  apply IsConsistent.withOrigins
  split
  · exact (h.eraseCurrent path).insertBaseline path content
  · exact h.eraseCurrent path

theorem IsConsistent.applyUpdate (sourcePath : TrackedPath Path)
    (movePath : Option (TrackedPath Path)) (oldContent : Text)
    (overwrittenMoveContent : Option Text) (newContent : Text) :
    (s.applyUpdate sourcePath movePath oldContent overwrittenMoveContent
      newContent).IsConsistent r moments := by
  have hsource := h.noteBaseline sourcePath (some oldContent)
  cases movePath with
  | none => exact hsource.insertCurrent sourcePath newContent
  | some destPath =>
    have hdest := hsource.noteBaseline destPath overwrittenMoveContent
    have hmoved := ((hdest.eraseCurrent sourcePath).insertCurrent destPath newContent).withOrigins
    simp only [TurnDiffTracker.applyUpdate]
    split
    · exact hmoved _
    · exact hmoved _

theorem IsConsistent.applyChange (environmentId : Text) (change : AppliedPatchChange Path) :
    (s.applyChange environmentId change).IsConsistent r moments := by
  unfold TurnDiffTracker.applyChange applyTracked
  split
  · exact ((h.withOrigins _).noteBaseline _ _).insertCurrent _ _
  · exact h.applyDelete _ _
  · exact h.applyUpdate _ _ _ _ _

theorem IsConsistent.applyChanges (environmentId : Text)
    (changes : List (AppliedPatchChange Path)) :
    (changes.foldl (fun s change => s.applyChange environmentId change) s).IsConsistent r
      moments := by
  induction changes generalizing s with
  | nil => exact h
  | cons change changes ih => exact ih (h.applyChange environmentId change)

end

theorem valid_noteBaseline (path : TrackedPath Path) (content : Option Text) :
    (s.noteBaseline path content).valid = s.valid := by
  cases content with
  | none => rfl
  | some content =>
    rw [noteBaseline]
    split <;> rfl

theorem valid_applyChange (environmentId : Text) (change : AppliedPatchChange Path) :
    (s.applyChange environmentId change).valid = s.valid := by
  unfold applyChange applyTracked
  split
  · exact valid_noteBaseline (s := s.removeOrigin _) _ _
  · unfold applyDelete
    simp only
    split <;> rfl
  · unfold applyUpdate
    simp only
    split
    · split
      · exact (valid_noteBaseline _ _).trans (valid_noteBaseline _ _)
      · exact (valid_noteBaseline _ _).trans (valid_noteBaseline _ _)
    · exact valid_noteBaseline _ _

theorem valid_applyChanges (environmentId : Text) (changes : List (AppliedPatchChange Path)) :
    (changes.foldl (fun s change => s.applyChange environmentId change) s).valid = s.valid := by
  induction changes generalizing s with
  | nil => rfl
  | cons change changes ih => exact ih.trans (valid_applyChange environmentId change)

end Changes

def freshPair (r : Rendering Path) (moment : Nat) (s : TurnDiffTracker Path)
    (pair : TrackedPath Path × TrackedPath Path) : Option Text :=
  renderDiff r moment pair.1 (s.baseline pair.1) pair.2 (s.current pair.2)

def unified (texts : List (Option Text)) : Option Text :=
  let aggregated := texts.foldl aggregate []
  if aggregated.isEmpty then none else some aggregated

def freshDiff (r : Rendering Path) (moment : Nat) (s : TurnDiffTracker Path)
    (order : IterationOrder s) : Option Text :=
  unified ((s.diffPairs r order).map (s.freshPair r moment))

/-- A text for each pair, which `render_diff` gave for its contents at one of the moments. -/
def Texts (r : Rendering Path) (moments : List Nat) (s : TurnDiffTracker Path) :
    List (TrackedPath Path × TrackedPath Path) → List (Option Text) → Prop :=
  List.Forall₂ fun pair text => ∃ moment ∈ moments, text = s.freshPair r moment pair

section Refresh
variable {r : Rendering Path} {moments : List Nat} {moment : Nat} {s : TurnDiffTracker Path}
  {contents : Nat → Text}

def cacheKey (s : TurnDiffTracker Path) (pair : TrackedPath Path × TrackedPath Path) :
    DiffCacheKey Path :=
  ⟨pair.1, (s.baselineByPath.lookup pair.1).map (·.revision), pair.2,
    (s.currentByPath.lookup pair.2).map (·.revision)⟩

theorem Consistent.render_cacheKey (h : s.Consistent r moments contents) (moment : Nat)
    (pair : TrackedPath Path × TrackedPath Path) :
    (s.cacheKey pair).render r moment contents = s.freshPair r moment pair := by
  rw [DiffCacheKey.render, cacheKey, h.baseline.map_revision, h.current.map_revision]
  rfl

theorem Consistent.isIssued_cacheKey (h : s.Consistent r moments contents)
    (pair : TrackedPath Path × TrackedPath Path) : (s.cacheKey pair).IsIssued s.nextRevision :=
  ⟨fun _ => h.baseline.revision_lt, fun _ => h.current.revision_lt⟩

structure RenderState.Good (r : Rendering Path) (moments : List Nat) (contents : Nat → Text)
    (next : Nat) (state : RenderState Path) : Prop where
  previous : Memo.Sound (DiffCacheKey.Rendered r moments contents) state.previousDiffs
  issued : ∀ key ∈ state.renderedDiffs, key.IsIssued next
  rendered : Memo.Sound (DiffCacheKey.Rendered r moments contents) state.renderedDiffs

theorem Consistent.renderPair (h : s.Consistent r moments contents) (hmoment : moment ∈ moments)
    {state : RenderState Path} (hstate : state.Good r moments contents s.nextRevision)
    (pair : TrackedPath Path × TrackedPath Path) :
    (renderPair r moment s state pair).Good r moments contents s.nextRevision ∧
      ∃ text, (∃ m ∈ moments, text = s.freshPair r m pair) ∧
        (renderPair r moment s state pair).aggregated = aggregate state.aggregated text := by
  have hfresh : (s.cacheKey pair).Rendered r moments contents (s.freshPair r moment pair) :=
    ⟨moment, hmoment, (h.render_cacheKey moment pair).symm⟩
  have hvalue := hstate.previous.lookup_getD hfresh
  refine ⟨⟨hstate.previous.erase _, fun key hkey => ?_, hstate.rendered.insert hvalue⟩, ?_⟩
  · rcases (mem_insert _).mp hkey with rfl | hkey
    · exact h.isIssued_cacheKey pair
    · exact hstate.issued key hkey
  · obtain ⟨m, hm, hrender⟩ := hvalue
    exact ⟨_, ⟨m, hm, hrender.trans (h.render_cacheKey m pair)⟩, rfl⟩

theorem Consistent.foldl_renderPair (h : s.Consistent r moments contents)
    (hmoment : moment ∈ moments) {state : RenderState Path}
    (hstate : state.Good r moments contents s.nextRevision)
    (pairs : List (TrackedPath Path × TrackedPath Path)) :
    let final := pairs.foldl (TurnDiffTracker.renderPair r moment s) state
    final.Good r moments contents s.nextRevision ∧
      ∃ texts, Texts r moments s pairs texts ∧
        final.aggregated = texts.foldl aggregate state.aggregated := by
  induction pairs generalizing state with
  | nil => exact ⟨hstate, [], .nil, rfl⟩
  | cons pair pairs ih =>
    obtain ⟨hgood, text, htext, haggregated⟩ := h.renderPair hmoment hstate pair
    obtain ⟨hfinal, texts, htexts, hrest⟩ := ih hgood
    refine ⟨hfinal, text :: texts, .cons htext htexts, ?_⟩
    rw [haggregated] at hrest
    exact hrest

theorem IsConsistent.refreshUnifiedDiff (h : s.IsConsistent r moments) (hmoment : moment ∈ moments)
    (order : IterationOrder s) :
    (s.refreshUnifiedDiff r moment order).IsConsistent r moments ∧
      ∃ texts, Texts r moments s (s.diffPairs r order) texts ∧
        (s.refreshUnifiedDiff r moment order).unifiedDiff = unified texts := by
  obtain ⟨contents, h⟩ := h
  have hstart : RenderState.Good r moments contents s.nextRevision ⟨s.renderedDiffs, ∅, []⟩ :=
    ⟨h.cached, fun key hkey => absurd hkey (notMem_empty key), Memo.sound_empty _⟩
  obtain ⟨hgood, texts, htexts, haggregated⟩ :=
    h.foldl_renderPair hmoment hstart (s.diffPairs r order)
  refine ⟨⟨contents, h.baseline, h.current, hgood.issued, hgood.rendered⟩, texts, htexts, ?_⟩
  rw [TurnDiffTracker.refreshUnifiedDiff, unified]
  simp only [haggregated]

end Refresh

inductive Call (Path : Type) where
  | trackDelta (moment : Nat) (environmentId : Text) (delta : AppliedPatchDelta Path)
  | invalidate

def Call.moment? : Call Path → Option Nat
  | .trackDelta moment _ _ => some moment
  | .invalidate => none

section Runs
variable (r : Rendering Path) (order : ∀ s : TurnDiffTracker Path, IterationOrder s)

def call (s : TurnDiffTracker Path) : Call Path → TurnDiffTracker Path
  | .trackDelta moment environmentId delta => s.trackDelta r order moment environmentId delta
  | .invalidate => s.invalidate

def run (calls : List (Call Path)) : TurnDiffTracker Path := calls.foldl (call r order) default

variable {r order} {moments : List Nat}

theorem IsConsistent.call {s : TurnDiffTracker Path} (h : s.IsConsistent r moments) {c : Call Path}
    (hc : ∀ moment ∈ c.moment?, moment ∈ moments) : (s.call r order c).IsConsistent r moments := by
  have hinvalidate : s.invalidate.IsConsistent r moments := by
    obtain ⟨contents, h⟩ := h
    exact ⟨contents, h.baseline, h.current, fun key hkey => absurd hkey (notMem_empty key),
      Memo.sound_empty _⟩
  cases c with
  | invalidate => exact hinvalidate
  | trackDelta moment environmentId delta =>
    rw [TurnDiffTracker.call, trackDelta]
    split
    · exact h
    · split
      · exact hinvalidate
      · exact ((h.applyChanges environmentId delta.changes).refreshUnifiedDiff (hc moment rfl) _).1

theorem isConsistent_run (calls : List (Call Path)) :
    (calls.filterMap Call.moment? ⊆ moments) → (run r order calls).IsConsistent r moments := by
  intro hmoments
  refine List.foldlRecOn calls _ (isConsistent_default r moments) fun _ h c hc => h.call ?_
  exact fun moment hmoment => hmoments (List.mem_filterMap.mpr ⟨c, hc, hmoment⟩)

theorem unifiedDiff_run (calls : List (Call Path)) :
    (run r order calls).valid = false → (run r order calls).unifiedDiff = none := by
  refine List.foldlRecOn
    (motive := fun s : TurnDiffTracker Path => s.valid = false → s.unifiedDiff = none)
    calls _ (fun _ => rfl) fun s hs c _ => ?_
  cases c with
  | invalidate => exact fun _ => rfl
  | trackDelta moment environmentId delta =>
    rw [TurnDiffTracker.call, trackDelta]
    split
    · exact hs
    · split
      · exact fun _ => rfl
      · next hvalid _ =>
        intro hinvalid
        rw [Bool.not_eq_true, Bool.not_eq_false'] at hvalid
        rw [refreshUnifiedDiff, valid_applyChanges, hvalid] at hinvalid
        cases hinvalid

theorem Texts.eq_map {s : TurnDiffTracker Path} {moment : Nat}
    {pairs : List (TrackedPath Path × TrackedPath Path)} {texts : List (Option Text)}
    (h : Texts r moments s pairs texts)
    (hsteady : ∀ pair ∈ pairs, ∀ m ∈ moments, s.freshPair r m pair = s.freshPair r moment pair) :
    texts = pairs.map (s.freshPair r moment) := by
  induction h with
  | nil => rfl
  | cons htext _ ih =>
    obtain ⟨m, hm, rfl⟩ := htext
    rw [List.map_cons, hsteady _ List.mem_cons_self m hm,
      ih fun pair hpair => hsteady pair (List.mem_cons_of_mem _ hpair)]

/-- After every call, the stored diff is made of texts that `render_diff` gave for the contents of
the changed maps at the moments of this call and of earlier ones. It is the diff that is rendered
anew when the renderings of these contents did not depend on the moment, and there is none once a
delta was not exact or the tracker was invalidated. -/
theorem incremental_diff_is_rendered (r : Rendering Path)
    (order : ∀ s : TurnDiffTracker Path, IterationOrder s) (calls : List (Call Path))
    (moment : Nat) (environmentId : Text) (delta : AppliedPatchDelta Path) :
    let s := run r order calls
    let changed := delta.changes.foldl (fun s change => s.applyChange environmentId change) s
    let tracked := run r order (calls ++ [.trackDelta moment environmentId delta])
    let moments := calls.filterMap Call.moment? ++ [moment]
    (run r order (calls ++ [.invalidate])).unifiedDiff = none ∧
      ((s.valid && delta.exact) = false → tracked.unifiedDiff = none) ∧
      ((s.valid && delta.exact) = true →
        (∃ texts, Texts r moments changed (changed.diffPairs r (order changed)) texts ∧
          tracked.unifiedDiff = unified texts) ∧
        ((∀ pair ∈ changed.diffPairs r (order changed), ∀ m ∈ moments,
            changed.freshPair r m pair = changed.freshPair r moment pair) →
          tracked.unifiedDiff = changed.freshDiff r moment (order changed))) := by
  intro s changed tracked moments
  have hnext (c : Call Path) : run r order (calls ++ [c]) = s.call r order c := List.foldl_append
  have htracked : tracked = s.trackDelta r order moment environmentId delta := hnext _
  refine ⟨by rw [hnext]; rfl, fun hnone => ?_, fun hboth => ?_⟩
  · rw [htracked, trackDelta]
    cases hvalid : s.valid with
    | false => exact unifiedDiff_run calls hvalid
    | true =>
      rw [hvalid, Bool.true_and] at hnone
      rw [hnone]
      rfl
  · obtain ⟨hvalid, hexact⟩ := Bool.and_eq_true_iff.mp hboth
    have hrun : s.IsConsistent r moments :=
      isConsistent_run calls (List.subset_append_left _ _)
    obtain ⟨_, texts, htexts, hunified⟩ :=
      (hrun.applyChanges environmentId delta.changes).refreshUnifiedDiff
        (List.mem_append_right _ List.mem_cons_self) (order changed)
    have hstored : tracked.unifiedDiff = unified texts := by
      rw [htracked, trackDelta, hvalid, hexact]
      exact hunified
    refine ⟨⟨texts, htexts, hstored⟩, fun hsteady => ?_⟩
    rw [hstored, htexts.eq_map hsteady, freshDiff]

/-- A search that is cut short at moment 0 only. -/
def slowStart : Rendering ℕ where
  displayPath p := List.replicate p.path 'p'
  diffText moment _ _ _ _ := if moment = 0 then ['-'] else ['+']

def addFile (path : ℕ) : AppliedPatchDelta ℕ := ⟨[⟨path, .add ['a'] none⟩], true⟩

def twoFiles : TurnDiffTracker ℕ :=
  run slowStart .asStored [.trackDelta 0 [] (addFile 2), .trackDelta 1 [] (addFile 1)]

/-- The first file is shown by a text of the first moment, the second one by a new text. -/
theorem incremental_diff_is_rendered_twoFiles :
    ∃ texts, Texts slowStart [0, 1] twoFiles (twoFiles.diffPairs slowStart (.asStored twoFiles))
      texts ∧ twoFiles.unifiedDiff = unified texts :=
  ((incremental_diff_is_rendered slowStart .asStored [.trackDelta 0 [] (addFile 2)] 1 []
    (addFile 1)).2.2 rfl).1

theorem diffPairs_asStored {s : TurnDiffTracker ℕ}
    (h : (s.baselineByPath.keys ++ s.currentByPath.keys).Pairwise fun a b =>
      slowStart.displayPath a ≤ slowStart.displayPath b) :
    s.diffPairs slowStart (.asStored s) = renderedPairs (s.renamePairs (.asStored s)) []
      (dedup (s.baselineByPath.keys ++ s.currentByPath.keys)) := by
  rw [diffPairs, diffPaths, List.mergeSort_of_pairwise]
  · rfl
  · simpa [IterationOrder.asStored] using h

/-- The text of the first file is not rendered again. -/
theorem cached_text_outlives_moment :
    twoFiles.unifiedDiff = some ['+', '\n', '-', '\n'] ∧
      twoFiles.freshDiff slowStart 1 (.asStored twoFiles) = some ['+', '\n', '+', '\n'] := by
  have hfirst : run slowStart .asStored [.trackDelta 0 [] (addFile 2)] =
      ⟨true, ∅, AList.singleton ⟨[], 2⟩ ⟨['a'], 0⟩, ∅, 1,
        AList.singleton ⟨⟨[], 2⟩, none, ⟨[], 2⟩, some 0⟩ (some ['-']), some ['-', '\n']⟩ := by
    change refreshUnifiedDiff slowStart 0 _ _ = _
    rw [refreshUnifiedDiff, diffPairs_asStored (by decide)]
    rfl
  have hrun : twoFiles = refreshUnifiedDiff slowStart 1
      (applyChange (run slowStart .asStored [.trackDelta 0 [] (addFile 2)]) []
        ⟨1, .add ['a'] none⟩) (.asStored _) := rfl
  rw [hfirst, refreshUnifiedDiff, diffPairs_asStored (by decide)] at hrun
  rw [hrun]
  refine ⟨rfl, ?_⟩
  unfold freshDiff
  rw [diffPairs_asStored (by decide)]
  rfl

end Runs

end TurnDiffTracker

end Codex.TurnDiff

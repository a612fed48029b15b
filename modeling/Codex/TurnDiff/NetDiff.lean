import Codex.TurnDiff.Tracker
import Mathlib.Data.Char
import Mathlib.Data.List.Lex
import Mathlib.Data.List.Nodup

/-! `rename_pairs`, `refresh_unified_diff` and `track_delta` of `core/src/turn_diff_tracker.rs`. -/

namespace Codex.TurnDiff
open Codex.Lib Codex.ApplyPatch List AList

/-- How files are shown. `render_diff` looks for a short diff until a deadline and falls back to a
coarse one, so what it gives depends on the moment too. -/
structure Rendering (Path : Type) where
  displayPath : TrackedPath Path → Text
  diffText (moment : Nat) :
    TrackedPath Path → Option Text → TrackedPath Path → Option Text → Text

variable {Path : Type} [DecidableEq Path]

/-- The order in which the hash maps of a tracker are walked. -/
structure IterationOrder (s : TurnDiffTracker Path) where
  baselineKeys : List (TrackedPath Path)
  currentKeys : List (TrackedPath Path)
  /-- the destinations with their origins -/
  origins : List (TrackedPath Path × TrackedPath Path)
  baseline_perm : baselineKeys.Perm s.baselineByPath.keys
  current_perm : currentKeys.Perm s.currentByPath.keys
  origins_perm : origins.Perm (s.originByCurrentPath.entries.map fun e => (e.1, e.2))

def IterationOrder.asStored (s : TurnDiffTracker Path) : IterationOrder s :=
  ⟨_, _, _, .refl _, .refl _, .refl _⟩

def dedup : List (TrackedPath Path) → List (TrackedPath Path)
  | a :: b :: rest => if a = b then dedup (b :: rest) else a :: dedup (b :: rest)
  | rest => rest

namespace TurnDiffTracker

def isRename (s : TurnDiffTracker Path) (dest origin : TrackedPath Path) : Bool :=
  !(dest = origin || origin ∈ s.currentByPath || dest ∉ s.currentByPath ||
    origin ∉ s.baselineByPath || dest ∈ s.baselineByPath)

/-- Of several destinations with one origin the last one stays. -/
def renamePairs (s : TurnDiffTracker Path) (order : IterationOrder s) :
    PathMap Path (TrackedPath Path) :=
  (order.origins.filter fun e => s.isRename e.1 e.2).foldl (fun pairs e => pairs.insert e.2 e.1) ∅

def pairedDestinations (renamePairs : PathMap Path (TrackedPath Path)) :
    List (TrackedPath Path) := renamePairs.entries.map (·.2)

def renderedPairs (renamePairs : PathMap Path (TrackedPath Path)) :
    List (TrackedPath Path) → List (TrackedPath Path) →
      List (TrackedPath Path × TrackedPath Path)
  | _, [] => []
  | handled, path :: paths =>
    if path ∈ handled then renderedPairs renamePairs handled paths
    else if path ∈ pairedDestinations renamePairs then
      renderedPairs renamePairs (path :: handled) paths
    else match renamePairs.lookup path with
      | some dest => (path, dest) :: renderedPairs renamePairs (dest :: path :: handled) paths
      | none => (path, path) :: renderedPairs renamePairs (path :: handled) paths

def diffPaths (r : Rendering Path) (s : TurnDiffTracker Path) (order : IterationOrder s) :
    List (TrackedPath Path) :=
  dedup ((order.baselineKeys ++ order.currentKeys).mergeSort fun a b =>
    r.displayPath a ≤ r.displayPath b)

def diffPairs (r : Rendering Path) (s : TurnDiffTracker Path) (order : IterationOrder s) :
    List (TrackedPath Path × TrackedPath Path) :=
  renderedPairs (s.renamePairs order) [] (s.diffPaths r order)

def renderDiff (r : Rendering Path) (moment : Nat) (leftPath : TrackedPath Path)
    (leftContent : Option Text) (rightPath : TrackedPath Path) (rightContent : Option Text) :
    Option Text :=
  if leftContent = rightContent then none
  else some (r.diffText moment leftPath leftContent rightPath rightContent)

/-- What the loop carries: the diffs of the last time, those of this time, and the text. -/
structure RenderState (Path : Type) where
  previousDiffs : AList fun _ : DiffCacheKey Path => Option Text
  renderedDiffs : AList fun _ : DiffCacheKey Path => Option Text
  aggregated : Text

def aggregate (aggregated : Text) : Option Text → Text
  | some diff =>
    let aggregated := aggregated ++ diff
    if aggregated.getLast? = some '\n' then aggregated else aggregated ++ ['\n']
  | none => aggregated

/-- A refresh renders a pair at most once, so one moment for each refresh is enough. -/
def renderPair (r : Rendering Path) (moment : Nat) (s : TurnDiffTracker Path)
    (state : RenderState Path) (pair : TrackedPath Path × TrackedPath Path) : RenderState Path :=
  let left := s.baselineByPath.lookup pair.1
  let right := s.currentByPath.lookup pair.2
  let key : DiffCacheKey Path := ⟨pair.1, left.map (·.revision), pair.2, right.map (·.revision)⟩
  let rendered := (state.previousDiffs.lookup key).getD
    (renderDiff r moment pair.1 (left.map (·.content)) pair.2 (right.map (·.content)))
  { previousDiffs := state.previousDiffs.erase key
    renderedDiffs := state.renderedDiffs.insert key rendered
    aggregated := aggregate state.aggregated rendered }

def refreshUnifiedDiff (r : Rendering Path) (moment : Nat) (s : TurnDiffTracker Path)
    (order : IterationOrder s) : TurnDiffTracker Path :=
  let final := (s.diffPairs r order).foldl (renderPair r moment s) ⟨s.renderedDiffs, ∅, []⟩
  { s with
    renderedDiffs := final.renderedDiffs
    unifiedDiff := if final.aggregated.isEmpty then none else some final.aggregated }

def invalidate (s : TurnDiffTracker Path) : TurnDiffTracker Path :=
  { s with valid := false, renderedDiffs := ∅, unifiedDiff := none }

def trackDelta (r : Rendering Path) (order : ∀ s : TurnDiffTracker Path, IterationOrder s)
    (moment : Nat) (s : TurnDiffTracker Path) (environmentId : Text)
    (delta : AppliedPatchDelta Path) : TurnDiffTracker Path :=
  if !s.valid then s
  else if !delta.exact then s.invalidate
  else
    let s := delta.changes.foldl (fun s change => s.applyChange environmentId change) s
    s.refreshUnifiedDiff r moment (order s)

variable {s : TurnDiffTracker Path} {order : IterationOrder s}

theorem mem_dedup {p : TrackedPath Path} (l : List (TrackedPath Path)) : p ∈ dedup l ↔ p ∈ l := by
  fun_induction dedup l with
  | case1 b rest ih =>
    rw [ih]
    simp
  | case2 a b rest h ih => rw [mem_cons, ih, ← mem_cons]
  | case3 => rfl

variable {r : Rendering Path} {dest origin left right : TrackedPath Path}
  {pairs : PathMap Path (TrackedPath Path)}

theorem mem_diffPaths {p : TrackedPath Path} : p ∈ s.diffPaths r order ↔ s.IsTracked p := by
  rw [diffPaths, mem_dedup, (mergeSort_perm _ _).mem_iff, mem_append,
    order.baseline_perm.mem_iff, order.current_perm.mem_iff, ← AList.mem_keys, ← AList.mem_keys,
    IsTracked]

theorem isRename_iff : s.isRename dest origin ↔ dest ≠ origin ∧ origin ∉ s.currentByPath ∧
      dest ∈ s.currentByPath ∧ origin ∈ s.baselineByPath ∧ dest ∉ s.baselineByPath := by
  simp [isRename, and_assoc]

theorem of_lookup_foldl_insert {l : List (TrackedPath Path × TrackedPath Path)}
    {m : PathMap Path (TrackedPath Path)}
    (h : (l.foldl (fun pairs e => pairs.insert e.2 e.1) m).lookup origin = some dest) :
    (dest, origin) ∈ l ∨ m.lookup origin = some dest := by
  induction l generalizing m with
  | nil => exact .inr h
  | cons e l ih =>
    rcases ih h with hmem | hlookup
    · exact .inl (mem_cons_of_mem _ hmem)
    · by_cases ho : origin = e.2
      · subst ho
        rw [lookup_insert, Option.some.injEq] at hlookup
        left
        rw [← hlookup]
        exact mem_cons_self
      · rw [lookup_insert_ne ho] at hlookup
        exact .inr hlookup

theorem of_lookup_renamePairs (h : (s.renamePairs order).lookup origin = some dest) :
    s.originByCurrentPath.lookup dest = some origin ∧ s.isRename dest origin := by
  rcases of_lookup_foldl_insert h with hmem | hempty
  · obtain ⟨horigin, hrename⟩ := mem_filter.mp hmem
    rw [order.origins_perm.mem_iff, mem_map] at horigin
    obtain ⟨⟨dest', origin'⟩, hentry, heq⟩ := horigin
    obtain ⟨rfl, rfl⟩ := Prod.mk.inj heq
    exact ⟨mem_lookup_iff.mpr hentry, hrename⟩
  · rw [lookup_empty] at hempty
    exact nomatch hempty

theorem renamePairs_injective {origin' : TrackedPath Path}
    (h : (s.renamePairs order).lookup origin = some dest)
    (h' : (s.renamePairs order).lookup origin' = some dest) : origin = origin' := by
  have hlookup := (of_lookup_renamePairs h).1
  rw [(of_lookup_renamePairs h').1, Option.some.injEq] at hlookup
  exact hlookup.symm

theorem mem_pairedDestinations :
    dest ∈ pairedDestinations pairs ↔ ∃ origin, pairs.lookup origin = some dest := by
  rw [pairedDestinations, mem_map]
  constructor
  · rintro ⟨⟨origin, dest'⟩, hentry, rfl⟩
    exact ⟨origin, mem_lookup_iff.mpr hentry⟩
  · rintro ⟨origin, hlookup⟩
    exact ⟨⟨origin, dest⟩, mem_lookup_iff.mp hlookup, rfl⟩

theorem renderedPairs_of_free {handled : List (TrackedPath Path)} {path : TrackedPath Path}
    (hhandled : path ∉ handled) (hfree : path ∉ pairedDestinations pairs)
    (paths : List (TrackedPath Path)) :
    renderedPairs pairs handled (path :: paths) = (path, (pairs.lookup path).getD path) ::
      renderedPairs pairs ((pairs.lookup path).toList ++ path :: handled) paths := by
  rw [renderedPairs, if_neg hhandled, if_neg hfree]
  cases pairs.lookup path <;> rfl

theorem mem_renderedPairs {pair : TrackedPath Path × TrackedPath Path}
    (handled paths : List (TrackedPath Path)) : pair ∈ renderedPairs pairs handled paths ↔
      pair.1 ∈ paths ∧ pair.1 ∉ handled ∧ pair.1 ∉ pairedDestinations pairs ∧
        pair.2 = (pairs.lookup pair.1).getD pair.1 := by
  obtain ⟨left, right⟩ := pair
  induction paths generalizing handled with
  | nil => simp [renderedPairs]
  | cons path paths ih =>
    by_cases hhandled : path ∈ handled
    · rw [renderedPairs, if_pos hhandled, ih, mem_cons]
      constructor
      · rintro ⟨hmem, hrest⟩
        exact ⟨.inr hmem, hrest⟩
      · rintro ⟨rfl | hmem, hnot, hrest⟩
        · exact absurd hhandled hnot
        · exact ⟨hmem, hnot, hrest⟩
    · by_cases hpaired : path ∈ pairedDestinations pairs
      · rw [renderedPairs, if_neg hhandled, if_pos hpaired, ih, mem_cons, mem_cons, not_or]
        constructor
        · rintro ⟨hmem, ⟨_, hnot⟩, hrest⟩
          exact ⟨.inr hmem, hnot, hrest⟩
        · rintro ⟨hmem, hnot, hfree, hright⟩
          have hne : left ≠ path := fun heq => hfree (heq ▸ hpaired)
          exact ⟨hmem.resolve_left hne, ⟨hne, hnot⟩, hfree, hright⟩
      · rw [renderedPairs_of_free hhandled hpaired, mem_cons, Prod.mk.injEq, ih,
          mem_append, Option.mem_toList, mem_cons, mem_cons]
        constructor
        · rintro (⟨rfl, rfl⟩ | ⟨hmem, hnot, hrest⟩)
          · exact ⟨.inl rfl, hhandled, hpaired, rfl⟩
          · exact ⟨.inr hmem, fun h => hnot (.inr (.inr h)), hrest⟩
        · rintro ⟨hmem, hnot, hfree, hright⟩
          by_cases heq : left = path
          · subst heq
            exact .inl ⟨rfl, hright⟩
          · refine .inr ⟨hmem.resolve_left heq, ?_, hfree, hright⟩
            rintro (hdest | hsame | hold)
            · exact hfree (mem_pairedDestinations.mpr ⟨path, hdest⟩)
            · exact heq hsame
            · exact hnot hold

theorem nodup_renderedPairs (pairs : PathMap Path (TrackedPath Path))
    (handled paths : List (TrackedPath Path)) : (renderedPairs pairs handled paths).Nodup := by
  induction paths generalizing handled with
  | nil => exact nodup_nil
  | cons path paths ih =>
    -- whatever comes after a path has it among the handled ones
    have hlater : ∀ right handled', path ∈ handled' →
        (path, right) ∉ renderedPairs pairs handled' paths := by
      intro right handled' hhandled hmem
      exact ((mem_renderedPairs handled' paths).mp hmem).2.1 hhandled
    simp only [renderedPairs]
    split
    · exact ih handled
    · split
      · exact ih (path :: handled)
      · split
        · next dest _ =>
          exact nodup_cons.mpr ⟨hlater dest _ (mem_cons_of_mem _ mem_cons_self), ih _⟩
        · exact nodup_cons.mpr ⟨hlater path _ mem_cons_self, ih _⟩

theorem mem_diffPairs : (left, right) ∈ s.diffPairs r order ↔
      s.IsTracked left ∧ left ∉ pairedDestinations (s.renamePairs order) ∧
        right = ((s.renamePairs order).lookup left).getD left := by
  rw [diffPairs, mem_renderedPairs, mem_diffPaths]
  simp

theorem lookup_of_mem_diffPairs (h : (left, right) ∈ s.diffPairs r order) (hne : left ≠ right) :
    (s.renamePairs order).lookup left = some right := by
  obtain ⟨_, _, hright⟩ := mem_diffPairs.mp h
  cases hlookup : (s.renamePairs order).lookup left with
  | none =>
    rw [hlookup, Option.getD_none] at hright
    exact absurd hright.symm hne
  | some dest =>
    rw [hlookup, Option.getD_some] at hright
    rw [hright]

theorem existsUnique_diffPair (r : Rendering Path) {p : TrackedPath Path} (h : s.IsTracked p) :
    ∃! pair, pair ∈ s.diffPairs r order ∧ (pair.1 = p ∨ pair.2 = p) := by
  by_cases hpaired : p ∈ pairedDestinations (s.renamePairs order)
  · obtain ⟨origin, hlookup⟩ := mem_pairedDestinations.mp hpaired
    obtain ⟨_, horigin, _, hbaseline, _⟩ := isRename_iff.mp (of_lookup_renamePairs hlookup).2
    have hfree : origin ∉ pairedDestinations (s.renamePairs order) := by
      intro hmem
      obtain ⟨other, hother⟩ := mem_pairedDestinations.mp hmem
      exact horigin (isRename_iff.mp (of_lookup_renamePairs hother).2).2.2.1
    have hpair : (origin, p) ∈ s.diffPairs r order := by
      refine mem_diffPairs.mpr ⟨.inl hbaseline, hfree, ?_⟩
      rw [hlookup, Option.getD_some]
    refine ⟨(origin, p), ⟨hpair, .inr rfl⟩, ?_⟩
    rintro ⟨left, right⟩ ⟨hmem, rfl | rfl⟩
    · exact absurd hpaired (mem_diffPairs.mp hmem).2.1
    · have hne : left ≠ right := by
        rintro rfl
        exact (mem_diffPairs.mp hmem).2.1 hpaired
      rw [renamePairs_injective (lookup_of_mem_diffPairs hmem hne) hlookup]
  · have hpair : (p, ((s.renamePairs order).lookup p).getD p) ∈ s.diffPairs r order :=
      mem_diffPairs.mpr ⟨h, hpaired, rfl⟩
    refine ⟨(p, ((s.renamePairs order).lookup p).getD p), ⟨hpair, .inl rfl⟩, ?_⟩
    rintro ⟨left, right⟩ ⟨hmem, rfl | rfl⟩
    · rw [(mem_diffPairs.mp hmem).2.2]
    · by_cases hne : left = right
      · subst hne
        rw [← (mem_diffPairs.mp hmem).2.2]
      · have hlookup := lookup_of_mem_diffPairs hmem hne
        exact absurd (mem_pairedDestinations.mpr ⟨left, hlookup⟩) hpaired

theorem Nets.of_mem_diffPairs {before after : Files (TrackedPath Path)} (h : Nets before after s)
    (hmem : (left, right) ∈ s.diffPairs r order) (hne : left ≠ right) :
    before left ≠ none ∧ after left = none ∧ before right = none ∧ after right ≠ none := by
  have hrename := (of_lookup_renamePairs (lookup_of_mem_diffPairs hmem hne)).2
  obtain ⟨_, hleft, hright, hleftBefore, hrightBefore⟩ := isRename_iff.mp hrename
  obtain ⟨hbaseline, hcurrent⟩ := h.tracked left (.inl hleftBefore)
  obtain ⟨hbaseline', hcurrent'⟩ := h.tracked right (.inr hright)
  rw [← hbaseline, ← hcurrent, ← hbaseline', ← hcurrent', current_eq_none_iff,
    baseline_eq_none_iff, Ne, Ne, baseline_eq_none_iff, current_eq_none_iff, not_not, not_not]
  exact ⟨hleftBefore, hleft, hrightBefore, hright⟩

def trackedChanges (changes : List (Text × AppliedPatchChange Path)) :
    List (AppliedPatchChange (TrackedPath Path)) :=
  changes.map fun e => tracked e.1 e.2

def applyChanges (changes : List (Text × AppliedPatchChange Path)) : TurnDiffTracker Path :=
  changes.foldl (fun s e => s.applyChange e.1 e.2) default

theorem applyChanges_nets (before : Files (TrackedPath Path))
    (changes : List (Text × AppliedPatchChange Path))
    (hfaithful : Faithful before (trackedChanges changes))
    (hmoves : ∀ change ∈ trackedChanges changes, MovesAway change) :
    Nets before (replay before (trackedChanges changes)) (applyChanges changes) := by
  have hnets := (nets_default before).foldl_applyTracked hfaithful hmoves
  rw [trackedChanges, foldl_map] at hnets
  exact hnets

/-- A file is moved, another one is added in its place and moved too: both have the same
origin. -/
def movedTwice : List (Text × AppliedPatchChange ℕ) :=
  [([], ⟨0, .update (some 1) ['a'] none ['b']⟩), ([], ⟨0, .add ['c'] none⟩),
    ([], ⟨0, .update (some 2) ['c'] none ['d']⟩)]

def oneFile : Files (TrackedPath ℕ) := fun p => if p = ⟨[], 0⟩ then some ['a'] else none

end TurnDiffTracker

end Codex.TurnDiff

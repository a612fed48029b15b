import Mathlib.Data.List.Perm.Basic
import Codex.Permissions.Resolution
import Codex.Permissions.WriteAccess

/-! Whether a path can be written may depend on the order of the entries, because only the first
metadata directory over the path is judged. It does not where all these directories are judged
alike. -/

namespace Codex.Permissions
open Codex.Lib FileSystemSandboxPolicy List

theorem all_findSome?_perm_iff {α β : Type} [DecidableEq α] {f : α → Option β} {judge : β → Bool}
    {xs : List α} :
    (∀ ys, xs.Perm ys → (ys.findSome? f).all judge = (xs.findSome? f).all judge) ↔
      ∀ a ∈ xs, ∀ b ∈ xs, ∀ x ∈ f a, ∀ y ∈ f b, judge x = judge y := by
  constructor
  · intro h a ha b hb x hx y hy
    have hfirst : ∀ c ∈ xs, ∀ z ∈ f c, judge z = (xs.findSome? f).all judge := by
      intro c hc z hz
      rw [← h _ (perm_cons_erase hc), findSome?_cons, show f c = some z from hz]
      rfl
    rw [hfirst a ha x hx, hfirst b hb y hy]
  · intro h ys hperm
    cases hxs : xs.findSome? f with
    | none =>
      have hnone := findSome?_eq_none_iff.mp hxs
      rw [findSome?_eq_none_iff.mpr fun y hy => hnone y (hperm.mem_iff.mpr hy)]
    | some x =>
      obtain ⟨a, ha, hx⟩ := exists_of_findSome?_eq_some hxs
      cases hys : ys.findSome? f with
      | none =>
        have hnone := findSome?_eq_none_iff.mp hys a (hperm.mem_iff.mp ha)
        rw [hx] at hnone
        exact nomatch hnone
      | some y =>
        obtain ⟨b, hb, hy⟩ := exists_of_findSome?_eq_some hys
        exact h b (hperm.mem_iff.mpr hb) a ha y hy x hx

theorem findSome?_flatMap {α β γ : Type} {f : α → List β} {g : β → Option γ} (xs : List α) :
    (xs.flatMap f).findSome? g = xs.findSome? fun x => (f x).findSome? g := by
  induction xs with
  | nil => rfl
  | cons x xs ih =>
    rw [flatMap_cons, findSome?_append, ih, findSome?_cons]
    cases (f x).findSome? g <;> rfl

variable {entries entries' : List FileSystemSandboxEntry} {context : Context} {path : PathUri}

theorem mem_resolvedEntries_perm (hperm : entries.Perm entries')
    (e : PathUri × FileSystemAccessMode) :
    e ∈ (restricted entries).resolvedEntries context ↔
      e ∈ (restricted entries').resolvedEntries context := by
  obtain ⟨u, a⟩ := e
  rw [mem_resolvedEntries, mem_resolvedEntries]
  simp only [restricted, hperm.mem_iff]

theorem hasFullDiskWriteAccess_perm (hperm : entries.Perm entries') :
    (restricted entries).hasFullDiskWriteAccess = (restricted entries').hasFullDiskWriteAccess := by
  have hoverride : (restricted entries).hasSameTargetWriteOverride =
      (restricted entries').hasSameTargetWriteOverride := by
    funext entry
    exact hperm.any_eq
  rw [hasFullDiskWriteAccess, hasFullDiskWriteAccess, hasRootAccess, hasRootAccess,
    hasWriteNarrowingEntries, hasWriteNarrowingEntries, hoverride]
  simp only [restricted, hperm.any_eq]
  rfl

theorem reopens_perm (hperm : entries.Perm entries') (directory : PathUri) :
    reopens path directory ((restricted entries).resolvedEntries context) =
      reopens path directory ((restricted entries').resolvedEntries context) := by
  rw [reopens, reopens, Bool.eq_iff_iff, any_eq_true, any_eq_true]
  simp only [mem_resolvedEntries_perm hperm]

def protectedBy (context : Context) (path : PathUri) (entry : FileSystemSandboxEntry) :
    Option PathUri :=
  if entry.access.canWrite then
    (((entryPaths context entry.path).filter isPosix).findSome?
      (protectedDirectory context path)).map (·.1)
  else none

theorem map_findSome?_resolvedEntries (entries : List FileSystemSandboxEntry) (context : Context)
    (path : PathUri) :
    ((((restricted entries).resolvedEntries context).filter (·.2.canWrite)).findSome?
        (protectedDirectory context path ·.1)).map (·.1) =
      entries.findSome? (protectedBy context path) := by
  have hentry : ∀ entry : FileSystemSandboxEntry,
      ((((entryPaths context entry.path).filter isPosix).map (·, entry.access)).filter
        (·.2.canWrite)).findSome? (fun e => (protectedDirectory context path e.1).map (·.1)) =
        protectedBy context path entry := by
    intro entry
    have haccess : ∀ e ∈ ((entryPaths context entry.path).filter isPosix).map (·, entry.access),
        e.2.canWrite = entry.access.canWrite := by
      intro e he
      obtain ⟨u, _, rfl⟩ := mem_map.mp he
      rfl
    rw [protectedBy]
    cases hwrite : entry.access.canWrite with
    | true =>
      rw [filter_eq_self.mpr fun e he => (haccess e he).trans hwrite, findSome?_map,
        if_pos rfl, map_findSome?]
      rfl
    | false =>
      have hnone : ∀ e ∈ ((entryPaths context entry.path).filter isPosix).map (·, entry.access),
          ¬ e.2.canWrite := by
        intro e he
        rw [haccess e he, hwrite]
        exact Bool.false_ne_true
      rw [filter_eq_nil_iff.mpr hnone]
      rfl
  rw [map_findSome?, resolvedEntries, filter_flatMap, findSome?_flatMap]
  exact congrArg (entries.findSome? ·) (funext hentry)

theorem isNone_metadataWriteDenial (entries : List FileSystemSandboxEntry) (context : Context)
    (path : PathUri) :
    ((restricted entries).metadataWriteDenial path context).isNone =
      (entries.findSome? (protectedBy context path)).all
        (reopens path · ((restricted entries).resolvedEntries context)) := by
  rw [← map_findSome?_resolvedEntries, metadataWriteDenial, if_neg (by simp [restricted])]
  simp only
  cases (((restricted entries).resolvedEntries context).filter (·.2.canWrite)).findSome?
      (protectedDirectory context path ·.1) with
  | none => rfl
  | some found =>
    obtain ⟨directory, name⟩ := found
    simp only [Option.map_some, Option.all_some]
    split
    · next hreopens => rw [hreopens]; rfl
    · next hreopens => rw [Bool.not_eq_true] at hreopens; rw [hreopens]; rfl

/-- The metadata directories over the path that writable entries protect are judged alike. -/
def JudgedAlike (entries : List FileSystemSandboxEntry) (context : Context) (path : PathUri) :
    Prop :=
  ∀ e ∈ entries, ∀ e' ∈ entries,
    ∀ directory ∈ protectedBy context path e, ∀ directory' ∈ protectedBy context path e',
      reopens path directory ((restricted entries).resolvedEntries context) =
        reopens path directory' ((restricted entries).resolvedEntries context)

theorem isNone_metadataWriteDenial_perm_iff :
    (∀ entries', entries.Perm entries' →
      ((restricted entries').metadataWriteDenial path context).isNone =
        ((restricted entries).metadataWriteDenial path context).isNone) ↔
      JudgedAlike entries context path := by
  rw [JudgedAlike, ← all_findSome?_perm_iff (f := protectedBy context path)]
  simp only [isNone_metadataWriteDenial]
  constructor
  · intro h ys hperm
    rw [← h ys hperm]
    simp only [reopens_perm hperm]
  · intro h ys hperm
    rw [← h ys hperm]
    simp only [reopens_perm hperm]

/-- The order of the entries matters for no access, and for writing a path only if the access
there is to write, on less than the full disk, and two metadata directories over the path are
judged differently. -/
theorem access_independent_of_entry_order_iff (entries : List FileSystemSandboxEntry)
    (context : Context) (path : PathUri) :
    (∀ entries', entries.Perm entries' →
      (restricted entries').resolveAccess path context =
          (restricted entries).resolveAccess path context ∧
        (restricted entries').canWritePath path context =
          (restricted entries).canWritePath path context) ↔
      (¬ WriteDecides entries context path ∨
        (restricted entries).hasFullDiskWriteAccess = true ∨
        JudgedAlike entries context path) := by
  rw [← resolveAccess_eq_write_iff]
  have haccess : ∀ entries', entries.Perm entries' →
      (restricted entries').resolveAccess path context =
        (restricted entries).resolveAccess path context := fun entries' hperm =>
    (resolveAccess_congr (mem_resolvedEntries_perm hperm) path).symm
  by_cases hwrite : (restricted entries).resolveAccess path context = .write
  · cases hfull : (restricted entries).hasFullDiskWriteAccess with
    | true =>
      refine iff_of_true (fun entries' hperm => ⟨haccess entries' hperm, ?_⟩) (.inr (.inl rfl))
      rw [canWritePath, canWritePath, haccess entries' hperm, ← hasFullDiskWriteAccess_perm hperm,
        hfull, Bool.true_or, Bool.true_or]
    | false =>
      have hcan : ∀ entries', entries.Perm entries' →
          (restricted entries').canWritePath path context =
            ((restricted entries').metadataWriteDenial path context).isNone := by
        intro entries' hperm
        rw [canWritePath, haccess entries' hperm, hwrite, ← hasFullDiskWriteAccess_perm hperm,
          hfull]
        rfl
      simp only [hwrite, not_true_eq_false, false_or, Bool.false_eq_true,
        ← isNone_metadataWriteDenial_perm_iff]
      constructor
      · intro h entries' hperm
        rw [← hcan entries' hperm, ← hcan entries (.refl _)]
        exact (h entries' hperm).2
      · intro h entries' hperm
        rw [hcan entries' hperm, hcan entries (.refl _)]
        exact ⟨(haccess entries' hperm).trans hwrite, h entries' hperm⟩
  · refine iff_of_true (fun entries' hperm => ⟨haccess entries' hperm, ?_⟩) (.inl hwrite)
    have hcannot : ((restricted entries).resolveAccess path context).canWrite = false :=
      decide_eq_false hwrite
    rw [canWritePath, canWritePath, haccess entries' hperm, hcannot, Bool.false_and, Bool.false_and]

def writableEntry (segments : List String) : FileSystemSandboxEntry :=
  ⟨.path (localFile segments), .write, false⟩

/-- The path is in the metadata directories of both roots, and only the outer one of these is
reopened. -/
theorem write_access_depends_on_entry_order :
    let outer := writableEntry ["w"]
    let inner := writableEntry ["w", ".git", "sub"]
    let path := localFile ["w", ".git", "sub", ".git", "x"]
    (restricted [outer, inner]).canWritePath path rootContext = true ∧
      (restricted [inner, outer]).canWritePath path rootContext = false := by
  decide +kernel

end Codex.Permissions

import Codex.ApplyPatch.Apply

/-! `try_verify_apply_patch_args` of `apply-patch/src/invocation.rs`. The `HashMap` of changes is a
list with distinct keys, in the order of their insertion. -/

namespace Codex.ApplyPatch
open Codex.Lib Codex.Lib.Fallible List Triple

inductive ApplyPatchFileChange (Path : Type) where
  | add (content : Text)
  | delete (content : Text)
  | update (unifiedDiff : Text) (movePath : Option Path) (newContent : Text)
  deriving DecidableEq, Repr

abbrev Changes (Path : Type) := List (Path × ApplyPatchFileChange Path)

structure ApplyPatchArgs where
  patch : Text
  hunks : List Hunk
  workdir : Option Text

structure ApplyPatchAction (Path : Type) where
  changes : Changes Path
  updateFileMode : ApplyPatchFileUpdateMode
  patch : Text
  cwd : Path

section

variable {Path : Type} [DecidableEq Path] (fs : FileSystem Path) (paths : Paths Path)
  (unifiedDiff : Text → Text → Text)

def resolveMove (cwd : Path) : Option Text → Apply Path (Option Path)
  | none => pure none
  | some dest => do
    let dest ← resolve paths cwd dest
    pure (some dest)

/-- `unifiedDiff` is the text that the crate `similar` makes of two contents. -/
def verifyChange (cwd path : Path) (mode : ApplyPatchFileUpdateMode) :
    Hunk → Apply Path (ApplyPatchFileChange Path)
  | .addFile _ contents => pure (.add contents)
  | .deleteFile _ => do
    match ← readFileText fs path with
    | .ok content => pure (.delete content)
    | .error kind => throw (.io (contextFor paths "Failed to read " path) kind)
  | .updateFile _ movePath chunks => do
    let (original, updated) ← deriveNewContentsFromChunks fs paths path chunks mode
    let dest ← resolveMove paths cwd movePath
    pure (.update (unifiedDiff original updated) dest updated)

def verifyHunk (cwd : Path) (mode : ApplyPatchFileUpdateMode) (changes : Changes Path)
    (hunk : Hunk) : Apply Path (Changes Path) := do
  let path ← resolve paths cwd hunk.targetPath
  if path ∈ changes.map Prod.fst then
    throw (.multipleOperations (contextFor paths "multiple operations target " path))
  else do
    let change ← verifyChange fs paths unifiedDiff cwd path mode hunk
    pure (changes ++ [(path, change)])

def effectiveCwd (cwd : Path) (workdir : Option Text) : Option Path :=
  match workdir with
  | none => some cwd
  | some dir => paths.join cwd dir

def tryVerifyApplyPatchArgs (args : ApplyPatchArgs) (cwd : Path)
    (mode : ApplyPatchFileUpdateMode) : Apply Path (ApplyPatchAction Path) :=
  match effectiveCwd paths cwd args.workdir with
  | none => throw .pathUri
  | some cwd => do
    let changes ← args.hunks.foldlM (verifyHunk fs paths unifiedDiff cwd mode) []
    pure ⟨changes, mode, args.patch, cwd⟩

end

section

variable {Path : Type} [DecidableEq Path] (paths : Paths Path) (unifiedDiff : Text → Text → Text)

def Hunk.movePath : Hunk → Option Text
  | updateFile _ movePath _ => movePath
  | _ => none

def MovesTo (cwd : Path) (movePath : Option Text) (dest : Option Path) : Prop :=
  match movePath with
  | none => dest = none
  | some text => ∃ d, paths.join cwd text = some d ∧ dest = some d

def Shows (files : Files Path) (cwd : Path) (mode : ApplyPatchFileUpdateMode) (hunk : Hunk)
    (shown : Path × ApplyPatchFileChange Path) : Prop :=
  paths.join cwd hunk.targetPath = some shown.1 ∧
  match hunk with
  | .addFile _ contents => shown.2 = .add contents
  | .deleteFile _ => ∃ content, files shown.1 = some content ∧ shown.2 = .delete content
  | .updateFile _ movePath chunks =>
    ∃ original updated dest, files shown.1 = some original ∧
      newContents (paths.inferredNativePathString shown.1) chunks mode original = .ok updated ∧
      MovesTo paths cwd movePath dest ∧
      shown.2 = .update (unifiedDiff original updated) dest updated

variable {files : Files Path} {cwd : Path} {mode : ApplyPatchFileUpdateMode}
  {P : State Path → Prop} {E : State Path → Prop}

omit [DecidableEq Path] in
theorem resolve_join (text : Text) (hE : ∀ s, P s → E s) :
    Triple P (resolve paths cwd text) (fun path s => P s ∧ paths.join cwd text = some path) E := by
  unfold resolve
  cases hj : paths.join cwd text with
  | none => exact throw hE
  | some path => exact pure fun s h => ⟨h, rfl⟩

omit [DecidableEq Path] in
theorem readFileText_ok (fs : FileSystem Path) (path : Path) :
    Triple (fun s : State Path => s.files = files) (readFileText fs path)
      (fun r s => s.files = files ∧ ∀ content, r = .ok content → files path = some content) E := by
  intro s h
  refine ⟨h, fun content hr => ?_⟩
  rw [← h]
  exact fs.read_ok hr

omit [DecidableEq Path] in
theorem deriveNewContents_ok (fs : FileSystem Path) (path : Path) (chunks : List UpdateFileChunk) :
    Triple (fun s : State Path => s.files = files)
      (deriveNewContentsFromChunks fs paths path chunks mode)
      (fun r s => s.files = files ∧ files path = some r.1 ∧
        newContents (paths.inferredNativePathString path) chunks mode r.1 = .ok r.2)
      (fun _ => True) := by
  refine bind (readFileText_ok fs path) fun r => ?_
  cases r with
  | error kind => exact throw fun _ _ => trivial
  | ok original =>
    dsimp only
    cases hn : newContents (paths.inferredNativePathString path) chunks mode original with
    | error error => exact throw fun _ _ => trivial
    | ok updated => exact pure fun s h => ⟨h.1, h.2 original rfl, hn⟩

omit [DecidableEq Path] in
theorem resolveMove_join (movePath : Option Text) :
    Triple P (resolveMove paths cwd movePath)
      (fun dest s => P s ∧ MovesTo paths cwd movePath dest) (fun _ => True) := by
  cases movePath with
  | none => exact pure fun s h => ⟨h, rfl⟩
  | some text =>
    exact bind (resolve_join paths text fun _ _ => trivial)
      fun dest => pure fun s h => ⟨h.1, dest, h.2, rfl⟩

omit [DecidableEq Path] in
theorem verifyChange_shows (fs : FileSystem Path) (files : Files Path)
    (mode : ApplyPatchFileUpdateMode) (path : Path) (hunk : Hunk)
    (hpath : paths.join cwd hunk.targetPath = some path) :
    Triple (fun s : State Path => s.files = files)
      (verifyChange fs paths unifiedDiff cwd path mode hunk)
      (fun change s => s.files = files ∧
        Shows paths unifiedDiff files cwd mode hunk (path, change)) (fun _ => True) := by
  cases hunk with
  | addFile text contents => exact pure fun s h => ⟨h, hpath, rfl⟩
  | deleteFile text =>
    refine bind (readFileText_ok fs path) fun r => ?_
    cases r with
    | error kind => exact throw fun _ _ => trivial
    | ok content => exact pure fun s h => ⟨h.1, hpath, content, h.2 content rfl, rfl⟩
  | updateFile text movePath chunks =>
    refine bind (deriveNewContents_ok paths fs path chunks) fun r => ?_
    refine bind (resolveMove_join paths movePath) fun dest => pure fun s h => ?_
    exact ⟨h.1.1, hpath, r.1, r.2, dest, h.1.2.1, h.1.2.2, h.2, rfl⟩

theorem verifyHunk_shows (fs : FileSystem Path) (changes : Changes Path) (hunk : Hunk) :
    Triple (fun s : State Path => s.files = files)
      (verifyHunk fs paths unifiedDiff cwd mode changes hunk)
      (fun result s => s.files = files ∧ ∃ shown, result = changes ++ [shown] ∧
        shown.1 ∉ changes.map Prod.fst ∧ Shows paths unifiedDiff files cwd mode hunk shown)
      (fun _ => True) := by
  refine bind (resolve_join paths hunk.targetPath fun _ _ => trivial) fun path => ?_
  refine of_forall fun s₀ h₀ => ?_
  by_cases hmem : path ∈ changes.map Prod.fst
  · rw [if_pos hmem]
    exact throw fun _ _ => trivial
  · rw [if_neg hmem]
    have hshow := verifyChange_shows paths unifiedDiff fs files mode path hunk h₀.2
    refine bind (hshow.strengthen fun s hs => hs ▸ h₀.1) fun change => ?_
    exact pure fun s h => ⟨h.1, (path, change), rfl, hmem, h.2⟩

theorem verifyHunks_show (fs : FileSystem Path) (files : Files Path) (cwd : Path)
    (mode : ApplyPatchFileUpdateMode) (hunks : List Hunk) (changes : Changes Path)
    (hnodup : (changes.map Prod.fst).Nodup) :
    Triple (fun s : State Path => s.files = files)
      (hunks.foldlM (verifyHunk fs paths unifiedDiff cwd mode) changes)
      (fun result _ => (result.map Prod.fst).Nodup ∧ ∃ shown, result = changes ++ shown ∧
        List.Forall₂ (Shows paths unifiedDiff files cwd mode) hunks shown) (fun _ => True) := by
  induction hunks generalizing changes with
  | nil =>
    refine pure fun s _ => ⟨hnodup, [], ?_, List.Forall₂.nil⟩
    rw [append_nil]
  | cons hunk hunks ih =>
    refine bind (verifyHunk_shows paths unifiedDiff fs changes hunk) fun next => ?_
    refine of_forall fun s₀ h₀ => ?_
    obtain ⟨hfiles, shown, hnext, hfresh, hshows⟩ := h₀
    have hnodup' : (next.map Prod.fst).Nodup := by
      rw [hnext, map_append, nodup_append]
      refine ⟨hnodup, nodup_singleton _, fun a ha b hb => ?_⟩
      rw [map_singleton, mem_singleton] at hb
      intro hab
      exact hfresh (hb ▸ hab ▸ ha)
    intro s hs
    have hrest := ih next hnodup' s (hs ▸ hfiles)
    rcases he : exec (hunks.foldlM (verifyHunk fs paths unifiedDiff cwd mode) next) s with ⟨r, s'⟩
    rw [he] at hrest
    cases r with
    | error error => trivial
    | ok result =>
      obtain ⟨hn, later, hlater, hall⟩ := hrest
      refine ⟨hn, shown :: later, ?_, List.Forall₂.cons hshows hall⟩
      rw [hlater, hnext, append_assoc, singleton_append]

end

end Codex.ApplyPatch

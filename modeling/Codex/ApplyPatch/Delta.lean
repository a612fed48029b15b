import Codex.ApplyPatch.Apply

/-! What `apply_hunks_to_files` records in an exact delta is what it did to the files, however the
calls of the file system end. -/

namespace Codex.ApplyPatch
open Codex.Lib Codex.Lib.Fallible Triple Function

variable {Path : Type} [DecidableEq Path]

def applyChange (files : Files Path) (change : AppliedPatchChange Path) : Files Path :=
  match change.change with
  | .add content _ => Function.update files change.path (some content)
  | .delete _ => Function.update files change.path none
  | .update none _ _ newContent => Function.update files change.path (some newContent)
  | .update (some dest) _ _ newContent =>
    Function.update (Function.update files dest (some newContent)) change.path none

def replay (files : Files Path) (changes : List (AppliedPatchChange Path)) : Files Path :=
  changes.foldl applyChange files

def Records (files : Files Path) (change : AppliedPatchChange Path) : Prop :=
  match change.change with
  | .add _ overwritten => files change.path = overwritten
  | .delete content => files change.path = some content
  | .update none oldContent _ _ => files change.path = some oldContent
  | .update (some dest) oldContent overwritten _ =>
    files change.path = some oldContent ∧ files dest = overwritten

def Faithful (files : Files Path) : List (AppliedPatchChange Path) → Prop
  | [] => True
  | change :: rest => Records files change ∧ Faithful (applyChange files change) rest

theorem replay_concat (files : Files Path) (changes : List (AppliedPatchChange Path))
    (change : AppliedPatchChange Path) :
    replay files (changes ++ [change]) = applyChange (replay files changes) change := by
  simp [replay]

theorem faithful_concat (changes : List (AppliedPatchChange Path))
    (change : AppliedPatchChange Path) (files : Files Path) :
    Faithful files (changes ++ [change]) ↔
      Faithful files changes ∧ Records (replay files changes) change := by
  induction changes generalizing files with
  | nil => simp [Faithful, replay]
  | cons c changes ih =>
    simp only [List.cons_append, Faithful, ih, replay, List.foldl_cons, and_assoc]

def Committed (init : Files Path) (s : State Path) : Prop :=
  s.delta.exact = true →
    Faithful init s.delta.changes ∧ replay init s.delta.changes = s.files

theorem committed_of_inexact (init : Files Path) {s : State Path} (h : s.delta.exact = false) :
    Committed init s := by
  intro hexact
  rw [h] at hexact
  exact absurd hexact Bool.false_ne_true

structure Touched (path : Path) (s₀ s : State Path) : Prop where
  files : ∃ left, s.files = Function.update s₀.files path left
  changes : s.delta.changes = s₀.delta.changes
  exact : s.delta.exact = true → s₀.delta.exact = true

structure Left (path : Path) (content : Option Text) (s₀ s : State Path) : Prop where
  files : s.files = Function.update s₀.files path content
  changes : s.delta.changes = s₀.delta.changes
  exact : s.delta.exact = true → s₀.delta.exact = true

structure Unchanged (s₀ s : State Path) : Prop where
  files : s.files = s₀.files
  changes : s.delta.changes = s₀.delta.changes
  exact : s.delta.exact = true → s₀.delta.exact = true

omit [DecidableEq Path] in
theorem Unchanged.refl (s : State Path) : Unchanged s s := ⟨rfl, rfl, id⟩

theorem Unchanged.touched {s₀ s : State Path} (h : Unchanged s₀ s) (path : Path) :
    Touched path s₀ s :=
  ⟨⟨s₀.files path, by rw [h.files, update_eq_self]⟩, h.changes, h.exact⟩

omit [DecidableEq Path] in
theorem Unchanged.nextCall {s₀ s : State Path} (h : Unchanged s₀ s) :
    Unchanged s₀ (nextCall s) := ⟨h.files, h.changes, h.exact⟩

omit [DecidableEq Path] in
theorem Unchanged.restrictExact {s₀ s : State Path} (h : Unchanged s₀ s) (exact : Bool) :
    Unchanged s₀ (restrictExact exact s) := by
  refine ⟨h.files, h.changes, fun hexact => h.exact ?_⟩
  exact (Bool.and_eq_true_iff.mp hexact).1

theorem Unchanged.committed {init : Files Path} {s₀ s : State Path} (h : Unchanged s₀ s)
    (hc : Committed init s₀) : Committed init s := by
  intro hexact
  rw [h.files, h.changes]
  exact hc (h.exact hexact)

theorem Committed.push {init : Files Path} {s₀ s : State Path}
    (hc : Committed init s₀) (change : AppliedPatchChange Path)
    (hexact : s.delta.exact → s₀.delta.exact)
    (hchanges : s.delta.changes = s₀.delta.changes ++ [change])
    (hfiles : s.files = applyChange s₀.files change)
    (hrec : s.delta.exact → Records s₀.files change) : Committed init s := by
  intro h
  obtain ⟨hfaithful, hreplay⟩ := hc (hexact h)
  rw [hchanges, faithful_concat, replay_concat, hreplay, hfiles]
  exact ⟨⟨hfaithful, hrec h⟩, rfl⟩

section Specs

variable (fs : FileSystem Path) (paths : Paths Path) {s₀ : State Path} {E : State Path → Prop}

omit [DecidableEq Path] in
theorem readFileText_spec (path : Path) :
    Triple (Unchanged s₀) (readFileText fs path)
      (fun r s => Unchanged s₀ s ∧ (∀ content, r = .ok content → s₀.files path = some content) ∧
        (r = .error .notFound → s₀.files path = none)) E := by
  intro s h
  refine ⟨h.nextCall, ?_, ?_⟩
  · intro content hr
    rw [← h.files]
    exact fs.read_ok hr
  · intro hr
    rw [← h.files]
    exact fs.read_notFound hr

omit [DecidableEq Path] in
theorem getMetadata_spec (path : Path) :
    Triple (Unchanged s₀) (getMetadata fs path) (fun _ => Unchanged s₀) E := by
  intro s h
  exact h.nextCall

omit [DecidableEq Path] in
theorem noteExistingPathDeltaSupport_spec (path : Path) :
    Triple (Unchanged s₀) (noteExistingPathDeltaSupport fs path) (fun _ => Unchanged s₀) E :=
  bind (getMetadata_spec fs path) fun _ => modify fun _ h => h.restrictExact _

omit [DecidableEq Path] in
theorem readOptionalFileTextForDelta_spec (path : Path) :
    Triple (Unchanged s₀) (readOptionalFileTextForDelta fs path)
      (fun r s => Unchanged s₀ s ∧ (s.delta.exact → s₀.files path = r)) E := by
  refine bind (noteExistingPathDeltaSupport_spec fs path) fun _ => ?_
  refine bind (readFileText_spec fs path) fun r => ?_
  cases r with
  | ok content => exact pure fun s h => ⟨h.1, fun _ => h.2.1 content rfl⟩
  | error kind =>
    refine bind (Q := fun _ s => Unchanged s₀ s ∧
      (s.delta.exact → s₀.files path = none)) (modify ?_) fun _ => ?_
    · intro s h
      refine ⟨h.1.restrictExact _, fun hexact => h.2.2 ?_⟩
      have hkind := (Bool.and_eq_true_iff.mp hexact).2
      rw [decide_eq_true_eq] at hkind
      rw [hkind]
    · exact pure fun s h => h

omit [DecidableEq Path] in
theorem ensureNotDirectory_spec (path : Path) (context : Text) (hE : ∀ s, Unchanged s₀ s → E s) :
    Triple (Unchanged s₀) (ensureNotDirectory fs path context) (fun _ => Unchanged s₀) E := by
  refine bind (getMetadata_spec fs path) fun r => ?_
  cases r with
  | error kind => exact throw hE
  | ok metadata =>
    dsimp only
    split
    · exact throw hE
    · exact pure fun s h => h

theorem createDirectory_spec (path dir : Path) :
    Triple (Touched path s₀) (createDirectory fs dir) (fun _ => Touched path s₀) E := by
  intro s h
  have hnext : Touched path s₀ (nextCall s) := ⟨h.files, h.changes, h.exact⟩
  simp only [createDirectory, exec_bind, exec_get, exec_modify]
  cases fs.createDirectoryFailure s.calls s.files dir <;> exact hnext

theorem writeFile_spec (path : Path) (content : Text) :
    Triple (Touched path s₀) (writeFile fs path content)
      (fun r s => Touched path s₀ s ∧ (r = .ok () → Left path (some content) s₀ s)) E := by
  intro s h
  have hset : ∀ left, Left path left s₀ (setFile path left (nextCall s)) := by
    intro left
    obtain ⟨before, hf⟩ := h.files
    refine ⟨?_, h.changes, h.exact⟩
    change update s.files path left = _
    rw [hf, update_idem]
  simp only [writeFile, exec_bind, exec_get, exec_modify]
  cases hw : fs.writeFailure s.calls s.files path with
  | none =>
    have hl := hset (some content)
    exact ⟨⟨⟨_, hl.files⟩, hl.changes, hl.exact⟩, fun _ => hl⟩
  | some failure =>
    have hl := hset failure.2
    refine ⟨⟨⟨_, hl.files⟩, hl.changes, hl.exact⟩, ?_⟩
    intro hr
    exact absurd hr (by simp)

section Writes
variable (hE : ∀ s : State Path, s.delta.exact = false → E s)
include hE

omit [DecidableEq Path] in
theorem failWrite_spec {α : Type} {P : State Path → Prop} {Q : α → State Path → Prop}
    (error : ApplyPatchError) :
    Triple P (failWrite error : Apply Path α) Q E := by
  intro s _
  exact hE _ (Bool.and_false _)

theorem writeFileOrFail_spec (s₀ : State Path) (path : Path) (contents : Text) :
    Triple (Touched path s₀) (writeFileOrFail fs paths path contents)
      (fun _ => Left path (some contents) s₀) E := by
  refine bind (writeFile_spec fs path contents) fun r => ?_
  cases r with
  | ok _ => exact pure fun s h => h.2 rfl
  | error kind => exact failWrite_spec hE _

theorem createParentDirectories_spec (path : Path) :
    Triple (Touched path s₀) (createParentDirectories fs paths path)
      (fun _ => Touched path s₀) E := by
  unfold createParentDirectories
  cases paths.parent path with
  | none => exact pure fun s h => h
  | some parent =>
    refine bind (createDirectory_spec fs path parent) fun r => ?_
    cases r with
    | ok _ => exact pure fun s h => h
    | error kind => exact failWrite_spec hE _

theorem writeFileWithMissingParentRetry_spec (s₀ : State Path) (path : Path) (contents : Text) :
    Triple (Touched path s₀) (writeFileWithMissingParentRetry fs paths path contents)
      (fun _ => Left path (some contents) s₀) E := by
  refine bind (writeFile_spec fs path contents) fun r => ?_
  cases r with
  | ok _ => exact pure fun s h => h.2 rfl
  | error kind =>
    cases kind with
    | notFound =>
      refine bind (Q := fun _ => Touched path s₀)
        ((createParentDirectories_spec fs paths hE path).strengthen ?_) ?_
      · exact fun s h => h.1
      · exact fun _ => writeFileOrFail_spec fs paths hE s₀ path contents
    | invalidInput => exact failWrite_spec hE _
    | other code => exact failWrite_spec hE _

end Writes

theorem removeTracked_spec (path : Path) (expected : Option Text) (context : Text)
    (hE : ∀ s, (s.delta.exact = true → Unchanged s₀ s) → E s) :
    Triple (Unchanged s₀) (removeTracked fs path expected context)
      (fun _ => Left path none s₀) E := by
  have hfail : ∀ kind : IoErrorKind, Triple
      (fun s => Unchanged s₀ s ∨ s.files path = none)
      (do
        let free ← removeFailureWasSideEffectFree fs path expected
        modify (restrictExact free)
        throw (.io context kind))
      (fun _ : Unit => Left path none s₀) E := by
    intro kind
    refine bind (Q := fun free s => free = true → Unchanged s₀ s) ?_ fun free => ?_
    · cases expected with
      | none => exact pure fun s _ h => absurd h Bool.false_ne_true
      | some expected =>
        intro s h
        simp only [removeFailureWasSideEffectFree, readFileText, exec_bind, exec_get, exec_modify,
          exec_pure]
        cases hr : fs.readFileText s.calls s.files path with
        | error kind => exact fun h => absurd h Bool.false_ne_true
        | ok content =>
          intro _
          rcases h with h | hnone
          · exact h.nextCall
          · rw [fs.read_ok hr] at hnone
            exact absurd hnone (by simp)
    · refine bind (Q := fun _ s => s.delta.exact = true → Unchanged s₀ s)
        (modify ?_) fun _ => throw hE
      intro s h hexact
      exact (h (Bool.and_eq_true_iff.mp hexact).2).restrictExact free
  refine bind (Q := fun r s => (r = .ok () → Left path none s₀ s) ∧
    (r ≠ .ok () → Unchanged s₀ s ∨ s.files path = none)) ?_ fun r => ?_
  · intro s h
    simp only [remove, exec_bind, exec_get, exec_modify]
    cases hr : fs.removeFailure s.calls s.files path with
    | none =>
      refine ⟨fun _ => ⟨?_, h.changes, h.exact⟩, fun hne => absurd rfl hne⟩
      change update s.files path none = _
      rw [h.files]
    | some failure =>
      obtain ⟨kind, removed⟩ := failure
      cases removed with
      | false => exact ⟨fun hr => absurd hr (by simp), fun _ => .inl h.nextCall⟩
      | true =>
        refine ⟨fun hr => absurd hr (by simp), fun _ => .inr ?_⟩
        simp [setFile]
  · cases r with
    | ok _ => exact pure fun s h => h.1 rfl
    | error kind =>
      exact (hfail kind).strengthen fun s h => h.2 (by simp)

omit [DecidableEq Path] in
theorem deriveNewContentsFromChunks_spec (path : Path) (chunks : List UpdateFileChunk)
    (mode : ApplyPatchFileUpdateMode) (hE : ∀ s, Unchanged s₀ s → E s) :
    Triple (Unchanged s₀) (deriveNewContentsFromChunks fs paths path chunks mode)
      (fun r s => Unchanged s₀ s ∧ s₀.files path = some r.1) E := by
  refine bind (readFileText_spec fs path) fun r => ?_
  cases r with
  | error kind => exact throw fun s h => hE s h.1
  | ok original =>
    dsimp only
    cases newContents (paths.inferredNativePathString path) chunks mode original with
    | error error => exact throw fun s h => hE s h.1
    | ok updated => exact pure fun s h => ⟨h.1, h.2.1 original rfl⟩

omit [DecidableEq Path] in
theorem resolve_spec {P : State Path → Prop} (cwd : Path) (path : Text) (hE : ∀ s, P s → E s) :
    Triple P (resolve paths cwd path) (fun _ => P) E := by
  unfold resolve
  cases paths.join cwd path with
  | some path => exact pure fun s h => h
  | none => exact throw hE

variable {init : Files Path}

theorem applyAddFile_spec (path : Path) (contents : Text) (hc : Committed init s₀) :
    Triple (Unchanged s₀) (applyAddFile fs paths path contents) (fun _ => Committed init)
      (Committed init) := by
  refine bind (readOptionalFileTextForDelta_spec fs path) fun overwritten => ?_
  refine of_forall fun s₁ h => ?_
  have hwrite := writeFileWithMissingParentRetry_spec fs paths
    (fun s => committed_of_inexact init) s₁ path contents
  refine bind (hwrite.strengthen fun s hs => hs ▸ (Unchanged.refl s₁).touched path)
    fun _ => modify fun s hs => ?_
  refine (h.1.committed hc).push ⟨path, .add contents overwritten⟩ hs.exact
    (congrArg (· ++ _) hs.changes) hs.files ?_
  intro hexact
  rw [h.1.files]
  exact h.2 (hs.exact hexact)

theorem applyDeleteFile_spec (path : Path) (hc : Committed init s₀) :
    Triple (Unchanged s₀) (applyDeleteFile fs paths path) (fun _ => Committed init)
      (Committed init) := by
  refine bind (noteExistingPathDeltaSupport_spec fs path) fun _ => ?_
  refine bind (readFileText_spec fs path) fun r => ?_
  refine bind (Q := fun _ s => Unchanged s₀ s ∧
    (∀ content, r = .ok content → s₀.files path = some content) ∧
    (s.delta.exact → r.toOption.isSome)) (modify ?_) fun _ => ?_
  · intro s h
    exact ⟨h.1.restrictExact _, h.2.1, fun hexact => (Bool.and_eq_true_iff.mp hexact).2⟩
  refine of_forall fun s₁ h => ?_
  have hunchanged : ∀ s, Unchanged s₁ s → Committed init s :=
    fun s hs => hs.committed (h.1.committed hc)
  refine bind ((ensureNotDirectory_spec fs path _ hunchanged).strengthen
    fun s hs => hs ▸ Unchanged.refl s₁) fun _ => ?_
  refine bind (removeTracked_spec fs path _ _ fun s hs hexact =>
    hunchanged s (hs hexact) hexact) fun _ => ?_
  cases r with
  | ok content =>
    refine modify fun s hs => ?_
    refine (h.1.committed hc).push ⟨path, .delete content⟩ hs.exact
      (congrArg (· ++ _) hs.changes) hs.files fun _ => ?_
    rw [h.1.files]
    exact h.2.1 content rfl
  | error kind =>
    refine pure fun s hs hexact => ?_
    exact absurd (h.2.2 (hs.exact hexact)) Bool.false_ne_true

theorem applyMove_spec (path dest : Path) (original updated : Text) (hc : Committed init s₀)
    (hpath : s₀.files path = some original) :
    Triple (Unchanged s₀) (applyMove fs paths path dest original updated)
      (fun _ => Committed init) (Committed init) := by
  refine bind (readOptionalFileTextForDelta_spec fs dest) fun overwritten => ?_
  refine of_forall fun s₁ h => ?_
  have hc₁ := h.1.committed hc
  have hdest : s₁.delta.exact → s₁.files dest = overwritten := by
    intro hexact
    rw [h.1.files]
    exact h.2 hexact
  have hwrite := writeFileWithMissingParentRetry_spec fs paths
    (fun s => committed_of_inexact init) s₁ dest updated
  refine bind (hwrite.strengthen fun s hs => hs ▸ (Unchanged.refl s₁).touched dest) fun _ => ?_
  refine of_forall fun s₂ h₂ => ?_
  have hc₃ : Committed init (pushChange ⟨dest, .add updated overwritten⟩ s₂) :=
    hc₁.push _ h₂.exact (congrArg (· ++ _) h₂.changes) h₂.files fun hexact =>
      hdest (h₂.exact hexact)
  have hunchanged : ∀ s, Unchanged (pushChange ⟨dest, .add updated overwritten⟩ s₂) s →
      Committed init s := fun s hs => hs.committed hc₃
  refine bind (Q := fun s s' => s = s₂ ∧ s' = s₂) (fun s hs => ⟨hs, hs⟩) fun s => ?_
  refine bind (Q := fun _ s' => s = s₂ ∧
    Unchanged (pushChange ⟨dest, .add updated overwritten⟩ s₂) s') (modify ?_) fun _ => ?_
  · intro s' hs
    exact ⟨hs.1, hs.2 ▸ Unchanged.refl _⟩
  by_cases hs : s = s₂
  · subst hs
    refine bind ((ensureNotDirectory_spec fs path _ hunchanged).strengthen
      fun s hs => hs.2) fun _ => ?_
    refine bind (removeTracked_spec fs path _ _ fun s hs hexact =>
      hunchanged s (hs hexact) hexact) fun _ => modify fun s' hs => ?_
    refine hc₁.push ⟨path, .update (some dest) original overwritten updated⟩
      (fun hexact => h₂.exact (hs.exact hexact)) ?_ ?_ fun hexact => ?_
    · change s'.delta.changes.set s.delta.changes.length _ = _
      rw [hs.changes]
      simp [pushChange, h₂.changes]
    · change s'.files = _
      rw [hs.files]
      simp [pushChange, applyChange, h₂.files]
    · refine ⟨?_, hdest (h₂.exact (hs.exact hexact))⟩
      rw [h.1.files, hpath]
  · intro s' hs'
    exact absurd hs'.1 hs

theorem applyUpdateInPlace_spec (path : Path) (original updated : Text) (hc : Committed init s₀)
    (hpath : s₀.files path = some original) :
    Triple (Unchanged s₀) (applyUpdateInPlace fs paths path original updated)
      (fun _ => Committed init) (Committed init) := by
  have hwrite := writeFileOrFail_spec fs paths (fun s => committed_of_inexact init) s₀ path updated
  refine bind (hwrite.strengthen fun s hs => hs.touched path) fun _ => modify fun s hs => ?_
  exact hc.push ⟨path, .update none original none updated⟩ hs.exact
    (congrArg (· ++ _) hs.changes) hs.files fun _ => hpath

theorem applyUpdateFile_spec (cwd path : Path) (movePath : Option Text)
    (chunks : List UpdateFileChunk) (mode : ApplyPatchFileUpdateMode) (hc : Committed init s₀) :
    Triple (Unchanged s₀) (applyUpdateFile fs paths cwd path movePath chunks mode)
      (fun _ => Committed init) (Committed init) := by
  have hunchanged : ∀ s, Unchanged s₀ s → Committed init s := fun s hs => hs.committed hc
  refine bind (noteExistingPathDeltaSupport_spec fs path) fun _ => ?_
  refine bind (deriveNewContentsFromChunks_spec fs paths path chunks mode hunchanged) fun r => ?_
  refine of_forall fun s₁ h => ?_
  have hc₁ := h.1.committed hc
  have hpath : s₁.files path = some r.1 := by rw [h.1.files, h.2]
  cases movePath with
  | none =>
    exact (applyUpdateInPlace_spec fs paths path r.1 r.2 hc₁ hpath).strengthen
      fun s hs => hs ▸ Unchanged.refl s₁
  | some dest =>
    refine bind (Q := fun _ => Unchanged s₁)
      ((resolve_spec paths cwd dest fun s hs => hs.committed hc₁).strengthen
        fun s hs => hs ▸ Unchanged.refl s₁) fun dest => ?_
    exact applyMove_spec fs paths path dest r.1 r.2 hc₁ hpath

theorem applyHunk_spec (cwd : Path) (mode : ApplyPatchFileUpdateMode) (affected : AffectedPaths)
    (hunk : Hunk) :
    Triple (Committed init) (applyHunk fs paths cwd mode affected hunk) (fun _ => Committed init)
      (Committed init) := by
  refine bind (resolve_spec paths cwd hunk.targetPath fun s h => h) fun path => ?_
  refine of_forall fun s₀ hc => ?_
  have hstart : ∀ s, s = s₀ → Unchanged s₀ s := fun s hs => hs ▸ Unchanged.refl s₀
  cases hunk with
  | addFile _ contents =>
    exact bind ((applyAddFile_spec fs paths path contents hc).strengthen hstart)
      fun _ => pure fun s h => h
  | deleteFile _ =>
    exact bind ((applyDeleteFile_spec fs paths path hc).strengthen hstart)
      fun _ => pure fun s h => h
  | updateFile _ movePath chunks =>
    exact bind
      ((applyUpdateFile_spec fs paths cwd path movePath chunks mode hc).strengthen hstart)
      fun _ => pure fun s h => h

theorem applyHunksToFiles_spec (hunks : List Hunk) (mode : ApplyPatchFileUpdateMode) (cwd : Path) :
    Triple (Committed init) (applyHunksToFiles fs paths hunks mode cwd) (fun _ => Committed init)
      (Committed init) := by
  unfold applyHunksToFiles
  split
  · exact throw fun s h => h
  · exact foldlM (fun affected hunk _ => applyHunk_spec fs paths cwd mode affected hunk) _

end Specs

/-- However the calls end and whether the run succeeds: the changes of an exact delta, replayed on
the files of the start, give the files of the end, and each records what it replaced. -/
theorem applyHunksToFiles_delta_faithful (fs : FileSystem Path) (paths : Paths Path)
    (hunks : List Hunk) (mode : ApplyPatchFileUpdateMode) (cwd : Path) (files : Files Path)
    (hexact : ((applyHunksToFiles fs paths hunks mode cwd).exec (.initial files)).2.delta.exact =
      true) :
    let s := ((applyHunksToFiles fs paths hunks mode cwd).exec (.initial files)).2
    replay files s.delta.changes = s.files ∧ Faithful files s.delta.changes := by
  have hstart : Committed files (State.initial files) := fun _ => ⟨trivial, rfl⟩
  obtain ⟨hfaithful, hreplay⟩ :=
    (applyHunksToFiles_spec fs paths hunks mode cwd).state hstart hexact
  exact ⟨hreplay, hfaithful⟩

def FileSystem.keeping (Path : Type) : FileSystem Path :=
  { FileSystem.reliable Path with removeFailure := fun _ _ _ => some (.other 13, false) }

theorem applyHunksToFiles_delta_faithful_failed_move :
    let file := fun name : String => PathUri.file none [Text.bytes name.toList]
    let files : Files PathUri := fun path => if path = file "a" then some "x\n".toList else none
    let run := (applyHunksToFiles (.keeping PathUri) (posixPaths fun _ text => Text.bytes text)
      [.addFile "b".toList "y\n".toList, .updateFile "a".toList (some "c".toList) []]
      .normalizeToLf (.file none [[]])).exec (.initial files)
    run.1.isOk = false ∧ run.2.delta.exact = true ∧ run.2.delta.changes.length = 2 ∧
      replay files run.2.delta.changes = run.2.files ∧ Faithful files run.2.delta.changes :=
  ⟨by decide +kernel, by decide +kernel, by decide +kernel,
    applyHunksToFiles_delta_faithful _ _ _ _ _ _ (by decide +kernel)⟩

end Codex.ApplyPatch

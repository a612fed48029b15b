import Codex.ApplyPatch.Verify

/-! On a file system without failures: when the files that a patch leaves are those that its
verification has shown. -/

namespace Codex.ApplyPatch
open Codex.Lib Codex.Lib.Fallible List Function

variable {Path : Type} [DecidableEq Path]

def shownDest : ApplyPatchFileChange Path → Option Path
  | .update _ movePath _ => movePath
  | _ => none

def touches (shown : Path × ApplyPatchFileChange Path) : List Path :=
  shown.1 :: (shownDest shown.2).toList

/-- What the application of a hunk does to the files: a move writes its destination, then removes
its source. -/
def applyShown (files : Files Path) : Path × ApplyPatchFileChange Path → Files Path
  | (path, .add content) => Function.update files path (some content)
  | (path, .delete _) => Function.update files path none
  | (path, .update _ none newContent) => Function.update files path (some newContent)
  | (path, .update _ (some dest) newContent) =>
    Function.update (Function.update files dest (some newContent)) path none

theorem applyShown_of_not_touched (files : Files Path)
    (shown : Path × ApplyPatchFileChange Path) {q : Path} (h : q ∉ touches shown) :
    applyShown files shown q = files q := by
  obtain ⟨path, change⟩ := shown
  rcases change with content | content | ⟨diff, dest, newContent⟩
  · have hq : q ≠ path := by simpa [touches, shownDest] using h
    exact update_of_ne hq _ _
  · have hq : q ≠ path := by simpa [touches, shownDest] using h
    exact update_of_ne hq _ _
  · cases dest with
    | none =>
      have hq : q ≠ path := by simpa [touches, shownDest] using h
      exact update_of_ne hq _ _
    | some dest =>
      have hq : q ≠ path ∧ q ≠ dest := by simpa [touches, shownDest] using h
      rw [applyShown, update_of_ne hq.1, update_of_ne hq.2]

theorem applyShown_congr (files files' : Files Path) (shown : Path × ApplyPatchFileChange Path)
    {q : Path} (h : q ∈ touches shown) : applyShown files shown q = applyShown files' shown q := by
  obtain ⟨path, change⟩ := shown
  rcases change with content | content | ⟨diff, dest, newContent⟩
  · obtain rfl : q = path := by simpa [touches, shownDest] using h
    simp [applyShown]
  · obtain rfl : q = path := by simpa [touches, shownDest] using h
    simp [applyShown]
  · cases dest with
    | none =>
      obtain rfl : q = path := by simpa [touches, shownDest] using h
      simp [applyShown]
    | some dest =>
      have hq : q = path ∨ q = dest := by simpa [touches, shownDest] using h
      by_cases hp : q = path
      · simp [applyShown, hp]
      · obtain rfl := hq.resolve_left hp
        simp [applyShown, update_of_ne hp]

def DisjointChanges (changes : Changes Path) : Prop :=
  changes.Pairwise fun c d => ∀ q ∈ touches c, q ∉ touches d

variable (changes : Changes Path)

theorem foldl_applyShown_of_not_touched (files : Files Path) {q : Path}
    (h : ∀ c ∈ changes, q ∉ touches c) : changes.foldl applyShown files q = files q := by
  induction changes generalizing files with
  | nil => rfl
  | cons c changes ih =>
    have hc := applyShown_of_not_touched files c (h c mem_cons_self)
    rw [foldl_cons, ih _ fun d hd => h d (mem_cons_of_mem _ hd), hc]

theorem foldl_applyShown_of_touched (files : Files Path) (hdisjoint : DisjointChanges changes)
    {c : Path × ApplyPatchFileChange Path} (hc : c ∈ changes) {q : Path} (hq : q ∈ touches c) :
    changes.foldl applyShown files q = applyShown files c q := by
  induction changes generalizing files with
  | nil => exact absurd hc not_mem_nil
  | cons d changes ih =>
    obtain ⟨hd, hrest⟩ := pairwise_cons.mp hdisjoint
    rw [foldl_cons]
    rcases mem_cons.mp hc with rfl | hmem
    · exact foldl_applyShown_of_not_touched changes _ fun e he => hd e he q hq
    · rw [ih _ hrest hmem]
      exact applyShown_congr _ _ c hq

def HoldsIn (final : Files Path) : Path × ApplyPatchFileChange Path → Prop
  | (path, .add content) => final path = some content
  | (path, .delete _) => final path = none
  | (path, .update _ none newContent) => final path = some newContent
  | (path, .update _ (some dest) newContent) =>
    final dest = some newContent ∧ (path ≠ dest → final path = none)

structure Overlaid (files : Files Path) (changes : Changes Path) (final : Files Path) : Prop where
  shown : ∀ c ∈ changes, HoldsIn final c
  rest : ∀ q, (∀ c ∈ changes, q ∉ touches c) → final q = files q

def MovesOntoItself (shown : Path × ApplyPatchFileChange Path) : Prop :=
  shownDest shown.2 = some shown.1

theorem holdsIn_foldl_iff (files : Files Path) (hdisjoint : DisjointChanges changes)
    {c : Path × ApplyPatchFileChange Path} (hc : c ∈ changes) :
    HoldsIn (changes.foldl applyShown files) c ↔ ¬ MovesOntoItself c := by
  have hval := fun q (hq : q ∈ touches c) =>
    foldl_applyShown_of_touched changes files hdisjoint hc hq
  have hpath := hval c.1 mem_cons_self
  obtain ⟨path, change⟩ := c
  rcases change with content | content | ⟨diff, dest, newContent⟩
  · simp [HoldsIn, MovesOntoItself, shownDest, hpath, applyShown]
  · simp [HoldsIn, MovesOntoItself, shownDest, hpath, applyShown]
  · cases dest with
    | none => simp [HoldsIn, MovesOntoItself, shownDest, hpath, applyShown]
    | some dest =>
      have hdest := hval dest (by simp [touches, shownDest])
      simp only [HoldsIn, MovesOntoItself, shownDest, Option.some.injEq, hdest, hpath, applyShown,
        update_self, implies_true, and_true]
      by_cases h : dest = path
      · simp [h]
      · simp [h]

theorem overlaid_foldl_iff (files : Files Path) (hdisjoint : DisjointChanges changes) :
    Overlaid files changes (changes.foldl applyShown files) ↔
      ∀ c ∈ changes, ¬ MovesOntoItself c := by
  constructor
  · intro h c hc
    exact (holdsIn_foldl_iff changes files hdisjoint hc).mp (h.shown c hc)
  · intro h
    refine ⟨fun c hc => (holdsIn_foldl_iff changes files hdisjoint hc).mpr (h c hc), ?_⟩
    exact fun q hq => foldl_applyShown_of_not_touched changes files hq

section Reliable

variable (paths : Paths Path)

variable (path : Path)

theorem applyAddFile_reliable (contents : Text) (s : State Path) :
    ∃ s', (applyAddFile (.reliable Path) paths path contents).exec s = (.ok (), s') ∧
      s'.files = update s.files path (some contents) := by
  cases h : s.files path <;>
    simp [applyAddFile, readOptionalFileTextForDelta, noteExistingPathDeltaSupport, getMetadata,
      readFileText, writeFileWithMissingParentRetry, writeFile, exec_bind, FileSystem.reliable,
      nextCall, restrictExact, setFile, pushChange, h]

variable {s : State Path}

theorem applyDeleteFile_reliable {content : Text} (h : s.files path = some content) :
    ∃ s', (applyDeleteFile (.reliable Path) paths path).exec s = (.ok (), s') ∧
      s'.files = update s.files path none := by
  simp [applyDeleteFile, noteExistingPathDeltaSupport, getMetadata, readFileText,
    ensureNotDirectory, removeTracked, remove, exec_bind, FileSystem.reliable, nextCall,
    restrictExact, setFile, pushChange, Except.toOption, h]

theorem applyUpdateInPlace_reliable (original updated : Text) (s : State Path) :
    ∃ s', (applyUpdateInPlace (.reliable Path) paths path original updated).exec s = (.ok (), s') ∧
      s'.files = update s.files path (some updated) := by
  simp [applyUpdateInPlace, writeFileOrFail, writeFile, exec_bind, FileSystem.reliable, nextCall,
    setFile, pushChange]

theorem applyMove_reliable (dest : Path) {original : Text} (updated : Text)
    (h : s.files path = some original) :
    ∃ s', (applyMove (.reliable Path) paths path dest original updated).exec s = (.ok (), s') ∧
      s'.files = update (update s.files dest (some updated)) path none := by
  have hpath : ∃ content, update s.files dest (some updated) path = some content := by
    by_cases hd : path = dest
    · exact ⟨updated, by rw [hd, update_self]⟩
    · exact ⟨original, by rw [update_of_ne hd, h]⟩
  obtain ⟨content, hpath⟩ := hpath
  cases hdest : s.files dest <;>
    simp [applyMove, readOptionalFileTextForDelta, noteExistingPathDeltaSupport, getMetadata,
      readFileText, writeFileWithMissingParentRetry, writeFile, ensureNotDirectory, removeTracked,
      remove, exec_bind, FileSystem.reliable, nextCall, restrictExact, setFile, pushChange,
      setChange, hdest, hpath]

omit [DecidableEq Path] in
theorem derive_reliable (chunks : List UpdateFileChunk) (mode : ApplyPatchFileUpdateMode)
    {original updated : Text} (h : s.files path = some original)
    (hnew : newContents (paths.inferredNativePathString path) chunks mode original = .ok updated) :
    (deriveNewContentsFromChunks (.reliable Path) paths path chunks mode).exec s =
      (.ok (original, updated), nextCall s) := by
  simp only [deriveNewContentsFromChunks, readFileText, exec_bind, exec_get, exec_modify, exec_pure,
    FileSystem.reliable, h, hnew]

omit [DecidableEq Path] in
theorem noteExisting_reliable (s : State Path) :
    ∃ s', (noteExistingPathDeltaSupport (.reliable Path) path).exec s = (.ok (), s') ∧
      s'.files = s.files := by
  simp [noteExistingPathDeltaSupport, getMetadata, exec_bind, nextCall, restrictExact]

variable {unifiedDiff : Text → Text → Text} {files : Files Path} {cwd : Path}
  {mode : ApplyPatchFileUpdateMode}

theorem applyUpdateFile_reliable {path : Path} {movePath : Option Text}
    {chunks : List UpdateFileChunk} {original updated : Text} {dest : Option Path}
    (h : s.files path = some original)
    (hnew : newContents (paths.inferredNativePathString path) chunks mode original = .ok updated)
    (hdest : MovesTo paths cwd movePath dest) (diff : Text) :
    ∃ s', (applyUpdateFile (.reliable Path) paths cwd path movePath chunks mode).exec s =
        (.ok (), s') ∧
      s'.files = applyShown s.files (path, .update diff dest updated) := by
  obtain ⟨s₁, hs₁, hf₁⟩ := noteExisting_reliable path s
  have h₁ : s₁.files path = some original := by rw [hf₁, h]
  have hderive := derive_reliable paths path chunks mode h₁ hnew
  cases movePath with
  | none =>
    obtain rfl : dest = none := hdest
    obtain ⟨s₂, hs₂, hf₂⟩ := applyUpdateInPlace_reliable paths path original updated (nextCall s₁)
    refine ⟨s₂, ?_, ?_⟩
    · simp only [applyUpdateFile, exec_bind, hs₁, hderive, hs₂]
    · rw [hf₂, applyShown, ← hf₁]
      rfl
  | some text =>
    obtain ⟨d, hjoin, rfl⟩ := hdest
    obtain ⟨s₂, hs₂, hf₂⟩ := applyMove_reliable paths path d updated (s := nextCall s₁) h₁
    refine ⟨s₂, ?_, ?_⟩
    · simp only [applyUpdateFile, exec_bind, hs₁, hderive, resolve, hjoin, exec_pure, hs₂]
    · rw [hf₂, applyShown, ← hf₁]
      rfl

theorem applyHunk_reliable {hunk : Hunk} {shown : Path × ApplyPatchFileChange Path}
    (hshows : Shows paths unifiedDiff files cwd mode hunk shown) (affected : AffectedPaths)
    (hs : s.files shown.1 = files shown.1) :
    ∃ affected' s', (applyHunk (.reliable Path) paths cwd mode affected hunk).exec s =
        (.ok affected', s') ∧ s'.files = applyShown s.files shown := by
  obtain ⟨path, change⟩ := shown
  obtain ⟨hjoin, hchange⟩ := hshows
  cases hunk with
  | addFile text contents =>
    obtain rfl : change = .add contents := hchange
    obtain ⟨s', hs', hf⟩ := applyAddFile_reliable paths path contents s
    refine ⟨{ affected with added := affected.added ++ [text] }, s', ?_, hf⟩
    simp only [applyHunk, resolve, hjoin, exec_bind, exec_pure, hs']
    rfl
  | deleteFile text =>
    obtain ⟨content, hcontent, rfl⟩ := hchange
    obtain ⟨s', hs', hf⟩ := applyDeleteFile_reliable paths path (hs.trans hcontent)
    refine ⟨{ affected with deleted := affected.deleted ++ [text] }, s', ?_, hf⟩
    simp only [applyHunk, resolve, hjoin, exec_bind, exec_pure, hs']
    rfl
  | updateFile text movePath chunks =>
    obtain ⟨original, updated, dest, horiginal, hnew, hdest, rfl⟩ := hchange
    obtain ⟨s', hs', hf⟩ := applyUpdateFile_reliable paths (hs.trans horiginal) hnew hdest
      (unifiedDiff original updated)
    refine ⟨{ affected with modified := affected.modified ++ [movePath.getD text] }, s', ?_, hf⟩
    simp only [applyHunk, resolve, hjoin, exec_bind, exec_pure, hs']
    rfl

theorem applyHunks_reliable {hunks : List Hunk} {changes : Changes Path}
    (hall : List.Forall₂ (Shows paths unifiedDiff files cwd mode) hunks changes)
    (hdisjoint : DisjointChanges changes) (affected : AffectedPaths)
    (hs : ∀ c ∈ changes, s.files c.1 = files c.1) : ∃ affected' s',
      (hunks.foldlM (applyHunk (.reliable Path) paths cwd mode) affected).exec s =
        (.ok affected', s') ∧ s'.files = changes.foldl applyShown s.files := by
  induction hall generalizing affected s with
  | nil => exact ⟨affected, s, rfl, rfl⟩
  | @cons hunk shown hunks changes hshows _ ih =>
    obtain ⟨hhead, hrest⟩ := pairwise_cons.mp hdisjoint
    obtain ⟨a₁, s₁, hs₁, hf₁⟩ := applyHunk_reliable paths hshows affected (hs shown mem_cons_self)
    have hkeep : ∀ c ∈ changes, s₁.files c.1 = files c.1 := by
      intro c hc
      have hnot : c.1 ∉ touches shown := fun hmem => hhead c hc c.1 hmem mem_cons_self
      rw [hf₁, applyShown_of_not_touched _ _ hnot]
      exact hs c (mem_cons_of_mem _ hc)
    obtain ⟨a₂, s₂, hs₂, hf₂⟩ := ih hrest a₁ hkeep
    refine ⟨a₂, s₂, ?_, ?_⟩
    · rw [foldlM_cons, exec_bind, hs₁]
      exact hs₂
    · rw [hf₂, hf₁, foldl_cons]

end Reliable

section Hunks

variable (paths : Paths Path)

def Hunk.target (cwd : Path) (hunk : Hunk) : Option Path := paths.join cwd hunk.targetPath

def Hunk.destination (cwd : Path) (hunk : Hunk) : Option Path :=
  hunk.movePath.bind (paths.join cwd)

/-- No move goes to the path or to the destination of another hunk. -/
def SeparateMoves (cwd : Path) (hunks : List Hunk) : Prop :=
  hunks.Pairwise fun h k =>
    (∀ d ∈ h.destination paths cwd,
      k.target paths cwd ≠ some d ∧ k.destination paths cwd ≠ some d) ∧
    ∀ d ∈ k.destination paths cwd, h.target paths cwd ≠ some d

def NoSelfMoves (cwd : Path) (hunks : List Hunk) : Prop :=
  ∀ h ∈ hunks, ∀ d ∈ h.destination paths cwd, h.target paths cwd ≠ some d

instance (cwd : Path) (hunks : List Hunk) : Decidable (SeparateMoves paths cwd hunks) :=
  inferInstanceAs (Decidable (hunks.Pairwise _))

instance (cwd : Path) (hunks : List Hunk) : Decidable (NoSelfMoves paths cwd hunks) :=
  inferInstanceAs (Decidable (∀ h ∈ hunks, _))

variable {paths} {unifiedDiff : Text → Text → Text} {files : Files Path} {cwd : Path}
  {mode : ApplyPatchFileUpdateMode}

omit [DecidableEq Path] in
theorem Shows.destination {hunk : Hunk} {shown : Path × ApplyPatchFileChange Path}
    (h : Shows paths unifiedDiff files cwd mode hunk shown) :
    hunk.destination paths cwd = shownDest shown.2 := by
  obtain ⟨path, change⟩ := shown
  obtain ⟨_, hchange⟩ := h
  cases hunk with
  | addFile text contents =>
    obtain rfl : change = .add contents := hchange
    rfl
  | deleteFile text =>
    obtain ⟨content, _, rfl⟩ := hchange
    rfl
  | updateFile text movePath chunks =>
    obtain ⟨original, updated, dest, _, _, hdest, rfl⟩ := hchange
    cases movePath with
    | none => exact hdest.symm
    | some text =>
      obtain ⟨d, hjoin, rfl⟩ := hdest
      exact hjoin

omit [DecidableEq Path] in
theorem exists_hunk_of_mem {hunks : List Hunk} {changes : Changes Path}
    (hall : List.Forall₂ (Shows paths unifiedDiff files cwd mode) hunks changes)
    {c : Path × ApplyPatchFileChange Path} (hc : c ∈ changes) :
    ∃ hunk ∈ hunks, Shows paths unifiedDiff files cwd mode hunk c := by
  induction hall with
  | nil => exact absurd hc not_mem_nil
  | @cons hunk shown hunks changes hshows _ ih =>
    rcases mem_cons.mp hc with rfl | hmem
    · exact ⟨hunk, mem_cons_self, hshows⟩
    · obtain ⟨k, hk, hkc⟩ := ih hmem
      exact ⟨k, mem_cons_of_mem _ hk, hkc⟩

omit [DecidableEq Path] in
theorem mem_touches {q : Path} {shown : Path × ApplyPatchFileChange Path} :
    q ∈ touches shown ↔ q = shown.1 ∨ shownDest shown.2 = some q := by
  simp [touches, Option.mem_toList]

omit [DecidableEq Path] in
theorem disjointChanges_of_separate {hunks : List Hunk} {changes : Changes Path}
    (hall : List.Forall₂ (Shows paths unifiedDiff files cwd mode) hunks changes)
    (hnodup : (changes.map Prod.fst).Nodup) (hsep : SeparateMoves paths cwd hunks) :
    DisjointChanges changes := by
  induction hall with
  | nil => exact List.Pairwise.nil
  | @cons hunk shown hunks changes hshows hall ih =>
    obtain ⟨hhead, hrest⟩ := pairwise_cons.mp hsep
    rw [map_cons, nodup_cons] at hnodup
    refine pairwise_cons.mpr ⟨fun c hc q hq hqc => ?_, ih hnodup.2 hrest⟩
    obtain ⟨k, hk, hkc⟩ := exists_hunk_of_mem hall hc
    obtain ⟨hto, hfrom⟩ := hhead k hk
    rw [hshows.destination, hkc.destination] at hto
    rw [hkc.destination] at hfrom
    rcases mem_touches.mp hq with rfl | hdest
    · rcases mem_touches.mp hqc with heq | hdest
      · exact hnodup.1 (heq ▸ mem_map_of_mem hc)
      · exact hfrom _ hdest hshows.1
    · rcases mem_touches.mp hqc with rfl | hdest'
      · exact (hto _ hdest).1 hkc.1
      · exact (hto _ hdest).2 hdest'

omit [DecidableEq Path] in
theorem noSelfMoves_iff {hunks : List Hunk} {changes : Changes Path}
    (hall : List.Forall₂ (Shows paths unifiedDiff files cwd mode) hunks changes) :
    NoSelfMoves paths cwd hunks ↔ ∀ c ∈ changes, ¬ MovesOntoItself c := by
  induction hall with
  | nil => simp [NoSelfMoves]
  | @cons hunk shown hunks changes hshows _ ih =>
    have hhead : (∀ d ∈ hunk.destination paths cwd, hunk.target paths cwd ≠ some d) ↔
        ¬ MovesOntoItself shown := by
      rw [hshows.destination, Hunk.target, hshows.1, MovesOntoItself]
      constructor
      · exact fun h hself => h _ hself rfl
      · intro h d hd hpath
        exact h (Option.mem_def.mp hd |>.trans hpath.symm)
    simp only [NoSelfMoves, forall_mem_cons, hhead]
    exact and_congr_right fun _ => ih

end Hunks

theorem tryVerify_shows {paths : Paths Path} {unifiedDiff : Text → Text → Text}
    {fs : FileSystem Path} {args : ApplyPatchArgs} {cwd effective : Path}
    {mode : ApplyPatchFileUpdateMode} {files : Files Path} {action : ApplyPatchAction Path}
    {s : State Path} (hcwd : effectiveCwd paths cwd args.workdir = some effective)
    (h : (tryVerifyApplyPatchArgs fs paths unifiedDiff args cwd mode).exec (.initial files) =
      (.ok action, s)) :
    (action.changes.map Prod.fst).Nodup ∧
      List.Forall₂ (Shows paths unifiedDiff files effective mode) args.hunks action.changes := by
  have hrun := verifyHunks_show paths unifiedDiff fs files effective mode args.hunks []
    nodup_nil (.initial files) rfl
  simp only [tryVerifyApplyPatchArgs, hcwd, exec_bind] at h
  rcases he : exec (args.hunks.foldlM (verifyHunk fs paths unifiedDiff effective mode) [])
    (.initial files) with ⟨r, s'⟩
  rw [he] at h hrun
  cases r with
  | error error => exact absurd (congrArg Prod.fst h) (by simp)
  | ok changes =>
    obtain ⟨hnodup, shown, hshown, hall⟩ := hrun
    have hact : ⟨changes, mode, args.patch, effective⟩ = action :=
      Except.ok.inj (congrArg Prod.fst h)
    subst hact
    exact ⟨hnodup, hshown ▸ hall⟩

/-- For accepted hunks of which none moves to a path of another: the application succeeds and
leaves what the verification has shown exactly when there is a hunk and none moves onto itself. -/
theorem apply_agrees_with_preview_iff (paths : Paths Path) (unifiedDiff : Text → Text → Text)
    (args : ApplyPatchArgs) (cwd effective : Path) (mode : ApplyPatchFileUpdateMode)
    (files : Files Path) (action : ApplyPatchAction Path) (s : State Path)
    (hcwd : effectiveCwd paths cwd args.workdir = some effective)
    (hverify : (tryVerifyApplyPatchArgs (.reliable Path) paths unifiedDiff args cwd mode).exec
      (.initial files) = (.ok action, s))
    (hsep : SeparateMoves paths effective args.hunks) :
    (∃ affected s', (applyHunksToFiles (.reliable Path) paths args.hunks mode effective).exec
        (.initial files) = (.ok affected, s') ∧ Overlaid files action.changes s'.files) ↔
      args.hunks ≠ [] ∧ NoSelfMoves paths effective args.hunks := by
  obtain ⟨hnodup, hall⟩ := tryVerify_shows hcwd hverify
  have hdisjoint := disjointChanges_of_separate hall hnodup hsep
  rw [noSelfMoves_iff hall, ← overlaid_foldl_iff action.changes files hdisjoint]
  by_cases hnil : args.hunks = []
  · simp [applyHunksToFiles, hnil]
  · obtain ⟨affected, s', hrun, hfiles⟩ := applyHunks_reliable paths hall hdisjoint ⟨[], [], []⟩
      (s := .initial files) fun c _ => rfl
    have happly : (applyHunksToFiles (.reliable Path) paths args.hunks mode effective).exec
        (.initial files) = (.ok affected, s') := by
      rw [applyHunksToFiles, if_neg hnil]
      exact hrun
    have hfinal : s'.files = action.changes.foldl applyShown files := hfiles
    rw [happly, ← hfinal]
    constructor
    · rintro ⟨a, t, heq, hover⟩
      obtain rfl : s' = t := congrArg Prod.snd heq
      exact ⟨hnil, hover⟩
    · exact fun h => ⟨affected, s', rfl, h.2⟩

def replaceLine (old new : String) : UpdateFileChunk :=
  ⟨none, [old.toList], [new.toList], [], false⟩

def fileAt (name : String) : PathUri := .file none [Text.bytes name.toList]

def plainPaths : Paths PathUri := posixPaths fun _ text => Text.bytes text

def diffXY : Text := "@@ -1 +1 @@\n-x\n+y\n".toList

/-- The verification shows the new content at `/a`; the application writes it there and then
removes the file. -/
theorem apply_removes_file_moved_onto_itself :
    let files : Files PathUri := fun p => if p = fileAt "a" then some "x\n".toList else none
    let hunks := [Hunk.updateFile "a".toList (some "a".toList) [replaceLine "x" "y"]]
    let changes := [(fileAt "a", .update diffXY (some (fileAt "a")) "y\n".toList)]
    let verified := (tryVerifyApplyPatchArgs (.reliable PathUri) plainPaths (fun _ _ => diffXY)
      ⟨[], hunks, none⟩ (.file none [[]]) .normalizeToLf).exec (.initial files)
    let applied := (applyHunksToFiles (.reliable PathUri) plainPaths hunks .normalizeToLf
      (.file none [[]])).exec (.initial files)
    verified.1.toOption.map ApplyPatchAction.changes = some changes ∧ applied.1.isOk = true ∧
      applied.2.files (fileAt "a") = none ∧ ¬ Overlaid files changes applied.2.files := by
  refine ⟨by decide +kernel, by decide +kernel, by decide +kernel, ?_⟩
  intro h
  have hshown := (h.shown _ mem_cons_self).1
  exact absurd hshown (by decide +kernel)

theorem apply_agrees_with_preview_iff_move :
    let files : Files PathUri := fun p => if p = fileAt "a" then some "x\n".toList else none
    let hunks := [Hunk.updateFile "a".toList (some "b".toList) [replaceLine "x" "y"],
      .addFile "c".toList "z\n".toList]
    ∃ affected s', (applyHunksToFiles (.reliable PathUri) plainPaths hunks .normalizeToLf
      (.file none [[]])).exec (.initial files) = (.ok affected, s') ∧
      Overlaid files [(fileAt "a", .update diffXY (some (fileAt "b")) "y\n".toList),
        (fileAt "c", .add "z\n".toList)] s'.files :=
  (apply_agrees_with_preview_iff plainPaths (fun _ _ => diffXY) ⟨[], _, none⟩ (.file none [[]])
    (.file none [[]]) .normalizeToLf _ ⟨_, .normalizeToLf, [], .file none [[]]⟩ _ rfl rfl
    (by decide +kernel)).mpr ⟨by decide, by decide +kernel⟩

end Codex.ApplyPatch

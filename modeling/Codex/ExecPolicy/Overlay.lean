import Codex.ExecPolicy.Policy

/-! `load_exec_policy` (core/src/exec_policy.rs:663) lays the managed requirements over the rules of
the user: when the merged decision is still as strict as that of the requirements alone. -/

namespace Codex.ExecPolicy
open Codex.Lib List Option

theorem strictest_mono {l l' : List RuleMatch} (h : l ⊆ l') : strictest l ≤ strictest l' := by
  refine maximum_le_of_forall_le fun d hd => ?_
  obtain ⟨m, hm, rfl⟩ := List.mem_map.mp hd
  exact le_maximum_of_mem' (mem_map_of_mem (h hm))

theorem strictest_eq_bot_iff (matched : List RuleMatch) : strictest matched = ⊥ ↔ matched = [] := by
  rw [strictest, maximum_eq_bot, map_eq_nil_iff]

namespace Policy

def exactMatches (self : Policy) (cmd : List Text) : List RuleMatch :=
  (self.matchExactRules cmd).getD []

def decision (env : AbsolutePathBuf.ProcessEnv) (self : Policy) (cmd : List Text) :
    WithBot Decision :=
  strictest (self.matchesForCommandWithOptions env cmd none ⟨true⟩)

variable (env : AbsolutePathBuf.ProcessEnv) (self overlay : Policy) (cmd : List Text)
  (program : AbsolutePathBuf) (basename : Text)

theorem matchesForCommand_resolved : self.matchesForCommandWithOptions env cmd none ⟨true⟩ =
      if self.exactMatches cmd = [] then self.matchHostExecutableRules env cmd
      else self.exactMatches cmd := by
  unfold matchesForCommandWithOptions exactMatches
  cases he : self.matchExactRules cmd with
  | none => cases hh : self.matchHostExecutableRules env cmd <;> simp [Option.filter]
  | some matched =>
    cases matched with
    | nil => cases hh : self.matchHostExecutableRules env cmd <;> simp [Option.filter]
    | cons m ms => simp [Option.filter]

def basenameMatches (self : Policy) (program : AbsolutePathBuf) (basename : Text)
    (args : List Text) : List RuleMatch :=
  ((self.getVec basename).filterMap fun rule => rule.matches (basename :: args)).map
    (RuleMatch.withResolvedProgram program)

def lookupProgram (env : AbsolutePathBuf.ProcessEnv) (cmd : List Text) :
    Option (AbsolutePathBuf × Text) :=
  cmd.head?.bind fun first => (AbsolutePathBuf.fromAbsolutePath env first.bytes).bind fun program =>
    (executablePathLookupKey program).map fun basename => (program, basename)

def listsProgram (self : Policy) (program : AbsolutePathBuf) (basename : Text) : Bool :=
  (self.hostExecutablesByName.lookup basename).all fun paths => program ∈ paths

theorem matchHostExecutableRules_none (h : lookupProgram env cmd = none) :
    self.matchHostExecutableRules env cmd = [] := by
  cases cmd with
  | nil => rfl
  | cons first args =>
    simp only [matchHostExecutableRules]
    simp only [lookupProgram, head?_cons, bind_some] at h
    cases hp : AbsolutePathBuf.fromAbsolutePath env first.bytes with
    | none => rfl
    | some program =>
      rw [hp, bind_some, map_eq_none_iff] at h
      simp only [h]

theorem matchHostExecutableRules_some (h : lookupProgram env cmd = some (program, basename)) :
    self.matchHostExecutableRules env cmd =
      if self.listsProgram program basename then self.basenameMatches program basename cmd.tail
      else [] := by
  cases cmd with
  | nil => simp [lookupProgram] at h
  | cons first args =>
    simp only [lookupProgram, head?_cons, bind_some, bind_eq_some_iff,
      map_eq_some_iff, Prod.mk.injEq] at h
    obtain ⟨p, hp, b, hb, hpe, hbe⟩ := h
    subst hpe hbe
    have hlist : (self.hostExecutablesByName.lookup b).any (fun paths => p ∉ paths) =
        !self.listsProgram p b := by
      unfold listsProgram
      cases hl : self.hostExecutablesByName.lookup b with
      | none => rfl
      | some paths => simp
    simp only [matchHostExecutableRules, hp, hb, hlist, tail_cons, basenameMatches]
    cases hl : self.listsProgram p b <;> simp

theorem getVec_mergeOverlay (program : Text) :
    (self.mergeOverlay overlay).getVec program = self.getVec program ++ overlay.getVec program := by
  simp only [getVec, mergeOverlay, filter_append, map_append]

theorem exactMatches_mergeOverlay : (self.mergeOverlay overlay).exactMatches cmd =
      self.exactMatches cmd ++ overlay.exactMatches cmd := by
  cases cmd with
  | nil => rfl
  | cons first args =>
    simp only [exactMatches, matchExactRules, head?_cons, map_some, getD_some,
      getVec_mergeOverlay, filterMap_append]

theorem basenameMatches_mergeOverlay (args : List Text) :
    (self.mergeOverlay overlay).basenameMatches program basename args =
      self.basenameMatches program basename args ++
        overlay.basenameMatches program basename args := by
  simp only [basenameMatches, getVec_mergeOverlay, filterMap_append, map_append]

theorem listsProgram_mergeOverlay : (self.mergeOverlay overlay).listsProgram program basename =
      if (overlay.hostExecutablesByName.lookup basename).isSome then
        overlay.listsProgram program basename
      else self.listsProgram program basename := by
  simp only [listsProgram, mergeOverlay, lookup_append]
  cases ho : overlay.hostExecutablesByName.lookup basename <;> simp

def hidesProgram (env : AbsolutePathBuf.ProcessEnv) (user requirements : Policy)
    (cmd : List Text) : Prop :=
  ∃ program basename, lookupProgram env cmd = some (program, basename) ∧
    requirements.hostExecutablesByName.lookup basename = none ∧
    user.listsProgram program basename = false

theorem matchHostExecutableRules_mergeOverlay (user requirements : Policy) (cmd : List Text)
    (hmatch : requirements.matchHostExecutableRules env cmd ≠ []) :
    (hidesProgram env user requirements cmd →
      (user.mergeOverlay requirements).matchHostExecutableRules env cmd = []) ∧
    (¬ hidesProgram env user requirements cmd →
      requirements.matchHostExecutableRules env cmd ⊆
        (user.mergeOverlay requirements).matchHostExecutableRules env cmd) := by
  cases hl : lookupProgram env cmd with
  | none => exact absurd (matchHostExecutableRules_none env requirements cmd hl) hmatch
  | some key =>
    obtain ⟨program, basename⟩ := key
    have hr := matchHostExecutableRules_some env requirements cmd program basename hl
    have hm := matchHostExecutableRules_some env (user.mergeOverlay requirements) cmd
      program basename hl
    have hlists : requirements.listsProgram program basename := by
      by_contra hno
      rw [if_neg hno] at hr
      exact hmatch hr
    rw [if_pos hlists] at hr
    rw [listsProgram_mergeOverlay, hlists, basenameMatches_mergeOverlay] at hm
    constructor
    · rintro ⟨p, b, hpb, hnone, hhide⟩
      obtain ⟨rfl, rfl⟩ : program = p ∧ basename = b := by simpa [hl] using hpb
      rw [hm, hnone, hhide]
      rfl
    · intro hshow
      rw [hr, hm, if_pos]
      · exact subset_append_right _ _
      · cases ho : requirements.hostExecutablesByName.lookup basename with
        | some paths => rfl
        | none =>
          have hu : user.listsProgram program basename ≠ false := fun h =>
            hshow ⟨program, basename, hl, ho, h⟩
          simpa using hu

/-- The overlay keeps the strictness of the requirements on a command they match exactly when
they match it by its exact program; or no exact rule of the user does and the user's lists do
not hide the program; or the user's own exact rules are strict enough. -/
theorem mergeOverlay_decision_ge_iff (env : AbsolutePathBuf.ProcessEnv)
    (user requirements : Policy) (cmd : List Text)
    (hmatch : requirements.decision env cmd ≠ ⊥) :
    requirements.decision env cmd ≤ (user.mergeOverlay requirements).decision env cmd ↔
      requirements.exactMatches cmd ≠ [] ∨
      (user.exactMatches cmd = [] ∧ ¬ hidesProgram env user requirements cmd) ∨
      (user.exactMatches cmd ≠ [] ∧
        requirements.decision env cmd ≤ strictest (user.exactMatches cmd)) := by
  simp only [decision, matchesForCommand_resolved, exactMatches_mergeOverlay] at hmatch ⊢
  by_cases hr : requirements.exactMatches cmd = []
  · simp only [hr, if_true, append_nil, ne_eq, not_true_eq_false, false_or] at hmatch ⊢
    by_cases hu : user.exactMatches cmd = []
    · have hne : requirements.matchHostExecutableRules env cmd ≠ [] := by
        rw [ne_eq, ← strictest_eq_bot_iff]
        exact hmatch
      have hmerge := matchHostExecutableRules_mergeOverlay env user requirements cmd hne
      simp only [hu, if_true, true_and, not_true_eq_false, false_and, or_false]
      constructor
      · intro hle hhide
        rw [hmerge.1 hhide, strictest_eq_bot_iff [] |>.mpr rfl, le_bot_iff] at hle
        exact hmatch hle
      · exact fun hshow => strictest_mono (hmerge.2 hshow)
    · simp only [hu, if_false, false_and, false_or, not_false_eq_true, true_and]
  · have happ : user.exactMatches cmd ++ requirements.exactMatches cmd ≠ [] := by
      simp [hr]
    simp only [hr, happ, if_false, ne_eq, not_false_eq_true, true_or, iff_true]
    exact strictest_mono (subset_append_right _ _)

/-- A user rule for the path `/usr/bin/git` hides the requirement on the basename `git`. -/
theorem mergeOverlay_hides_basename_rule :
    let env : AbsolutePathBuf.ProcessEnv := ⟨none, none⟩
    let git := "/usr/bin/git".toList
    let user : Policy := ⟨[(git, ⟨⟨git, []⟩, .allow, none⟩)], []⟩
    let requirements : Policy := ⟨[("git".toList, ⟨⟨"git".toList, []⟩, .forbidden, none⟩)], []⟩
    let cmd := [git, "push".toList]
    requirements.decision env cmd = Decision.forbidden ∧
      (user.mergeOverlay requirements).decision env cmd = Decision.allow ∧
      ¬ requirements.decision env cmd ≤ (user.mergeOverlay requirements).decision env cmd := by
  decide +kernel

theorem mergeOverlay_decision_ge_iff_git :
    let env : AbsolutePathBuf.ProcessEnv := ⟨none, none⟩
    let git := "/usr/bin/git".toList
    let user : Policy :=
      ⟨[], [("git".toList, [AbsolutePathBuf.root.normalizePath (Text.bytes "/opt/git".toList)])]⟩
    let requirements : Policy := ⟨[("git".toList, ⟨⟨"git".toList, []⟩, .forbidden, none⟩)], []⟩
    let cmd := [git, "push".toList]
    requirements.decision env cmd ≤ (user.mergeOverlay requirements).decision env cmd ↔
      requirements.exactMatches cmd ≠ [] ∨
      (user.exactMatches cmd = [] ∧ ¬ hidesProgram env user requirements cmd) ∨
      (user.exactMatches cmd ≠ [] ∧
        requirements.decision env cmd ≤ strictest (user.exactMatches cmd)) :=
  mergeOverlay_decision_ge_iff _ _ _ _ (by decide +kernel)

end Policy

end Codex.ExecPolicy

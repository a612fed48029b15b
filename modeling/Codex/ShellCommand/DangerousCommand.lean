import Codex.NetworkProxy.Host

/-! `shell-command/src/command_safety/is_dangerous_command.rs`: the rules for forced `rm`, the
wrappers `sudo`, `env` and `trap`, and the depth at which the search gives up. -/

namespace Codex.ShellCommand
open Codex.Lib List

inductive DangerousCommandPlatform
  | posix
  | windows
  deriving DecidableEq, Repr

inductive DangerousCommandMatch
  | forcedRm
  | other
  deriving DecidableEq, Repr

def maxDangerousCommandWrapperDepth : Nat := 8

/-- `C:name` on Windows, where the drive has no separator behind it. -/
def stripDrive : Text → Text
  | drive :: ':' :: name => if drive.isAlpha then name else drive :: ':' :: name
  | name => name

def stripExecutableSuffix (name : Text) : Option Text :=
  [".exe", ".cmd", ".bat", ".com"].findSome? fun suffix =>
    if suffix.toList <:+ name then some (name.take (name.length - suffix.toList.length)) else none

def executableNameLookupKey (raw : Text) : DangerousCommandPlatform → Option Text
  | .posix =>
    let name := raw.rtakeWhile (· ≠ '/')
    if name.isEmpty then none else some name
  | .windows =>
    let name := raw.rtakeWhile fun c => c ≠ '/' && c ≠ '\\'
    if name.isEmpty then none
    else
      let name := NetworkProxy.toAsciiLowercase (stripDrive name)
      match stripExecutableSuffix name with
      | some stripped => some stripped
      | none => if name.isEmpty then none else some name

def isForceOption (arg : Text) : Bool :=
  arg = "--force".toList ||
    match arg with
    | '-' :: flags => flags.head? ≠ some '-' && 'f' ∈ flags
    | _ => false

def rmArgsIncludeForceOption (args : List Text) : Bool :=
  (args.takeWhile (· ≠ "--".toList)).any isForceOption

def isAssignment (argument : Text) : Bool :=
  match Text.splitOnce ['='] argument with
  | some (name, _) => !name.isEmpty && name.head? ≠ some '-'
  | none => false

def isIgnoreEnvironment (argument : Text) : Bool :=
  argument = "-i".toList || argument = "--ignore-environment".toList

/-- The words from `command_index` on when the loop over the arguments of `env` ends. -/
def skipEnvArguments : List Text → List Text
  | [] => []
  | argument :: rest =>
    if argument = "--".toList then rest
    else if isIgnoreEnvironment argument || isAssignment argument then skipEnvArguments rest
    else argument :: rest

section classifier
variable (parseShellLcLiteralCommands : List Text → Option (List (List Text)))
  (isDangerousCommandWindows : List Text → Bool) (platform : DangerousCommandPlatform)
  (nested : List Text → Option DangerousCommandMatch)

/-- `args` are the words behind `env`; `nested` classifies one level deeper. -/
def dangerousCommandMatchForEnv (args : List Text) : Option DangerousCommandMatch :=
  nested (skipEnvArguments args)

def dangerousCommandMatchForTrap (args : List Text) : Option DangerousCommandMatch :=
  let operands := if args.head? = some "--".toList then args.tail else args
  match operands.head?.filter fun action => action.head? ≠ some '-' with
  | some action => nested ["sh".toList, "-c".toList, action]
  | none => none

def dangerousCommandMatchForExec : List Text → Option DangerousCommandMatch
  | [] => none
  | cmd0 :: args =>
    let name := executableNameLookupKey cmd0 platform
    if name = some "rm".toList && rmArgsIncludeForceOption args then some .forcedRm
    else if name = some "sudo".toList then nested args
    else if name = some "env".toList then dangerousCommandMatchForEnv nested args
    else if name = some "trap".toList then dangerousCommandMatchForTrap nested args
    else none

def dangerousCommandMatchStep (command : List Text) : Option DangerousCommandMatch :=
  (dangerousCommandMatchForExec platform nested command).or
    (((parseShellLcLiteralCommands command).bind fun commands => commands.findSome? nested).or
      (if platform = .windows && isDangerousCommandWindows command then some .other else none))

/-- `dangerous_command_match_with_depth`; `levels` is how far `wrapper_depth` is from passing the
limit. -/
def dangerousCommandMatchWithDepth : Nat → List Text → Option DangerousCommandMatch
  | 0, _ => some .other
  | levels + 1, command =>
    dangerousCommandMatchStep parseShellLcLiteralCommands isDangerousCommandWindows platform
      (dangerousCommandMatchWithDepth levels) command

def dangerousCommandMatchForPlatform (command : List Text) : Option DangerousCommandMatch :=
  dangerousCommandMatchWithDepth parseShellLcLiteralCommands isDangerousCommandWindows platform
    (maxDangerousCommandWrapperDepth + 1) command

end classifier

section depth
variable {parse : List Text → Option (List (List Text))} {windows : List Text → Bool}
  {platform : DangerousCommandPlatform} {nested nested' : List Text → Option DangerousCommandMatch}

theorem dangerousCommandMatchForTrap_mono
    (hnested : ∀ command, (nested command).isSome → (nested' command).isSome) {args : List Text}
    (h : (dangerousCommandMatchForTrap nested args).isSome) :
    (dangerousCommandMatchForTrap nested' args).isSome := by
  unfold dangerousCommandMatchForTrap at h ⊢
  extract_lets at h ⊢
  split at h
  · exact hnested _ h
  · cases h

variable {command : List Text}

theorem dangerousCommandMatchForExec_mono
    (hnested : ∀ command, (nested command).isSome → (nested' command).isSome)
    (h : (dangerousCommandMatchForExec platform nested command).isSome) :
    (dangerousCommandMatchForExec platform nested' command).isSome := by
  cases command with
  | nil => exact h
  | cons cmd0 args =>
    simp only [dangerousCommandMatchForExec] at h ⊢
    split_ifs at h ⊢ with hrm hsudo henv htrap
    · exact h
    · exact hnested _ h
    · exact hnested _ h
    · exact dangerousCommandMatchForTrap_mono hnested h
    · exact h

theorem dangerousCommandMatchStep_mono
    (hnested : ∀ command, (nested command).isSome → (nested' command).isSome)
    (h : (dangerousCommandMatchStep parse windows platform nested command).isSome) :
    (dangerousCommandMatchStep parse windows platform nested' command).isSome := by
  simp only [dangerousCommandMatchStep, Option.isSome_or, Bool.or_eq_true] at h ⊢
  refine h.imp (dangerousCommandMatchForExec_mono hnested) (Or.imp_left fun hparse => ?_)
  cases hcommands : parse command with
  | none => simp [hcommands] at hparse
  | some commands =>
    simp only [hcommands, Option.bind_some, findSome?_isSome_iff] at hparse ⊢
    obtain ⟨c, hc, hsome⟩ := hparse
    exact ⟨c, hc, hnested c hsome⟩

theorem dangerousCommandMatchWithDepth_succ {levels : Nat}
    (h : (dangerousCommandMatchWithDepth parse windows platform (levels + 1) command).isSome) :
    (dangerousCommandMatchWithDepth parse windows platform levels command).isSome := by
  induction levels generalizing command with
  | zero => rfl
  | succ levels ih => exact dangerousCommandMatchStep_mono (fun _ => ih) h

theorem dangerousCommandMatchWithDepth_antitone {levels levels' : Nat} (hle : levels ≤ levels')
    (h : (dangerousCommandMatchWithDepth parse windows platform levels' command).isSome) :
    (dangerousCommandMatchWithDepth parse windows platform levels command).isSome := by
  induction hle with
  | refl => exact h
  | step _ ih => exact ih (dangerousCommandMatchWithDepth_succ h)

end depth

inductive IgnoreEnvironment
  | short
  | long
  deriving DecidableEq, Repr

def IgnoreEnvironment.word : IgnoreEnvironment → Text
  | .short => "-i".toList
  | .long => "--ignore-environment".toList

structure Assignment where
  name : Text
  value : Text
  name_ne : name ≠ []
  not_option : name.head? ≠ some '-'
  no_equals : '=' ∉ name

def Assignment.word (a : Assignment) : Text := a.name ++ '=' :: a.value

inductive Wrapper
  | sudoCommand
  | envCommand (options : List IgnoreEnvironment) (dashes : Bool) (assignments : List Assignment)

def Wrapper.words : Wrapper → List Text
  | .sudoCommand => ["sudo".toList]
  | .envCommand options dashes assignments =>
    "env".toList :: (options.map IgnoreEnvironment.word ++
      ((if dashes then ["--".toList] else []) ++ assignments.map Assignment.word))

def wrap (wrappers : List Wrapper) (cmd : List Text) : List Text :=
  wrappers.flatMap Wrapper.words ++ cmd

def PlainFirst (cmd : List Text) : Prop :=
  ∀ word, cmd.head? = some word → '=' ∉ word ∧ word.head? ≠ some '-'

/-- Whether a search that meets the assignments where it looks for a command finds what comes
behind them, or gives up before. Such an assignment is taken for the program that its end names;
`behind` is the question for what comes behind and `more` says that there is something. -/
def assignmentsPass (platform : DangerousCommandPlatform) (behind : Nat → Bool) (more : Bool) :
    Nat → List Assignment → Bool
  | levels, [] => behind levels
  | 0, _ :: _ => true
  | levels + 1, a :: assignments =>
    let name := executableNameLookupKey a.word platform
    if name = some "sudo".toList then assignmentsPass platform behind more levels assignments
    else if name = some "env".toList then behind levels
    else name = some "trap".toList && levels = 0 && (!assignments.isEmpty || more)

/-- Whether a search finds what comes behind the wrappers, or gives up before. Behind a `--` the
arguments of `env` are not read as assignments any more. -/
def wrappersPass (platform : DangerousCommandPlatform) (empty : Bool) : Nat → List Wrapper → Bool
  | _, [] => true
  | 0, _ :: _ => true
  | levels + 1, .sudoCommand :: wrappers => wrappersPass platform empty levels wrappers
  | levels + 1, .envCommand _ dashes assignments :: wrappers =>
    if dashes then
      assignmentsPass platform (fun levels => wrappersPass platform empty levels wrappers)
        (!wrappers.isEmpty || !empty) levels assignments
    else wrappersPass platform empty levels wrappers

open Assignment

theorem equals_mem_word (a : Assignment) : '=' ∈ a.word := by simp [word]

theorem head?_word_ne (a : Assignment) : a.word.head? ≠ some '-' := by
  rw [word, head?_append_of_ne_nil _ a.name_ne]
  exact a.not_option

theorem isAssignment_word (a : Assignment) : isAssignment a.word := by
  have hsplit : Text.splitOnce ['='] a.word = some (a.name, a.value) :=
    Text.splitOnce_singleton_eq_some_iff.mpr ⟨rfl, a.no_equals⟩
  simp [isAssignment, hsplit, a.name_ne, a.not_option]

theorem not_isAssignment {word : Text} (h : '=' ∉ word) : isAssignment word = false := by
  unfold isAssignment
  split
  · next name value hsplit =>
    have hword := (Text.splitOnce_singleton_eq_some_iff.mp hsplit).1
    exact absurd (hword ▸ by simp) h
  · rfl

theorem skipEnvArguments_options (options : List IgnoreEnvironment) (rest : List Text) :
    skipEnvArguments (options.map IgnoreEnvironment.word ++ rest) = skipEnvArguments rest := by
  induction options with
  | nil => rfl
  | cons option options ih => cases option <;> exact ih

theorem skipEnvArguments_assignments (assignments : List Assignment) (rest : List Text) :
    skipEnvArguments (assignments.map word ++ rest) = skipEnvArguments rest := by
  induction assignments with
  | nil => rfl
  | cons a assignments ih =>
    have hdashes : a.word ≠ "--".toList := by
      intro h
      exact absurd (h ▸ equals_mem_word a) (by decide)
    rw [map_cons, cons_append, skipEnvArguments, if_neg hdashes, isAssignment_word,
      Bool.or_true, if_pos rfl, ih]

theorem skipEnvArguments_of_plainFirst {cmd : List Text} (h : PlainFirst cmd) :
    skipEnvArguments cmd = cmd := by
  cases cmd with
  | nil => rfl
  | cons word args =>
    obtain ⟨hequals, hoption⟩ := h word rfl
    have hdashes : word ≠ "--".toList := by
      rintro rfl
      exact hoption (by decide)
    have hignore : isIgnoreEnvironment word = false := by
      rw [isIgnoreEnvironment, Bool.or_eq_false_iff, decide_eq_false_iff_not,
        decide_eq_false_iff_not]
      constructor <;>
      · rintro rfl
        exact hoption (by decide)
    rw [skipEnvArguments, if_neg hdashes, hignore, not_isAssignment hequals, Bool.or_false,
      if_neg Bool.false_ne_true]

theorem plainFirst_wrap {wrappers : List Wrapper} {cmd : List Text} (h : PlainFirst cmd) :
    PlainFirst (wrap wrappers cmd) := by
  cases wrappers with
  | nil => exact h
  | cons w wrappers =>
    intro word hword
    cases w <;> (obtain rfl := Option.some.inj hword; decide)

theorem skipEnvArguments_wrap {wrappers : List Wrapper} {cmd : List Text} (h : PlainFirst cmd)
    (assignments : List Assignment) :
    skipEnvArguments (assignments.map word ++ wrap wrappers cmd) = wrap wrappers cmd := by
  rw [skipEnvArguments_assignments, skipEnvArguments_of_plainFirst (plainFirst_wrap h)]

section exec
variable {platform : DangerousCommandPlatform} {nested : List Text → Option DangerousCommandMatch}
  {word : Text} {args : List Text}

theorem exec_of_sudo (h : executableNameLookupKey word platform = some "sudo".toList) :
    dangerousCommandMatchForExec platform nested (word :: args) = nested args := by
  rw [dangerousCommandMatchForExec, h]
  rfl

theorem exec_of_env (h : executableNameLookupKey word platform = some "env".toList) :
    dangerousCommandMatchForExec platform nested (word :: args) =
      nested (skipEnvArguments args) := by
  rw [dangerousCommandMatchForExec, h]
  rfl

theorem exec_of_trap (h : executableNameLookupKey word platform = some "trap".toList) :
    dangerousCommandMatchForExec platform nested (word :: args) =
      dangerousCommandMatchForTrap nested args := by
  rw [dangerousCommandMatchForExec, h]
  rfl

theorem exec_of_other
    (hrm : executableNameLookupKey word platform = some "rm".toList →
      rmArgsIncludeForceOption args = false)
    (hsudo : executableNameLookupKey word platform ≠ some "sudo".toList)
    (henv : executableNameLookupKey word platform ≠ some "env".toList)
    (htrap : executableNameLookupKey word platform ≠ some "trap".toList) :
    dangerousCommandMatchForExec platform nested (word :: args) = none := by
  rw [dangerousCommandMatchForExec]
  rw [if_neg, if_neg hsudo, if_neg henv, if_neg htrap]
  simpa using hrm

theorem trap_of_operand {action : Text} (h : args.head? = some action)
    (hoption : action.head? ≠ some '-') :
    dangerousCommandMatchForTrap nested args = nested ["sh".toList, "-c".toList, action] := by
  have hdashes : args.head? ≠ some "--".toList := by
    intro heq
    rw [h] at heq
    obtain rfl := Option.some.inj heq
    exact hoption (by decide)
  rw [dangerousCommandMatchForTrap, if_neg hdashes, h,
    Option.filter_some_pos (by simpa using hoption)]

theorem trap_eq_none (h : ∀ action, nested ["sh".toList, "-c".toList, action] = none) :
    dangerousCommandMatchForTrap nested args = none := by
  unfold dangerousCommandMatchForTrap
  extract_lets
  split
  · exact h _
  · rfl

theorem exists_operand {assignments : List Assignment} {rest : List Text}
    (hplain : PlainFirst rest) (h : (!assignments.isEmpty || !rest.isEmpty)) :
    ∃ action, (assignments.map Assignment.word ++ rest).head? = some action ∧
      action.head? ≠ some '-' := by
  cases assignments with
  | cons a _ => exact ⟨a.word, rfl, head?_word_ne a⟩
  | nil =>
    cases rest with
    | cons word _ => exact ⟨word, rfl, (hplain word rfl).2⟩
    | nil => cases h

theorem isEmpty_wrap (wrappers : List Wrapper) (cmd : List Text) :
    (!wrappers.isEmpty || !cmd.isEmpty) = !(wrap wrappers cmd).isEmpty := by
  cases wrappers with
  | nil => rfl
  | cons w _ => cases w <;> rfl

theorem lookupKey_sudo (platform : DangerousCommandPlatform) :
    executableNameLookupKey "sudo".toList platform = some "sudo".toList := by
  cases platform <;> decide +kernel

theorem lookupKey_env (platform : DangerousCommandPlatform) :
    executableNameLookupKey "env".toList platform = some "env".toList := by
  cases platform <;> decide +kernel

def Wrapper.next (rest : List Text) : Wrapper → List Text
  | .envCommand _ true assignments => assignments.map Assignment.word ++ rest
  | _ => rest

theorem exec_wrapper {wrappers : List Wrapper} {cmd : List Text} (h : PlainFirst cmd)
    (w : Wrapper) :
    dangerousCommandMatchForExec platform nested (wrap (w :: wrappers) cmd) =
      nested (w.next (wrap wrappers cmd)) := by
  cases w with
  | sudoCommand => exact exec_of_sudo (lookupKey_sudo platform)
  | envCommand options dashes assignments =>
    have hwords : wrap (.envCommand options dashes assignments :: wrappers) cmd =
        "env".toList :: (options.map IgnoreEnvironment.word ++
          ((if dashes then ["--".toList] else []) ++
            (assignments.map word ++ wrap wrappers cmd))) := by
      simp [wrap, Wrapper.words]
    rw [hwords, exec_of_env (lookupKey_env platform), skipEnvArguments_options]
    cases dashes with
    | true => rfl
    | false => exact congrArg nested (skipEnvArguments_wrap h assignments)

end exec

section found
variable {parse : List Text → Option (List (List Text))} {windows : List Text → Bool}
  {platform : DangerousCommandPlatform}

theorem isSome_of_exec {levels : Nat} {command : List Text}
    (h : (dangerousCommandMatchForExec platform
      (dangerousCommandMatchWithDepth parse windows platform levels) command).isSome) :
    (dangerousCommandMatchWithDepth parse windows platform (levels + 1) command).isSome := by
  rw [dangerousCommandMatchWithDepth, dangerousCommandMatchStep, Option.isSome_or, h, Bool.true_or]

theorem isSome_of_assignmentsPass {behind : Nat → Bool} {more : Bool} {rest : List Text}
    (hplain : PlainFirst rest) (hmore : more = !rest.isEmpty) {levels : Nat}
    {assignments : List Assignment}
    (hbehind : ∀ l ≤ levels, behind l →
      (dangerousCommandMatchWithDepth parse windows platform l rest).isSome)
    (h : assignmentsPass platform behind more levels assignments) :
    (dangerousCommandMatchWithDepth parse windows platform levels
      (assignments.map word ++ rest)).isSome := by
  induction assignments generalizing levels with
  | nil =>
    rw [assignmentsPass] at h
    exact hbehind levels le_rfl h
  | cons a assignments ih =>
    cases levels with
    | zero => rfl
    | succ levels =>
      refine isSome_of_exec ?_
      rw [map_cons, cons_append]
      rw [assignmentsPass] at h
      split_ifs at h with hsudo henv
      · rw [exec_of_sudo hsudo]
        exact ih (fun l hl => hbehind l (hl.trans (Nat.le_succ levels))) h
      · rw [exec_of_env henv, skipEnvArguments_assignments, skipEnvArguments_of_plainFirst hplain]
        exact hbehind levels (Nat.le_succ levels) h
      · simp only [Bool.and_eq_true, decide_eq_true_eq] at h
        obtain ⟨⟨htrap, rfl⟩, hoperand⟩ := h
        obtain ⟨action, haction, hoption⟩ := exists_operand hplain (hmore ▸ hoperand)
        rw [exec_of_trap htrap, trap_of_operand haction hoption]
        rfl

theorem isSome_of_wrappersPass {cmd : List Text} (hplain : PlainFirst cmd) {levels : Nat}
    (hcmd : (dangerousCommandMatchWithDepth parse windows platform levels cmd).isSome)
    {wrappers : List Wrapper} (h : wrappersPass platform cmd.isEmpty levels wrappers) :
    (dangerousCommandMatchWithDepth parse windows platform levels (wrap wrappers cmd)).isSome := by
  induction wrappers generalizing levels with
  | nil => exact hcmd
  | cons w wrappers ih =>
    cases levels with
    | zero => rfl
    | succ levels =>
      have hless := dangerousCommandMatchWithDepth_succ hcmd
      refine isSome_of_exec ?_
      rw [exec_wrapper hplain]
      cases w with
      | sudoCommand => exact ih hless h
      | envCommand options dashes assignments =>
        cases dashes with
        | false => exact ih hless h
        | true =>
          exact isSome_of_assignmentsPass (plainFirst_wrap hplain) (isEmpty_wrap wrappers cmd)
            (fun l hl => ih (dangerousCommandMatchWithDepth_antitone hl hless)) h

end found

def onlyIn (cmd command : List Text) : Option (List (List Text)) :=
  if command = cmd then some [["rm".toList, "-f".toList]] else none

structure Harmless (cmd : List Text) : Prop where
  plain : PlainFirst cmd
  short : cmd.length ≤ 1
  noForce : ∀ word ∈ cmd, isForceOption word = false

section missed
variable {platform : DangerousCommandPlatform} {cmd : List Text}

theorem withDepth_of_length {levels : Nat} {command : List Text} (h : cmd.length < command.length) :
    dangerousCommandMatchWithDepth (onlyIn cmd) (fun _ => false) platform (levels + 1) command =
      dangerousCommandMatchForExec platform
        (dangerousCommandMatchWithDepth (onlyIn cmd) (fun _ => false) platform levels) command := by
  have hne : command ≠ cmd := by
    rintro rfl
    exact absurd h (Nat.lt_irrefl _)
  simp [dangerousCommandMatchWithDepth, dangerousCommandMatchStep, onlyIn, hne]

theorem withDepth_cmd (levels : Nat) :
    (dangerousCommandMatchWithDepth (onlyIn cmd) (fun _ => false) platform (levels + 2)
      cmd).isSome := by
  have hrm : (dangerousCommandMatchWithDepth (onlyIn cmd) (fun _ => false) platform (levels + 1)
      ["rm".toList, "-f".toList]).isSome := by
    refine isSome_of_exec ?_
    cases platform <;> rfl
  rw [dangerousCommandMatchWithDepth, dangerousCommandMatchStep, Option.isSome_or, Option.isSome_or]
  rw [onlyIn, if_pos rfl, Option.bind_some, findSome?_cons_of_isSome hrm, hrm, Bool.true_or,
    Bool.or_true]

theorem withDepth_shell (hshort : cmd.length ≤ 1) (levels : Nat) (action : Text) :
    dangerousCommandMatchWithDepth (onlyIn cmd) (fun _ => false) platform (levels + 1)
      ["sh".toList, "-c".toList, action] = none := by
  have hkey : executableNameLookupKey "sh".toList platform = some "sh".toList := by
    cases platform <;> decide +kernel
  rw [withDepth_of_length (by simp only [length_cons, length_nil]; omega)]
  apply exec_of_other <;> rw [hkey]
  · exact fun h => absurd h (by decide)
  · decide
  · decide
  · decide

theorem isForceOption_assignment (a : Assignment) : isForceOption a.word = false := by
  have hhead := head?_word_ne a
  have hforce : a.word ≠ "--force".toList := by
    intro h
    exact absurd (h ▸ equals_mem_word a) (by decide)
  unfold isForceOption
  rw [decide_eq_false hforce, Bool.false_or]
  split
  · next flags hword => simp [hword] at hhead
  · rfl

theorem rmArgsIncludeForceOption_eq_false {args : List Text}
    (h : ∀ word ∈ args, isForceOption word = false) : rmArgsIncludeForceOption args = false := by
  rw [rmArgsIncludeForceOption, any_eq_false]
  intro word hword
  rw [h word ((List.takeWhile_prefix _).subset hword)]
  exact Bool.false_ne_true

variable {wrappers : List Wrapper}

theorem isForceOption_of_mem_wrap (h : ∀ word ∈ cmd, isForceOption word = false) {word : Text}
    (hword : word ∈ wrap wrappers cmd) : isForceOption word = false := by
  rw [wrap, mem_append, mem_flatMap] at hword
  rcases hword with ⟨w, -, hword⟩ | hword
  · cases w with
    | sudoCommand =>
      obtain rfl := mem_singleton.mp hword
      decide
    | envCommand options dashes assignments =>
      simp only [Wrapper.words, mem_cons, mem_append, mem_map] at hword
      rcases hword with rfl | ⟨option, -, rfl⟩ | hdashes | ⟨a, -, rfl⟩
      · decide
      · cases option <;> decide
      · cases dashes with
        | false => exact absurd hdashes not_mem_nil
        | true =>
          obtain rfl := mem_singleton.mp hdashes
          decide
      · exact isForceOption_assignment a
  · exact h word hword

theorem withDepth_assignments_eq_none (hcmd : Harmless cmd) {behind : Nat → Bool}
    (hbehind : ∀ l, behind l = false → dangerousCommandMatchWithDepth (onlyIn cmd) (fun _ => false)
      platform l (wrap wrappers cmd) = none) {levels : Nat} {assignments : List Assignment}
    (h : assignmentsPass platform behind (!wrappers.isEmpty || !cmd.isEmpty) levels assignments =
      false) : dangerousCommandMatchWithDepth (onlyIn cmd) (fun _ => false) platform levels
      (assignments.map word ++ wrap wrappers cmd) = none := by
  induction assignments generalizing levels with
  | nil =>
    rw [assignmentsPass] at h
    exact hbehind levels h
  | cons a assignments ih =>
    cases levels with
    | zero => cases h
    | succ levels =>
      rw [List.map_cons, List.cons_append]
      have hlonger : cmd.length <
          (a.word :: (assignments.map word ++ wrap wrappers cmd)).length := by
        simp only [wrap, List.length_cons, List.length_append]
        omega
      rw [withDepth_of_length hlonger]
      rw [assignmentsPass] at h
      split_ifs at h with hsudo henv
      · rw [exec_of_sudo hsudo]
        exact ih h
      · rw [exec_of_env henv, skipEnvArguments_wrap hcmd.plain]
        exact hbehind levels h
      · by_cases htrap : executableNameLookupKey a.word platform = some "trap".toList
        · rw [exec_of_trap htrap]
          cases levels with
          | zero =>
            -- no words are left for an action
            rw [isEmpty_wrap, decide_eq_true htrap, decide_eq_true rfl, Bool.true_and,
              Bool.true_and, Bool.or_eq_false_iff, Bool.not_eq_false', Bool.not_eq_false',
              List.isEmpty_iff, List.isEmpty_iff] at h
            rw [h.1, h.2]
            rfl
          | succ levels => exact trap_eq_none fun action => withDepth_shell hcmd.short levels action
        · refine exec_of_other (fun _ => rmArgsIncludeForceOption_eq_false ?_) hsudo henv htrap
          intro word hword
          rcases List.mem_append.mp hword with hmem | hmem
          · obtain ⟨b, -, rfl⟩ := List.mem_map.mp hmem
            exact isForceOption_assignment b
          · exact isForceOption_of_mem_wrap hcmd.noForce hmem

theorem withDepth_wrap_eq_none (hcmd : Harmless cmd) {levels : Nat}
    (h : wrappersPass platform cmd.isEmpty levels wrappers = false) :
    dangerousCommandMatchWithDepth (onlyIn cmd) (fun _ => false) platform levels
      (wrap wrappers cmd) = none := by
  induction wrappers generalizing levels with
  | nil =>
    rw [wrappersPass] at h
    cases h
  | cons w wrappers ih =>
    cases levels with
    | zero => cases h
    | succ levels =>
      have hlonger : cmd.length < (wrap (w :: wrappers) cmd).length := by
        cases w <;> simp only [wrap, Wrapper.words, flatMap_cons, length_append,
          length_cons] <;> omega
      rw [withDepth_of_length hlonger, exec_wrapper hcmd.plain]
      cases w with
      | sudoCommand => exact ih h
      | envCommand options dashes assignments =>
        cases dashes with
        | false => exact ih h
        | true => exact withDepth_assignments_eq_none hcmd (fun l => ih) h

end missed

/-- Wrappers never hide a dangerous command exactly if the search passes them or gives up before:
whatever the parser and the Windows classifier find, and for commands with and without words. -/
theorem wrappers_hide_nothing_iff (platform : DangerousCommandPlatform) (wrappers : List Wrapper)
    (empty : Bool) :
    (∀ (parse : List Text → Option (List (List Text))) (windows : List Text → Bool)
        (cmd : List Text), PlainFirst cmd → cmd.isEmpty = empty →
        (dangerousCommandMatchForPlatform parse windows platform cmd).isSome →
        (dangerousCommandMatchForPlatform parse windows platform (wrap wrappers cmd)).isSome) ↔
      wrappersPass platform empty (maxDangerousCommandWrapperDepth + 1) wrappers = true := by
  constructor
  · intro hall
    rw [← Bool.not_eq_false]
    intro hpass
    let cmd : List Text := if empty then [] else ["script".toList]
    have hempty : cmd.isEmpty = empty := by cases empty <;> rfl
    have hcmd : Harmless cmd := by
      cases empty with
      | true => exact ⟨fun _ h => absurd h (by simp [cmd]), by decide, by decide⟩
      | false =>
        refine ⟨fun word h => ?_, by decide, by decide⟩
        obtain rfl := Option.some.inj h
        decide
    have hfound := hall (onlyIn cmd) (fun _ => false) cmd hcmd.plain hempty (withDepth_cmd 7)
    rw [← hempty] at hpass
    rw [dangerousCommandMatchForPlatform, withDepth_wrap_eq_none hcmd hpass] at hfound
    cases hfound
  · rintro hpass parse windows cmd hplain rfl hdangerous
    exact isSome_of_wrappersPass hplain hdangerous hpass

/-- Assignments behind a `--` are taken for the command. -/
theorem env_dashes_hide_rm :
    let parse : List Text → Option (List (List Text)) := fun _ => none
    let rm := ["rm".toList, "-rf".toList, "/".toList]
    let assignment : Assignment := ⟨"A".toList, "1".toList, by decide, by decide, by decide⟩
    dangerousCommandMatchForPlatform parse (fun _ => false) .posix rm = some .forcedRm ∧
      wrap [.envCommand [] true [assignment]] rm =
        ["env".toList, "--".toList, "A=1".toList, "rm".toList, "-rf".toList, "/".toList] ∧
      dangerousCommandMatchForPlatform parse (fun _ => false) .posix
        (wrap [.envCommand [] true [assignment]] rm) = none := by
  decide +kernel

end Codex.ShellCommand

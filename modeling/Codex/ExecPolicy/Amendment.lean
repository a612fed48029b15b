import Codex.ExecPolicy.NetworkRule
import Codex.ExecPolicy.Overlay
import Codex.Lib.Lines

/-! `append_amendment_and_update` and `load_exec_policy` of `core/src/exec_policy.rs`, with the
rules file of `execpolicy/src/amend.rs`. -/

namespace Codex.ExecPolicy
open Codex.Lib List Option Policy

deriving instance DecidableEq for Policy

namespace Policy

def empty : Policy := ⟨[], []⟩

def addPrefixRule (self : Policy) (tokens : List Text) (decision : Decision) :
    Except Error Policy :=
  match tokens with
  | [] => .error (.invalidPattern "prefix cannot be empty".toList)
  | first :: rest =>
    let rule : PrefixRule := ⟨⟨first, rest.map PatternToken.single⟩, decision, none⟩
    .ok { self with rulesByProgram := self.rulesByProgram ++ [(first, rule)] }

def allowRule (first : Text) (rest : List Text) : PrefixRule :=
  ⟨⟨first, rest.map PatternToken.single⟩, .allow, none⟩

end Policy

/-- The rules files in the order they are parsed. `rulesFile` is `default.rules` of the user, which
need not exist; the others stand before and after it. -/
structure RuleSources where
  before : List Text
  rulesFile : Option Text
  after : List Text
  requirements : Option Policy

section load
/- `evaluate hosts contents` is what a Starlark module adds to the policy; the host executables
of the files before it are looked at when the examples of its rules are checked. -/
variable (evaluate : List (Text × List AbsolutePathBuf) → Text → Option Policy)

def parseFiles (files : List Text) (builder : Policy) : Option Policy :=
  files.foldlM (fun builder contents =>
    (evaluate builder.hostExecutablesByName contents).map builder.mergeOverlay) builder

def loadExecPolicy (sources : RuleSources) : Option Policy :=
  (parseFiles evaluate (sources.before ++ (sources.rulesFile.toList ++ sources.after))
    .empty).map fun policy =>
      match sources.requirements with
      | none => policy
      | some requirements => policy.mergeOverlay requirements

end load

inductive ExecPolicyUpdateError
  | emptyPrefix
  | addRule (source : Error)
  deriving DecidableEq

section amend
/- `serde_json::to_string` of a string. -/
variable (toJson : Text → Text)

def allowRuleLine (tokens : List Text) : Text :=
  "prefix_rule(pattern=[".toList ++ List.intercalate ", ".toList (tokens.map toJson) ++
    "], decision=\"allow\")".toList

def appendLockedLine (contents line : Text) : Text :=
  if line ∈ Text.lines contents then contents
  else
    contents ++ (if contents ≠ [] ∧ contents.getLast? ≠ some '\n' then ['\n'] else []) ++ line ++
      ['\n']

def blockingAppendAllowPrefixRule (file : Option Text) (tokens : List Text) :
    Except ExecPolicyUpdateError Text :=
  if tokens.isEmpty then .error .emptyPrefix
  else .ok (appendLockedLine (file.getD []) (allowRuleLine toJson tokens))

def isPolicyMatch : RuleMatch → Bool
  | .prefixRuleMatch .. => true
  | .heuristicsRuleMatch .. => false

def alreadyAllowed (env : AbsolutePathBuf.ProcessEnv) (policy : Policy) (tokens : List Text) :
    Bool :=
  let matched :=
    policy.matchesForCommandWithOptions env tokens (some fun _ => .forbidden) ⟨true⟩
  strictest matched = Decision.allow &&
    matched.any fun ruleMatch => isPolicyMatch ruleMatch && ruleMatch.decision = .allow

/-- The policy in memory and the rules file afterwards. Failures of reading and writing the file,
after which nothing is updated, are left out. -/
def appendAmendmentAndUpdate (env : AbsolutePathBuf.ProcessEnv) (current : Policy)
    (file : Option Text) (tokens : List Text) : Except ExecPolicyUpdateError (Policy × Text) := do
  let file ← blockingAppendAllowPrefixRule toJson file tokens
  if alreadyAllowed env current tokens then .ok (current, file)
  else
    match current.addPrefixRule tokens .allow with
    | .error e => .error (.addRule e)
    | .ok updated => .ok (updated, file)

end amend

structure AddsAllowRule (first : Text) (rest : List Text) (policy larger : Policy) : Prop where
  rules : larger.rulesByProgram.Perm
    (policy.rulesByProgram ++ [(first, Policy.allowRule first rest)])
  hosts : larger.hostExecutablesByName = policy.hostExecutablesByName

section rule
variable {first : Text} {rest : List Text} {policy larger : Policy}

theorem AddsAllowRule.mergeOverlay (h : AddsAllowRule first rest policy larger) (overlay : Policy) :
    AddsAllowRule first rest (policy.mergeOverlay overlay) (larger.mergeOverlay overlay) := by
  constructor
  · have hswap : ([(first, Policy.allowRule first rest)] ++ overlay.rulesByProgram).Perm
        (overlay.rulesByProgram ++ [(first, Policy.allowRule first rest)]) :=
      perm_append_comm
    simp only [Policy.mergeOverlay]
    refine (h.rules.append_right _).trans ?_
    simpa using hswap.append_left policy.rulesByProgram
  · simp only [Policy.mergeOverlay, h.hosts]

theorem AddsAllowRule.parseFiles
    {evaluate : List (Text × List AbsolutePathBuf) → Text → Option Policy} {files : List Text}
    (h : AddsAllowRule first rest policy larger) {parsed : Policy}
    (hparsed : parseFiles evaluate files policy = some parsed) :
    ∃ parsed', ExecPolicy.parseFiles evaluate files larger = some parsed' ∧
      AddsAllowRule first rest parsed parsed' := by
  induction files generalizing policy larger with
  | nil =>
    obtain rfl := Option.some.inj hparsed
    exact ⟨larger, rfl, h⟩
  | cons contents files ih =>
    rw [ExecPolicy.parseFiles, foldlM_cons] at hparsed ⊢
    rw [h.hosts]
    cases hpart : evaluate policy.hostExecutablesByName contents with
    | none =>
      rw [hpart] at hparsed
      cases hparsed
    | some part =>
      rw [hpart] at hparsed
      exact ih (h.mergeOverlay part) hparsed

theorem getVec_perm (h : AddsAllowRule first rest policy larger) (program : Text) :
    (larger.getVec program).Perm
      (policy.getVec program ++ if first = program then [allowRule first rest] else []) := by
  have hperm := (h.rules.filter fun p => p.1 = program).map Prod.snd
  rw [filter_append, map_append] at hperm
  by_cases hp : first = program <;> simpa [getVec, hp] using hperm

theorem allowRule_matches_of_ne {program : Text} {args : List Text} (h : first ≠ program) :
    (allowRule first rest).matches (program :: args) = none := by
  have hne : program ≠ first := h.symm
  simp [PrefixRule.matches, PrefixPattern.matchesPrefix, allowRule, hne]

theorem filterMap_getVec_perm (h : AddsAllowRule first rest policy larger) (program : Text)
    (args : List Text) :
    ((larger.getVec program).filterMap fun rule => rule.matches (program :: args)).Perm
      (((policy.getVec program).filterMap fun rule => rule.matches (program :: args)) ++
        ((allowRule first rest).matches (program :: args)).toList) := by
  have hperm := (getVec_perm h program).filterMap fun rule => rule.matches (program :: args)
  rw [filterMap_append] at hperm
  by_cases hp : first = program
  · rw [if_pos hp] at hperm
    cases hm : (allowRule first rest).matches (program :: args) <;> simpa [hm] using hperm
  · rw [if_neg hp] at hperm
    rwa [allowRule_matches_of_ne hp]

theorem exactMatches_perm (h : AddsAllowRule first rest policy larger) (cmd : List Text) :
    (larger.exactMatches cmd).Perm
      (policy.exactMatches cmd ++ ((allowRule first rest).matches cmd).toList) := by
  cases cmd with
  | nil => exact List.Perm.refl _
  | cons program args => exact filterMap_getVec_perm h program args

def basenameMatch (env : AbsolutePathBuf.ProcessEnv) (policy : Policy) (rule : PrefixRule)
    (cmd : List Text) : Option RuleMatch :=
  match Policy.lookupProgram env cmd with
  | none => none
  | some (program, basename) =>
    if policy.listsProgram program basename then
      (rule.matches (basename :: cmd.tail)).map (RuleMatch.withResolvedProgram program)
    else none

theorem matchHostExecutableRules_perm (env : AbsolutePathBuf.ProcessEnv)
    (h : AddsAllowRule first rest policy larger) (cmd : List Text) :
    (larger.matchHostExecutableRules env cmd).Perm
      (policy.matchHostExecutableRules env cmd ++
        (basenameMatch env policy (allowRule first rest) cmd).toList) := by
  unfold basenameMatch
  cases hl : lookupProgram env cmd with
  | none =>
    rw [matchHostExecutableRules_none env larger cmd hl,
      matchHostExecutableRules_none env policy cmd hl]
    exact List.Perm.refl _
  | some key =>
    obtain ⟨program, basename⟩ := key
    have hlists : larger.listsProgram program basename = policy.listsProgram program basename := by
      rw [listsProgram, listsProgram, h.hosts]
    rw [matchHostExecutableRules_some env larger cmd program basename hl,
      matchHostExecutableRules_some env policy cmd program basename hl, hlists]
    simp only
    cases policy.listsProgram program basename with
    | false => exact List.Perm.refl _
    | true =>
      have hperm := (filterMap_getVec_perm h basename cmd.tail).map
        (RuleMatch.withResolvedProgram program)
      rw [map_append] at hperm
      cases hm : (allowRule first rest).matches (basename :: cmd.tail) <;>
        simpa [basenameMatches, hm] using hperm

theorem decision_of_allowRule {cmd : List Text} {ruleMatch : RuleMatch}
    (h : (allowRule first rest).matches cmd = some ruleMatch) :
    ruleMatch.decision = .allow := by
  obtain ⟨matched, -, rfl⟩ := map_eq_some_iff.mp h
  rfl

theorem decision_of_basenameMatch {env : AbsolutePathBuf.ProcessEnv} {cmd : List Text}
    {ruleMatch : RuleMatch}
    (h : basenameMatch env policy (allowRule first rest) cmd = some ruleMatch) :
    ruleMatch.decision = .allow := by
  unfold basenameMatch at h
  split at h
  · cases h
  · split at h
    · obtain ⟨matched, hm, rfl⟩ := map_eq_some_iff.mp h
      rw [RuleMatch.decision_withResolvedProgram, decision_of_allowRule hm]
    · cases h

end rule

theorem strictest_perm {l l' : List RuleMatch} (h : l.Perm l') : strictest l = strictest l' :=
  le_antisymm (strictest_mono h.subset) (strictest_mono h.symm.subset)

theorem allow_le (decision : Decision) : Decision.allow ≤ decision := by
  cases decision <;> decide

theorem strictest_append_allow {l : List RuleMatch} (hne : l ≠ []) {extra : Option RuleMatch}
    (h : ∀ m, extra = some m → m.decision = .allow) :
    strictest (l ++ extra.toList) = strictest l := by
  refine le_antisymm ?_ (strictest_mono (subset_append_left _ _))
  obtain ⟨m, ms, rfl⟩ := exists_cons_of_ne_nil hne
  refine maximum_le_of_forall_le fun d hd => ?_
  obtain ⟨m', hm', rfl⟩ := List.mem_map.mp hd
  rcases mem_append.mp hm' with hmem | hmem
  · exact le_maximum_of_mem' (mem_map_of_mem hmem)
  · rw [h m' (mem_toList.mp hmem)]
    refine le_trans (WithBot.coe_le_coe.mpr (allow_le m.decision)) ?_
    exact le_maximum_of_mem' (mem_map_of_mem mem_cons_self)

theorem strictest_singleton (m : RuleMatch) : strictest [m] = m.decision := rfl

section decisions
variable {first : Text} {rest : List Text} {policy larger : Policy}
  {env : AbsolutePathBuf.ProcessEnv} {cmd : List Text}
  {fallback : Option (List Text → Decision)} {options : MatchOptions}

def Policy.check (env : AbsolutePathBuf.ProcessEnv) (policy : Policy) (cmd : List Text)
    (fallback : Option (List Text → Decision)) (options : MatchOptions) : WithBot Decision :=
  strictest (policy.matchesForCommandWithOptions env cmd fallback options)

theorem matchesForCommand_eq : policy.matchesForCommandWithOptions env cmd fallback options =
    if policy.exactMatches cmd ≠ [] then policy.exactMatches cmd
    else if options.resolveHostExecutables ∧
        policy.matchHostExecutableRules env cmd ≠ [] then
      policy.matchHostExecutableRules env cmd
    else (fallback.map fun f => RuleMatch.heuristicsRuleMatch cmd (f cmd)).toList := by
  unfold matchesForCommandWithOptions exactMatches
  generalize policy.matchHostExecutableRules env cmd = host
  cases hexact : policy.matchExactRules cmd with
  | none =>
    cases options.resolveHostExecutables <;> cases host <;> cases fallback <;> simp [Option.filter]
  | some matched =>
    cases matched with
    | nil =>
      cases options.resolveHostExecutables <;> cases host <;> cases fallback <;>
        simp [Option.filter]
    | cons m ms => simp [Option.filter]

theorem check_of_exact (h : policy.exactMatches cmd ≠ []) :
    policy.check env cmd fallback options = strictest (policy.exactMatches cmd) := by
  rw [check, matchesForCommand_eq, if_pos h]

theorem check_of_host (hexact : policy.exactMatches cmd = [])
    (hresolve : options.resolveHostExecutables)
    (h : policy.matchHostExecutableRules env cmd ≠ []) :
    policy.check env cmd fallback options =
      strictest (policy.matchHostExecutableRules env cmd) := by
  rw [check, matchesForCommand_eq, if_neg (not_not.mpr hexact), if_pos ⟨hresolve, h⟩]

theorem check_of_unmatched (hexact : policy.exactMatches cmd = [])
    (h : options.resolveHostExecutables → policy.matchHostExecutableRules env cmd = []) :
    policy.check env cmd fallback options =
      strictest (fallback.map fun f => RuleMatch.heuristicsRuleMatch cmd (f cmd)).toList := by
  rw [check, matchesForCommand_eq, if_neg (not_not.mpr hexact), if_neg]
  exact fun hconsult => hconsult.2 (h hconsult.1)

def TakesEffect (env : AbsolutePathBuf.ProcessEnv) (policy : Policy) (rule : PrefixRule)
    (cmd : List Text) (options : MatchOptions) : Prop :=
  policy.exactMatches cmd = [] ∧
    ((rule.matches cmd).isSome ∨
      options.resolveHostExecutables = true ∧ policy.matchHostExecutableRules env cmd = [] ∧
        (basenameMatch env policy rule cmd).isSome)

theorem check_of_takesEffect (h : AddsAllowRule first rest policy larger)
    (heffect : TakesEffect env policy (allowRule first rest) cmd options) :
    larger.check env cmd fallback options = Decision.allow := by
  obtain ⟨hexact, hmatch⟩ := heffect
  have hexact' := exactMatches_perm h cmd
  rw [hexact, nil_append] at hexact'
  cases hm : (allowRule first rest).matches cmd with
  | some m =>
    rw [hm, toList_some, perm_singleton] at hexact'
    rw [check_of_exact (by simp [hexact']), hexact', strictest_singleton, decision_of_allowRule hm]
  | none =>
    rw [hm, toList_none, perm_nil] at hexact'
    obtain hsome | ⟨hresolve, hhost, hsome⟩ := hmatch
    · simp [hm] at hsome
    · obtain ⟨m, hbase⟩ := isSome_iff_exists.mp hsome
      have hhost' := matchHostExecutableRules_perm env h cmd
      rw [hhost, hbase, nil_append, toList_some, perm_singleton] at hhost'
      rw [check_of_host hexact' hresolve (by simp [hhost']), hhost', strictest_singleton,
        decision_of_basenameMatch hbase]

theorem check_of_not_takesEffect (h : AddsAllowRule first rest policy larger)
    (heffect : ¬TakesEffect env policy (allowRule first rest) cmd options) :
    larger.check env cmd fallback options = policy.check env cmd fallback options := by
  have hexact' := exactMatches_perm h cmd
  by_cases hexact : policy.exactMatches cmd = []
  · -- the rule does not match the command itself, or else it would decide
    have hm : (allowRule first rest).matches cmd = none := by
      rw [← not_isSome_iff_eq_none]
      exact fun hsome => heffect ⟨hexact, .inl hsome⟩
    rw [hexact, hm, toList_none, append_nil, perm_nil] at hexact'
    have hhost' := matchHostExecutableRules_perm env h cmd
    by_cases hconsult : options.resolveHostExecutables ∧
        policy.matchHostExecutableRules env cmd ≠ []
    · obtain ⟨hresolve, hhost⟩ := hconsult
      have hne : larger.matchHostExecutableRules env cmd ≠ [] := by
        intro hnil
        rw [hnil, nil_perm, append_eq_nil_iff] at hhost'
        exact hhost hhost'.1
      rw [check_of_host hexact' hresolve hne, check_of_host hexact hresolve hhost,
        strictest_perm hhost', strictest_append_allow hhost fun m => decision_of_basenameMatch]
    · have hnone : options.resolveHostExecutables →
          policy.matchHostExecutableRules env cmd = [] := by
        intro hresolve
        by_contra hne
        exact hconsult ⟨hresolve, hne⟩
      have hnone' : options.resolveHostExecutables →
          larger.matchHostExecutableRules env cmd = [] := by
        intro hresolve
        have hbase : basenameMatch env policy (allowRule first rest) cmd = none := by
          rw [← not_isSome_iff_eq_none]
          exact fun hsome => heffect ⟨hexact, .inr ⟨hresolve, hnone hresolve, hsome⟩⟩
        rwa [hnone hresolve, hbase, toList_none, append_nil, perm_nil] at hhost'
      rw [check_of_unmatched hexact' hnone', check_of_unmatched hexact hnone]
  · have hne : larger.exactMatches cmd ≠ [] := by
      intro hnil
      rw [hnil, nil_perm, append_eq_nil_iff] at hexact'
      exact hexact hexact'.1
    rw [check_of_exact hne, check_of_exact hexact, strictest_perm hexact',
      strictest_append_allow hexact fun m => decision_of_allowRule]

end decisions

def rulesFilePart (evaluate : List (Text × List AbsolutePathBuf) → Text → Option Policy)
    (hosts : List (Text × List AbsolutePathBuf)) : Option Text → Option Policy
  | none => some .empty
  | some contents => evaluate hosts contents

/-- Starlark runs the statements of a module in order: with one more line at the end the module
adds the rule of that line. -/
def RunsAppendedLine (evaluate : List (Text × List AbsolutePathBuf) → Text → Option Policy)
    (toJson : Text → Text) (file : Option Text) (first : Text) (rest : List Text) : Prop :=
  let line := allowRuleLine toJson (first :: rest)
  ∀ hosts part, rulesFilePart evaluate hosts file = some part → line ∉ Text.lines (file.getD []) →
    evaluate hosts (appendLockedLine (file.getD []) line) =
      some { part with
        rulesByProgram := part.rulesByProgram ++ [(first, Policy.allowRule first rest)] }

section reload
variable {evaluate : List (Text × List AbsolutePathBuf) → Text → Option Policy}
  {toJson : Text → Text} {sources : RuleSources} {first : Text} {rest : List Text}
  {current : Policy}

theorem parseFiles_append (files files' : List Text) (builder : Policy) :
    parseFiles evaluate (files ++ files') builder =
      (parseFiles evaluate files builder).bind (parseFiles evaluate files') := by
  simp only [parseFiles, foldlM_append]
  rfl

theorem parseFiles_rulesFile (file : Option Text) (builder : Policy) :
    parseFiles evaluate file.toList builder =
      (rulesFilePart evaluate builder.hostExecutablesByName file).map builder.mergeOverlay := by
  cases file with
  | none => simp [parseFiles, rulesFilePart, mergeOverlay, empty]
  | some contents => simp [parseFiles, rulesFilePart]

theorem AddsAllowRule.overlay {policy larger : Policy} (h : AddsAllowRule first rest policy larger)
    (requirements : Option Policy) :
    AddsAllowRule first rest
      (match requirements with | none => policy | some r => policy.mergeOverlay r)
      (match requirements with | none => larger | some r => larger.mergeOverlay r) := by
  cases requirements with
  | none => exact h
  | some r => exact h.mergeOverlay r

theorem reload_of_notMem (hload : loadExecPolicy evaluate sources = some current)
    (hruns : RunsAppendedLine evaluate toJson sources.rulesFile first rest)
    (hline : allowRuleLine toJson (first :: rest) ∉ Text.lines (sources.rulesFile.getD [])) :
    ∃ reloaded, loadExecPolicy evaluate { sources with rulesFile := some (appendLockedLine
        (sources.rulesFile.getD []) (allowRuleLine toJson (first :: rest))) } = some reloaded ∧
      AddsAllowRule first rest current reloaded := by
  obtain ⟨policy, hpolicy, rfl⟩ := map_eq_some_iff.mp hload
  rw [parseFiles_append] at hpolicy
  obtain ⟨builder, hbefore, hpolicy⟩ := bind_eq_some_iff.mp hpolicy
  rw [parseFiles_append] at hpolicy
  obtain ⟨builder', hfile, hafter⟩ := bind_eq_some_iff.mp hpolicy
  rw [parseFiles_rulesFile] at hfile
  obtain ⟨part, hpart, rfl⟩ := map_eq_some_iff.mp hfile
  -- the rules file adds the rule, and the files behind it are read as before
  have hadds : AddsAllowRule first rest (builder.mergeOverlay part) (builder.mergeOverlay
      { part with
        rulesByProgram := part.rulesByProgram ++ [(first, allowRule first rest)] }) := by
    constructor
    · simp [mergeOverlay]
    · rfl
  obtain ⟨policy', hafter', hadds'⟩ := hadds.parseFiles hafter
  refine ⟨_, ?_, hadds'.overlay sources.requirements⟩
  rw [loadExecPolicy, parseFiles_append, hbefore, bind_some, parseFiles_append,
    parseFiles_rulesFile, rulesFilePart, hruns _ part hpart hline, map_some,
    bind_some, hafter']
  rfl

theorem reload_of_mem (hload : loadExecPolicy evaluate sources = some current)
    (hline : allowRuleLine toJson (first :: rest) ∈ Text.lines (sources.rulesFile.getD [])) :
    loadExecPolicy evaluate { sources with rulesFile := some (appendLockedLine
        (sources.rulesFile.getD []) (allowRuleLine toJson (first :: rest))) } = some current := by
  cases hfile : sources.rulesFile with
  | none =>
    rw [hfile] at hline
    exact absurd hline not_mem_nil
  | some contents =>
    rw [hfile, getD_some] at hline
    rw [getD_some, appendLockedLine, if_pos hline, ← hload, ← hfile]

theorem updated_of_ok {env : AbsolutePathBuf.ProcessEnv} {file : Option Text} {updated : Policy}
    {file' : Text}
    (h : appendAmendmentAndUpdate toJson env current file (first :: rest) = .ok (updated, file')) :
    file' = appendLockedLine (file.getD []) (allowRuleLine toJson (first :: rest)) ∧
      (alreadyAllowed env current (first :: rest) → updated = current) ∧
      (alreadyAllowed env current (first :: rest) = false →
        AddsAllowRule first rest current updated) := by
  have hok : (if alreadyAllowed env current (first :: rest) then Except.ok (current,
      appendLockedLine (file.getD []) (allowRuleLine toJson (first :: rest))) else _) =
      Except.ok (updated, file') := h
  cases hallowed : alreadyAllowed env current (first :: rest) with
  | true =>
    rw [hallowed, if_pos rfl] at hok
    cases hok
    exact ⟨rfl, fun _ => rfl, fun hfalse => absurd hfalse (by decide)⟩
  | false =>
    rw [hallowed, if_neg (by decide)] at hok
    cases hok
    exact ⟨rfl, fun htrue => absurd htrue (by decide), fun _ => ⟨List.Perm.refl _, rfl⟩⟩

end reload

theorem check_eq_iff {first : Text} {rest : List Text} {policy larger : Policy}
    {env : AbsolutePathBuf.ProcessEnv} {cmd : List Text}
    {fallback : Option (List Text → Decision)} {options : MatchOptions}
    (h : AddsAllowRule first rest policy larger) :
    larger.check env cmd fallback options = policy.check env cmd fallback options ↔
      (TakesEffect env policy (allowRule first rest) cmd options →
        policy.check env cmd fallback options = Decision.allow) := by
  by_cases heffect : TakesEffect env policy (allowRule first rest) cmd options
  · rw [check_of_takesEffect h heffect]
    exact ⟨fun heq _ => heq.symm, fun himp => (himp heffect).symm⟩
  · rw [check_of_not_takesEffect h heffect]
    exact ⟨fun _ hpos => absurd hpos heffect, fun _ => rfl⟩

theorem check_unique {first : Text} {rest : List Text} {policy larger larger' : Policy}
    {env : AbsolutePathBuf.ProcessEnv} {cmd : List Text}
    {fallback : Option (List Text → Decision)} {options : MatchOptions}
    (h : AddsAllowRule first rest policy larger) (h' : AddsAllowRule first rest policy larger') :
    larger.check env cmd fallback options = larger'.check env cmd fallback options := by
  by_cases heffect : TakesEffect env policy (allowRule first rest) cmd options
  · rw [check_of_takesEffect h heffect, check_of_takesEffect h' heffect]
  · rw [check_of_not_takesEffect h heffect, check_of_not_takesEffect h' heffect]

/-- After an amendment the policy in memory and the one that is loaded anew decide alike on a
command exactly if the words were allowed before just when the file had the line before, or the
rule takes no effect on the command, or the command was allowed before. -/
theorem amendment_reloads_iff (env : AbsolutePathBuf.ProcessEnv)
    (evaluate : List (Text × List AbsolutePathBuf) → Text → Option Policy) (toJson : Text → Text)
    (sources : RuleSources) (current updated : Policy) (tokens : List Text) (file : Text)
    (hload : loadExecPolicy evaluate sources = some current)
    (hruns : ∀ first rest, tokens = first :: rest →
      RunsAppendedLine evaluate toJson sources.rulesFile first rest)
    (hupdate : appendAmendmentAndUpdate toJson env current sources.rulesFile tokens =
      .ok (updated, file)) :
    ∃ first rest reloaded, tokens = first :: rest ∧
      loadExecPolicy evaluate { sources with rulesFile := some file } = some reloaded ∧
      ∀ cmd fallback options,
        updated.check env cmd fallback options = reloaded.check env cmd fallback options ↔
          (alreadyAllowed env current tokens = true ↔
            allowRuleLine toJson tokens ∈ Text.lines (sources.rulesFile.getD [])) ∨
          (TakesEffect env current (Policy.allowRule first rest) cmd options →
            current.check env cmd fallback options = Decision.allow) := by
  cases tokens with
  | nil => cases hupdate
  | cons first rest =>
    obtain ⟨rfl, hsame, hadds⟩ := updated_of_ok hupdate
    by_cases hline : allowRuleLine toJson (first :: rest) ∈ Text.lines (sources.rulesFile.getD [])
    · refine ⟨first, rest, current, rfl, reload_of_mem hload hline, fun cmd fallback options => ?_⟩
      cases hallowed : alreadyAllowed env current (first :: rest) with
      | true => simp [hsame hallowed, hline]
      | false => simp [check_eq_iff (hadds hallowed), hline]
    · obtain ⟨reloaded, hreload, hadds'⟩ := reload_of_notMem hload (hruns first rest rfl) hline
      refine ⟨first, rest, reloaded, rfl, hreload, fun cmd fallback options => ?_⟩
      cases hallowed : alreadyAllowed env current (first :: rest) with
      | true =>
        rw [hsame hallowed, eq_comm, check_eq_iff hadds']
        simp [hline]
      | false => simp [check_unique (hadds hallowed) hadds', hline]

theorem amendment_reloads_echo :
    let env : AbsolutePathBuf.ProcessEnv := ⟨none, none⟩
    let echo := "echo".toList
    let toJson : Text → Text := fun text => '"' :: text ++ ['"']
    let contents := "prefix_rule(pattern=[\"git\"], decision=\"forbidden\")\n".toList
    let file := contents ++ "prefix_rule(pattern=[\"echo\"], decision=\"allow\")\n".toList
    let git := ("git".toList, (⟨⟨"git".toList, []⟩, .forbidden, none⟩ : PrefixRule))
    let updated : Policy := ⟨[git, (echo, Policy.allowRule echo [])], []⟩
    let evaluate : List (Text × List AbsolutePathBuf) → Text → Option Policy := fun _ text =>
      if text = contents then some ⟨[git], []⟩ else if text = file then some updated else none
    let sources : RuleSources := ⟨[], some contents, [], none⟩
    loadExecPolicy evaluate sources = some ⟨[git], []⟩ ∧
      appendAmendmentAndUpdate toJson env ⟨[git], []⟩ (some contents) [echo] =
        .ok (updated, file) ∧
      ∃ reloaded, loadExecPolicy evaluate { sources with rulesFile := some file } = some reloaded ∧
        updated.check env [echo] none ⟨true⟩ = reloaded.check env [echo] none ⟨true⟩ := by
  intro env echo toJson contents file git updated evaluate sources
  have hload : loadExecPolicy evaluate sources = some ⟨[git], []⟩ := by decide +kernel
  have hruns : ∀ first rest, [echo] = first :: rest →
      RunsAppendedLine evaluate toJson sources.rulesFile first rest := by
    rintro first rest ⟨⟩ hosts part hpart -
    have hold : evaluate hosts contents = some ⟨[git], []⟩ := if_pos rfl
    obtain rfl := Option.some.inj (hold.symm.trans hpart)
    have hnew : file ≠ contents := by decide +kernel
    exact (if_neg hnew).trans (if_pos (by decide +kernel))
  have hupdate : appendAmendmentAndUpdate toJson env ⟨[git], []⟩ (some contents) [echo] =
      .ok (updated, file) := by decide +kernel
  refine ⟨hload, hupdate, ?_⟩
  obtain ⟨first, rest, reloaded, -, hreload, hiff⟩ :=
    amendment_reloads_iff env evaluate toJson sources ⟨[git], []⟩ updated [echo] file hload hruns
      hupdate
  exact ⟨reloaded, hreload, (hiff [echo] none ⟨true⟩).mpr (.inl (by decide +kernel))⟩

/-- The rule for a path that the basename already allows is written to the file only, where it
hides the stricter rule for the basename. -/
theorem amendment_is_missing_in_memory :
    let env : AbsolutePathBuf.ProcessEnv := ⟨none, none⟩
    let git := "/usr/bin/git".toList
    let toJson : Text → Text := fun text => '"' :: text ++ ['"']
    let contents := ("prefix_rule(pattern=[\"git\"], decision=\"allow\")\n" ++
      "prefix_rule(pattern=[\"git\", \"status\", \"-x\"], decision=\"forbidden\")\n").toList
    let line := "prefix_rule(pattern=[\"/usr/bin/git\", \"status\"], decision=\"allow\")\n".toList
    let rules : List (Text × PrefixRule) :=
      [("git".toList, ⟨⟨"git".toList, []⟩, .allow, none⟩),
        ("git".toList, ⟨⟨"git".toList, [.single "status".toList, .single "-x".toList]⟩, .forbidden,
          none⟩)]
    let added := (git, Policy.allowRule git ["status".toList])
    let evaluate : List (Text × List AbsolutePathBuf) → Text → Option Policy := fun _ text =>
      if text = contents then some ⟨rules, []⟩
      else if text = contents ++ line then some ⟨rules ++ [added], []⟩ else none
    let sources : RuleSources := ⟨[], some contents, [], none⟩
    let cmd := [git, "status".toList, "-x".toList]
    loadExecPolicy evaluate sources = some ⟨rules, []⟩ ∧
      appendAmendmentAndUpdate toJson env ⟨rules, []⟩ (some contents) [git, "status".toList] =
        .ok (⟨rules, []⟩, contents ++ line) ∧
      loadExecPolicy evaluate { sources with rulesFile := some (contents ++ line) } =
        some ⟨rules ++ [added], []⟩ ∧
      (⟨rules, []⟩ : Policy).check env cmd none ⟨true⟩ = Decision.forbidden ∧
      (⟨rules ++ [added], []⟩ : Policy).check env cmd none ⟨true⟩ = Decision.allow := by
  decide +kernel

end Codex.ExecPolicy

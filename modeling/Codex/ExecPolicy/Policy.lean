import Codex.AbsolutePath
import Mathlib.Data.List.MinMax

/-! `execpolicy/src/{decision,rule,policy,executable_name}.rs`, as built outside Windows. -/

namespace Codex.ExecPolicy
open Codex.Lib

inductive Decision where
  | allow
  | prompt
  | forbidden
  deriving DecidableEq, Repr

namespace Decision

def severity : Decision → Nat
  | allow => 0
  | prompt => 1
  | forbidden => 2

theorem severity_injective : Function.Injective severity := by
  intro a b h
  cases a <;> cases b <;> first | rfl | exact absurd h (by decide)

instance : LinearOrder Decision := LinearOrder.lift' severity severity_injective

end Decision

inductive PatternToken where
  | single (expected : Text)
  | alts (alternatives : List Text)
  deriving DecidableEq, Repr

def PatternToken.matches (self : PatternToken) (token : Text) : Bool :=
  match self with
  | single expected => expected = token
  | alts alternatives => alternatives.any (· = token)

structure PrefixPattern where
  first : Text
  rest : List PatternToken
  deriving DecidableEq, Repr

def PrefixPattern.matchesPrefix (self : PrefixPattern) (cmd : List Text) : Option (List Text) :=
  let patternLength := self.rest.length + 1
  match cmd with
  | [] => none
  | program :: args =>
    if cmd.length < patternLength ∨ program ≠ self.first then none
    else if (self.rest.zip args).all fun p => p.1.matches p.2 then some (cmd.take patternLength)
    else none

inductive RuleMatch where
  | prefixRuleMatch (matchedPrefix : List Text) (decision : Decision)
      (resolvedProgram : Option AbsolutePathBuf) (justification : Option Text)
  | heuristicsRuleMatch (command : List Text) (decision : Decision)
  deriving DecidableEq

namespace RuleMatch

def decision : RuleMatch → Decision
  | prefixRuleMatch _ decision _ _ => decision
  | heuristicsRuleMatch _ decision => decision

def withResolvedProgram (program : AbsolutePathBuf) : RuleMatch → RuleMatch
  | prefixRuleMatch matchedPrefix decision _ justification =>
    prefixRuleMatch matchedPrefix decision (some program) justification
  | other => other

@[simp] theorem decision_withResolvedProgram (program : AbsolutePathBuf) (m : RuleMatch) :
    (m.withResolvedProgram program).decision = m.decision := by
  cases m <;> rfl

end RuleMatch

structure PrefixRule where
  pattern : PrefixPattern
  decision : Decision
  justification : Option Text
  deriving DecidableEq, Repr

def PrefixRule.matches (self : PrefixRule) (cmd : List Text) : Option RuleMatch :=
  (self.pattern.matchesPrefix cmd).map fun matchedPrefix =>
    .prefixRuleMatch matchedPrefix self.decision none self.justification

/-- The multimap of rules is a list of keyed rules, in the order of insertion. The network rules
take no part in command matching. -/
structure Policy where
  rulesByProgram : List (Text × PrefixRule)
  hostExecutablesByName : List (Text × List AbsolutePathBuf)

structure MatchOptions where
  resolveHostExecutables : Bool

def executablePathLookupKey (path : AbsolutePathBuf) : Option Text :=
  path.fileName.bind Text.ofBytes?

namespace Policy

def getVec (self : Policy) (program : Text) : List PrefixRule :=
  (self.rulesByProgram.filter fun p => p.1 = program).map Prod.snd

/-- The map of host executables is extended, so an entry of the overlay hides that of `self`. -/
def mergeOverlay (self overlay : Policy) : Policy where
  rulesByProgram := self.rulesByProgram ++ overlay.rulesByProgram
  hostExecutablesByName := overlay.hostExecutablesByName ++ self.hostExecutablesByName

def matchExactRules (self : Policy) (cmd : List Text) : Option (List RuleMatch) :=
  cmd.head?.map fun first => (self.getVec first).filterMap fun rule => rule.matches cmd

def matchHostExecutableRules (env : AbsolutePathBuf.ProcessEnv) (self : Policy)
    (cmd : List Text) : List RuleMatch :=
  match cmd with
  | [] => []
  | first :: args =>
    match AbsolutePathBuf.fromAbsolutePath env first.bytes with
    | none => []
    | some program =>
      match executablePathLookupKey program with
      | none => []
      | some basename =>
        if (self.hostExecutablesByName.lookup basename).any fun paths => program ∉ paths then []
        else
          ((self.getVec basename).filterMap fun rule => rule.matches (basename :: args)).map
            (RuleMatch.withResolvedProgram program)

def matchesForCommandWithOptions (env : AbsolutePathBuf.ProcessEnv) (self : Policy)
    (cmd : List Text) (heuristicsFallback : Option (List Text → Decision))
    (options : MatchOptions) : List RuleMatch :=
  let nonempty : List RuleMatch → Bool := fun matched => !matched.isEmpty
  let matchedRules :=
    (((self.matchExactRules cmd).filter nonempty).orElse fun _ =>
      (if options.resolveHostExecutables then some (self.matchHostExecutableRules env cmd)
        else none).filter nonempty).getD []
  match matchedRules, heuristicsFallback with
  | [], some fallback => [.heuristicsRuleMatch cmd (fallback cmd)]
  | matched, _ => matched

end Policy

/-- The decision of `Evaluation::from_matches` (policy.rs:413): the strictest matched one, and
`⊥` when nothing matched. -/
def strictest (matched : List RuleMatch) : WithBot Decision :=
  (matched.map RuleMatch.decision).maximum

end Codex.ExecPolicy

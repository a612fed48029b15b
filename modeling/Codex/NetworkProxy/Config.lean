import Codex.NetworkProxy.DomainPattern
import Mathlib.Order.Lattice

/-! The domain lists of `network-proxy/src/config.rs`, the managed constraints and the compilation
of `state.rs`, and `update_domain_list` of `runtime.rs`: one round of its loop, on the state that
the reload has left and that no one else writes. -/

namespace Codex.NetworkProxy
open Codex.Lib

/-- The order of the variants is their precedence among entries for one pattern. -/
inductive NetworkDomainPermission where
  | none
  | allow
  | deny
  deriving DecidableEq, Repr

namespace NetworkDomainPermission

def precedence : NetworkDomainPermission → Nat
  | none => 0
  | allow => 1
  | deny => 2

theorem precedence_inj : Function.Injective precedence := by
  intro a b h
  cases a <;> cases b <;> first | rfl | exact absurd h (by decide)

instance : LinearOrder NetworkDomainPermission := LinearOrder.lift' precedence precedence_inj

end NetworkDomainPermission

structure DomainEntry where
  pattern : Text
  permission : NetworkDomainPermission
  deriving DecidableEq, Repr

inductive NetworkMode where
  | limited
  | full
  deriving DecidableEq, Repr

def NetworkMode.rank : NetworkMode → Nat
  | limited => 0
  | full => 1

def NetworkMode.debug : NetworkMode → Text
  | limited => "Limited".toList
  | full => "Full".toList

/-- The fields that the functions below read. `unixSockets` has the allowed paths marked. -/
structure NetworkProxyConfig (Hook : Type) where
  enabled : Bool
  mode : NetworkMode
  allowUpstreamProxy : Bool
  dangerouslyAllowNonLoopbackProxy : Bool
  dangerouslyAllowAllUnixSockets : Option Bool
  domains : Option (List DomainEntry)
  unixSockets : Option (List (Text × Bool))
  allowLocalBinding : Option Bool
  mitm : Bool
  mitmCa : Option (Text × Text)
  credentialBroker : Bool
  mitmHooks : List Hook

structure NetworkProxyConstraints where
  enabled : Option Bool
  mode : Option NetworkMode
  allowUpstreamProxy : Option Bool
  dangerouslyAllowNonLoopbackProxy : Option Bool
  dangerouslyAllowAllUnixSockets : Option Bool
  allowedDomains : Option (List Text)
  allowlistExpansionEnabled : Option Bool
  deniedDomains : Option (List Text)
  denylistExpansionEnabled : Option Bool
  allowUnixSockets : Option (List Text)
  allowLocalBinding : Option Bool

namespace NetworkProxyConfig

def default (Hook : Type) : NetworkProxyConfig Hook where
  enabled := false
  mode := .full
  allowUpstreamProxy := true
  dangerouslyAllowNonLoopbackProxy := false
  dangerouslyAllowAllUnixSockets := none
  domains := none
  unixSockets := none
  allowLocalBinding := none
  mitm := false
  mitmCa := none
  credentialBroker := false
  mitmHooks := []

end NetworkProxyConfig

def NetworkProxyConstraints.default : NetworkProxyConstraints where
  enabled := none
  mode := none
  allowUpstreamProxy := none
  dangerouslyAllowNonLoopbackProxy := none
  dangerouslyAllowAllUnixSockets := none
  allowedDomains := none
  allowlistExpansionEnabled := none
  deniedDomains := none
  denylistExpansionEnabled := none
  allowUnixSockets := none
  allowLocalBinding := none

/-- One round of `effective_entries`: the strongest permission for each pattern, in the order of
the first entries. -/
def noteEntry (effective : List DomainEntry) (entry : DomainEntry) : List DomainEntry :=
  if entry.pattern ∈ effective.map DomainEntry.pattern then
    effective.map fun known =>
      if known.pattern = entry.pattern then
        { known with permission := max known.permission entry.permission }
      else known
  else effective ++ [entry]

def effectiveEntries (entries : List DomainEntry) : List DomainEntry := entries.foldl noteEntry []

def entriesWith (permission : NetworkDomainPermission) (entries : List DomainEntry) : List Text :=
  ((effectiveEntries entries).filter (·.permission = permission)).map DomainEntry.pattern

namespace NetworkProxyConfig

variable {Hook : Type}

def domainEntries (self : NetworkProxyConfig Hook) (permission : NetworkDomainPermission) :
    Option (List Text) :=
  (self.domains.map (entriesWith permission)).filter (· ≠ [])

def allowedDomains (self : NetworkProxyConfig Hook) : Option (List Text) :=
  self.domainEntries .allow

def deniedDomains (self : NetworkProxyConfig Hook) : Option (List Text) :=
  self.domainEntries .deny

def allowUnixSocketPaths (self : NetworkProxyConfig Hook) : List Text :=
  ((self.unixSockets.getD []).filter Prod.snd).map Prod.fst

def nonEmptyDomains (entries : List DomainEntry) : Option (List DomainEntry) :=
  if entries = [] then none else some entries

def setAllowedDomains (self : NetworkProxyConfig Hook) (patterns : List Text) :
    NetworkProxyConfig Hook :=
  let kept := (self.domains.getD []).filter (·.permission ≠ .allow)
  let pushNew := fun (entries : List DomainEntry) (pattern : Text) =>
    if (⟨pattern, .allow⟩ : DomainEntry) ∈ entries then entries else entries ++ [⟨pattern, .allow⟩]
  { self with domains := nonEmptyDomains (patterns.foldl pushNew kept) }

def upsertDomainPermission (self : NetworkProxyConfig Hook) (host : Text)
    (permission : NetworkDomainPermission) (normalize : Text → Text) : NetworkProxyConfig Hook :=
  let kept := (self.domains.getD []).filter fun entry =>
    normalize entry.pattern ≠ normalize host
  { self with domains := nonEmptyDomains (kept ++ [⟨host, permission⟩]) }

end NetworkProxyConfig

/-- A value in an error message; a list is shown in its `Debug` form. -/
inductive Shown where
  | text (text : Text)
  | list (texts : List Text)
  deriving DecidableEq, Repr

structure ConstraintError where
  fieldName : Text
  candidate : Shown
  allowed : Shown
  deriving DecidableEq, Repr

/-- The parts of the proxy that only decide whether a configuration is accepted: the checks of
hooks, the certificate authority of `MitmState::new`, and absolute socket paths of the executor's
system. A text is the message of a failure. -/
structure Peripherals (Hook : Type) where
  validateHooks : List Hook → Option Text
  compileHooks : List Hook → Option Text
  mitmState : Bool → Option (Text × Text) → Option Text
  socketPathIsAbsolute : Text → Bool

def Peripherals.accepting : Peripherals Empty where
  validateHooks _ := none
  compileHooks _ := none
  mitmState _ _ := none
  socketPathIsAbsolute path := path.head? = some '/'

def ensure {ε : Type} (condition : Bool) (error : ε) : Except ε Unit :=
  if condition then .ok () else .error error

def lowercaseAll (texts : List Text) : List Text := texts.map toAsciiLowercase

def missingFrom (required present : List Text) : List Text :=
  required.filter (· ∉ present)

def sameSet (left right : List Text) : Bool :=
  missingFrom left right = [] && missingFrom right left = []

def managedFalse : Shown := .text "false (disabled by managed config)".toList

def ensureFlag (fieldName : String) (candidate permitted : Bool) : Except ConstraintError Unit :=
  ensure (!candidate || permitted) ⟨fieldName.toList, .text "true".toList, managedFalse⟩

def validateNonGlobalWildcardDomainPatterns (fieldName : String) (patterns : List Text) :
    Except ConstraintError Unit :=
  match patterns.find? isGlobalWildcardDomainPattern with
  | some pattern => .error ⟨fieldName.toList, .text (Text.trim pattern),
      .text "exact hosts or scoped wildcards like *.example.com or **.example.com".toList⟩
  | none => .ok ()

section Validate

variable {Hook : Type} (crates : HostCrates) (peripherals : Peripherals Hook)

def validateMitmHookConfig (config : NetworkProxyConfig Hook) : Option Text :=
  if config.mitmHooks.isEmpty then none
  else if !config.mitm then some "network.mitm_hooks requires network.mitm = true".toList
  else peripherals.validateHooks config.mitmHooks

def entriesNotAllowed (managed configured : List Text) : List Text :=
  let patterns := managed.map (DomainPattern.parseForConstraints crates)
  configured.filter fun entry =>
    !patterns.any fun pattern => pattern.allows (DomainPattern.parseForConstraints crates entry)

def validateAllowedDomains (managed configured denied : List Text) (expansion : Option Bool) :
    Except ConstraintError Unit := do
  validateNonGlobalWildcardDomainPatterns "network.allowed_domains" managed
  let required := lowercaseAll managed
  let candidate := lowercaseAll configured
  let overrides := lowercaseAll denied
  match expansion with
  | some true =>
    let missing := missingFrom (missingFrom required candidate) overrides
    ensure (missing = []) ⟨"network.allowed_domains".toList,
      .text "missing managed allowed_domains entries".toList, .list missing⟩
  | some false =>
    ensure (sameSet candidate (missingFrom required overrides))
      ⟨"network.allowed_domains".toList, .list configured,
        .text "must match managed allowed_domains".toList⟩
  | none =>
    let invalid := entriesNotAllowed crates managed configured
    ensure (invalid = []) ⟨"network.allowed_domains".toList, .list invalid,
      .text "subset of managed allowed_domains".toList⟩

def validateDeniedDomains (managed configured : List Text) (expansion : Option Bool) :
    Except ConstraintError Unit := do
  validateNonGlobalWildcardDomainPatterns "network.denied_domains" managed
  let required := lowercaseAll managed
  let candidate := lowercaseAll configured
  match expansion with
  | some false =>
    ensure (sameSet candidate required) ⟨"network.denied_domains".toList, .list configured,
      .text "must match managed denied_domains".toList⟩
  | _ =>
    let missing := missingFrom required candidate
    ensure (missing = []) ⟨"network.denied_domains".toList,
      .text "missing managed denied_domains entries".toList, .list missing⟩

def validateUnixSockets (managed configured : List Text) : Except ConstraintError Unit :=
  let invalid := configured.filter fun entry => toAsciiLowercase entry ∉ lowercaseAll managed
  ensure (invalid = []) ⟨"network.allow_unix_sockets".toList, .list invalid,
    .text "subset of managed allow_unix_sockets".toList⟩

def validateMode (candidate maxMode : NetworkMode) : Except ConstraintError Unit :=
  ensure (candidate.rank ≤ maxMode.rank) ⟨"network.mode".toList, .text candidate.debug,
    .text (maxMode.debug ++ " or more restrictive".toList)⟩

/-- The checks of everything but the allowed domains that come before them. -/
def validateSettings (config : NetworkProxyConfig Hook) (constraints : NetworkProxyConstraints) :
    Except ConstraintError Unit := do
  match validateMitmHookConfig peripherals config with
  | some message => .error ⟨"network.mitm_hooks".toList, .text message,
      .text "valid MITM hook configuration".toList⟩
  | none => .ok ()
  validateNonGlobalWildcardDomainPatterns "network.denied_domains" (config.deniedDomains.getD [])
  ensureFlag "network.enabled" config.enabled (constraints.enabled.getD true)
  match constraints.mode with
  | some maxMode => validateMode config.mode maxMode
  | none => .ok ()
  ensureFlag "network.allow_upstream_proxy" config.allowUpstreamProxy
    (constraints.allowUpstreamProxy.getD true)
  ensureFlag "network.dangerously_allow_non_loopback_proxy"
    config.dangerouslyAllowNonLoopbackProxy
    (constraints.dangerouslyAllowNonLoopbackProxy.getD true)
  ensureFlag "network.dangerously_allow_all_unix_sockets"
    (config.dangerouslyAllowAllUnixSockets.getD false)
    (constraints.dangerouslyAllowAllUnixSockets.getD constraints.allowUnixSockets.isNone)
  ensureFlag "network.allow_local_binding" (config.allowLocalBinding.getD false)
    (constraints.allowLocalBinding.getD true)

def validatePolicyAgainstConstraints (config : NetworkProxyConfig Hook)
    (constraints : NetworkProxyConstraints) : Except ConstraintError Unit := do
  let configured := config.allowedDomains.getD []
  let denied := config.deniedDomains.getD []
  validateSettings peripherals config constraints
  match constraints.allowedDomains with
  | some managed =>
    validateAllowedDomains crates managed configured denied constraints.allowlistExpansionEnabled
  | none => .ok ()
  match constraints.deniedDomains with
  | some managed => validateDeniedDomains managed denied constraints.denylistExpansionEnabled
  | none => .ok ()
  match constraints.allowUnixSockets with
  | some managed => validateUnixSockets managed config.allowUnixSocketPaths
  | none => .ok ()

structure ConfigState (Hook : Type) (crates : HostCrates) where
  config : NetworkProxyConfig Hook
  constraints : NetworkProxyConstraints
  allowSet : GlobSet
  denySet : GlobSet
  allow_compiled :
    compileAllowlistGlobset crates (config.allowedDomains.getD []) = .ok allowSet
  deny_compiled : compileDenylistGlobset crates (config.deniedDomains.getD []) = .ok denySet

def ConfigState.default (Hook : Type) (crates : HostCrates) : ConfigState Hook crates where
  config := NetworkProxyConfig.default Hook
  constraints := NetworkProxyConstraints.default
  allowSet := []
  denySet := []
  allow_compiled := rfl
  deny_compiled := rfl

inductive BuildError where
  | message (text : Text)
  | constraint (error : ConstraintError)
  deriving DecidableEq, Repr

def withBrokerage (config : NetworkProxyConfig Hook) (constraints : NetworkProxyConstraints) :
    NetworkProxyConfig Hook :=
  let config :=
    if constraints.enabled = some false then { config with credentialBroker := false } else config
  let createdProxy := config.credentialBroker && !config.enabled
  let createdAllowlist :=
    createdProxy && config.allowedDomains.isNone && constraints.allowedDomains.isNone
  let config := { config with enabled := config.enabled || createdProxy }
  if createdAllowlist then config.setAllowedDomains ["*".toList] else config

/-- The checks of `build_config_state` that come before the sets are compiled. -/
def checkBuild (config : NetworkProxyConfig Hook) : Except BuildError Unit := do
  ensure (config.allowUnixSocketPaths.all fun path =>
      peripherals.socketPathIsAbsolute path && '\x00' ∉ path)
    (.message "invalid network.allow_unix_sockets: expected a NUL-free absolute path".toList)
  ensure (!config.credentialBroker || config.mitm)
    (.message "network.credential_broker requires network.mitm = true".toList)
  ensure (config.mitmCa.isNone || config.mitm)
    (.message "network.mitm_ca requires network.mitm = true".toList)
  (validateNonGlobalWildcardDomainPatterns "network.denied_domains"
    (config.deniedDomains.getD [])).mapError .constraint

def failWith : Option Text → Except BuildError Unit
  | some message => .error (.message message)
  | none => .ok ()

def checkHooks (config : NetworkProxyConfig Hook) : Except BuildError Unit := do
  failWith (validateMitmHookConfig peripherals config)
  failWith (if config.mitmHooks.isEmpty then none else peripherals.compileHooks config.mitmHooks)
  failWith (if config.mitm then
    peripherals.mitmState config.allowUpstreamProxy config.mitmCa else none)

def compileState (config : NetworkProxyConfig Hook) (constraints : NetworkProxyConstraints) :
    Except BuildError (ConfigState Hook crates) :=
  match hd : compileDenylistGlobset crates (config.deniedDomains.getD []) with
  | .error message => .error (.message message)
  | .ok denySet =>
    match ha : compileAllowlistGlobset crates (config.allowedDomains.getD []) with
    | .error message => .error (.message message)
    | .ok allowSet =>
      match checkHooks peripherals config with
      | .error error => .error error
      | .ok _ => .ok ⟨config, constraints, allowSet, denySet, ha, hd⟩

def buildConfigState (config : NetworkProxyConfig Hook) (constraints : NetworkProxyConstraints) :
    Except BuildError (ConfigState Hook crates) :=
  match checkBuild peripherals (withBrokerage config constraints) with
  | .error error => .error error
  | .ok _ => compileState crates peripherals (withBrokerage config constraints) constraints

inductive LocalBindingPolicy where
  | defaultFalse
  | requireTrue
  deriving DecidableEq, Repr

def LocalBindingPolicy.resolvedConfig (self : LocalBindingPolicy)
    (config : NetworkProxyConfig Hook) : NetworkProxyConfig Hook :=
  let resolved := config.allowLocalBinding.getD (config.enabled && self = .requireTrue)
  { config with allowLocalBinding := some resolved }

inductive DomainListKind where
  | allow
  | deny
  deriving DecidableEq, Repr

namespace DomainListKind

def permission : DomainListKind → NetworkDomainPermission
  | allow => .allow
  | deny => .deny

def opposite : DomainListKind → DomainListKind
  | allow => deny
  | deny => allow

def entries (self : DomainListKind) (config : NetworkProxyConfig Hook) : List Text :=
  (config.domainEntries self.permission).getD []

def constraintField : DomainListKind → Text
  | allow => "network.allowed_domains".toList
  | deny => "network.denied_domains".toList

def listName : DomainListKind → Text
  | allow => "allowlist".toList
  | deny => "denylist".toList

def contains (self : DomainListKind) (config : NetworkProxyConfig Hook) (host : Text) : Bool :=
  (self.entries config).any fun entry => normalizeHost entry = host

end DomainListKind

inductive DomainUpdateError where
  | hostIsEmpty
  | constrained (field : Text) (error : ConstraintError)
  | compile (listName : Text) (error : BuildError)
  deriving DecidableEq, Repr

def updateDomainList (policy : LocalBindingPolicy) (state : ConfigState Hook crates) (host : Text)
    (target : DomainListKind) : Except DomainUpdateError (ConfigState Hook crates) :=
  let normalized := normalizeHost host
  if normalized = [] then .error .hostIsEmpty
  else if target.contains state.config normalized &&
      !target.opposite.contains state.config normalized then .ok state
  else
    let candidate :=
      state.config.upsertDomainPermission normalized target.permission normalizeHost
    match validatePolicyAgainstConstraints crates peripherals (policy.resolvedConfig candidate)
      state.constraints with
    | .error error => .error (.constrained target.constraintField error)
    | .ok _ =>
      match buildConfigState crates peripherals candidate state.constraints with
      | .error error => .error (.compile target.listName error)
      | .ok state => .ok state

def addAllowedDomain (policy : LocalBindingPolicy) (state : ConfigState Hook crates)
    (host : Text) : Except DomainUpdateError (ConfigState Hook crates) :=
  updateDomainList crates peripherals policy state host .allow

def addDeniedDomain (policy : LocalBindingPolicy) (state : ConfigState Hook crates)
    (host : Text) : Except DomainUpdateError (ConfigState Hook crates) :=
  updateDomainList crates peripherals policy state host .deny

end Validate

end Codex.NetworkProxy

import Codex.ExecPolicy.Policy
import Codex.Lib.Fallible
import Codex.NetworkProxy.Host
import Mathlib.Data.List.Infix

/-! `normalize_network_rule_host` of `execpolicy/src/rule.rs` and the three places that call it:
`Policy::add_network_rule`, `blocking_append_network_rule`, and the `network_rule` builtin. -/

namespace Codex.ExecPolicy
open List hiding isEmpty_iff
open Codex.Lib Codex.NetworkProxy

inductive Error
  | invalidPattern (message : Text)
  | invalidRule (message : Text)
  deriving DecidableEq, Repr

inductive NetworkRuleProtocol
  | http
  | https
  | socks5Tcp
  | socks5Udp
  deriving DecidableEq, Repr

structure NetworkRule where
  host : Text
  protocol : NetworkRuleProtocol
  decision : Decision
  justification : Option Text
  deriving DecidableEq, Repr

def isPort (port : Text) : Bool := !port.isEmpty && port.all Char.isDigit

def portOk : Text → Bool
  | ':' :: port => isPort port
  | _ => false

def stripBrackets (raw stripped : Text) : Except Error Text :=
  match Text.splitOnce [']'] stripped with
  | none =>
    .error (.invalidRule "network_rule host has an invalid bracketed IPv6 literal".toList)
  | some (inside, rest) =>
    if !rest.isEmpty && !portOk rest then
      .error (.invalidRule ("network_rule host contains an unsupported suffix: ".toList ++ raw))
    else .ok inside

def stripPort (host : Text) : Text :=
  if host.count ':' = 1 then
    match Text.rsplitOnce ':' host with
    | some (candidate, port) => if !candidate.isEmpty && isPort port then candidate else host
    | none => host
  else host

def stripBracketsOrPort (raw : Text) : Text → Except Error Text
  | '[' :: stripped => stripBrackets raw stripped
  | host => .ok (stripPort host)

def checkNormalized (normalized : Text) : Except Error Text :=
  if normalized.isEmpty then .error (.invalidRule "network_rule host cannot be empty".toList)
  else if '*' ∈ normalized then
    .error (.invalidRule
      "network_rule host must be a specific host; wildcards are not allowed".toList)
  else if normalized.any Text.isWhitespace then
    .error (.invalidRule "network_rule host cannot contain whitespace".toList)
  else .ok normalized

def normalizeNetworkRuleHost (raw : Text) : Except Error Text :=
  let host := Text.trim raw
  if host.isEmpty then .error (.invalidRule "network_rule host cannot be empty".toList)
  else if "://".toList <:+: host ∨ '/' ∈ host ∨ '?' ∈ host ∨ '#' ∈ host then
    .error (.invalidRule
      "network_rule host must be a hostname or IP literal (without scheme or path)".toList)
  else do
    let host ← stripBracketsOrPort raw host
    checkNormalized (toAsciiLowercase (Text.trim (trimEndDots host)))

example : normalizeNetworkRuleHost " [2001:DB8::1]:443".toList = .ok "2001:db8::1".toList := by
  decide +kernel

def HasPort (host : Text) : Prop :=
  ∃ candidate port, host = candidate ++ ':' :: port ∧ ':' ∉ candidate ∧ candidate ≠ [] ∧
    isPort port = true

inductive HostPart : Text → Text → Prop
  | bracketed {inside rest : Text} (hinside : ']' ∉ inside)
      (hrest : rest = [] ∨ ∃ port, rest = ':' :: port ∧ isPort port = true) :
      HostPart ('[' :: (inside ++ ']' :: rest)) inside
  | withPort {candidate port : Text} (hhead : candidate.head? ≠ some '[')
      (hcolon : ':' ∉ candidate) (hne : candidate ≠ []) (hport : isPort port = true) :
      HostPart (candidate ++ ':' :: port) candidate
  | bare {host : Text} (hhead : host.head? ≠ some '[') (hport : ¬HasPort host) :
      HostPart host host

theorem colon_notMem_of_isPort {port : Text} (h : isPort port) : ':' ∉ port := by
  intro hmem
  have hdigits := (Bool.and_eq_true_iff.mp h).2
  exact absurd (all_eq_true.mp hdigits ':' hmem) (by decide)

theorem portOk_eq_true_iff {rest : Text} :
    portOk rest ↔ ∃ port, rest = ':' :: port ∧ isPort port := by
  unfold portOk
  split
  · simp
  · next h => simpa using fun port heq => absurd heq (h port)

theorem stripBrackets_eq_ok_iff {raw stripped inside : Text} :
    stripBrackets raw stripped = .ok inside ↔ ∃ rest, stripped = inside ++ ']' :: rest ∧
      ']' ∉ inside ∧ (rest = [] ∨ ∃ port, rest = ':' :: port ∧ isPort port) := by
  rw [stripBrackets]
  constructor
  · intro h
    cases hsplit : Text.splitOnce [']'] stripped with
    | none => simp [hsplit] at h
    | some p =>
      obtain ⟨before, rest⟩ := p
      have ⟨hs, hbefore⟩ := Text.splitOnce_singleton_eq_some_iff.mp hsplit
      simp only [hsplit] at h
      split at h
      · simp at h
      · next hok =>
        obtain rfl : before = inside := Except.ok.inj h
        refine ⟨rest, hs, hbefore, ?_⟩
        rw [← portOk_eq_true_iff, ← List.isEmpty_iff]
        revert hok
        cases rest.isEmpty <;> cases portOk rest <;> decide
  · rintro ⟨rest, hs, hin, hrest⟩
    simp only [Text.splitOnce_singleton_eq_some_iff.mpr ⟨hs, hin⟩]
    refine if_neg fun hbad => ?_
    rw [← portOk_eq_true_iff, ← List.isEmpty_iff] at hrest
    rcases hrest with h | h <;> simp [h] at hbad

theorem stripPort_of_port {candidate port : Text} (hcolon : ':' ∉ candidate) (hne : candidate ≠ [])
    (hport : isPort port) : stripPort (candidate ++ ':' :: port) = candidate := by
  have hcolon' := colon_notMem_of_isPort hport
  have hcount : (candidate ++ ':' :: port).count ':' = 1 := by
    simp [count_eq_zero_of_not_mem hcolon, count_eq_zero_of_not_mem hcolon']
  rw [stripPort, if_pos hcount, Text.rsplitOnce_eq_some_iff.mpr ⟨rfl, hcolon'⟩]
  simp [hne, hport]

variable {host : Text}

theorem stripPort_of_not_port (h : ¬HasPort host) : stripPort host = host := by
  rw [stripPort]
  split
  · next hcount =>
    split
    · next candidate port hsplit =>
      obtain ⟨hhost, hport⟩ := Text.rsplitOnce_eq_some_iff.mp hsplit
      refine if_neg fun hok => h ⟨candidate, port, hhost, ?_, ?_, ?_⟩
      · rw [hhost, count_append, count_cons_self] at hcount
        exact count_eq_zero.mp (by omega)
      · simp only [Bool.and_eq_true] at hok
        simpa using hok.1
      · exact (Bool.and_eq_true_iff.mp hok).2
    · rfl
  · rfl

theorem stripBracketsOrPort_of_head {raw host : Text} (h : host.head? ≠ some '[') :
    stripBracketsOrPort raw host = .ok (stripPort host) := by
  unfold stripBracketsOrPort
  split
  · simp at h
  · rfl

theorem stripBracketsOrPort_eq_ok_iff {raw part : Text} :
    stripBracketsOrPort raw host = .ok part ↔ HostPart host part := by
  constructor
  · intro h
    by_cases hhead : host.head? = some '['
    · obtain ⟨stripped, rfl⟩ := head?_eq_some_iff.mp hhead
      obtain ⟨rest, rfl, hin, hrest⟩ := stripBrackets_eq_ok_iff.mp h
      exact .bracketed hin hrest
    · rw [stripBracketsOrPort_of_head hhead, Except.ok.injEq] at h
      subst h
      by_cases hport : HasPort host
      · obtain ⟨candidate, port, rfl, hcolon, hne, hport⟩ := hport
        rw [stripPort_of_port hcolon hne hport]
        refine .withPort (fun hc => hhead ?_) hcolon hne hport
        rw [head?_append, hc]
        rfl
      · rw [stripPort_of_not_port hport]
        exact .bare hhead hport
  · rintro (⟨hin, hrest⟩ | ⟨hhead, hcolon, hne, hport⟩ | ⟨hhead, hport⟩)
    · exact stripBrackets_eq_ok_iff.mpr ⟨_, rfl, hin, hrest⟩
    · rw [stripBracketsOrPort_of_head, stripPort_of_port hcolon hne hport]
      rwa [head?_append_of_ne_nil _ hne]
    · rw [stripBracketsOrPort_of_head hhead, stripPort_of_not_port hport]

theorem HostPart.subset {part : Text} (h : HostPart host part) : part ⊆ host := by
  intro c hc
  cases h with
  | bracketed => simp [hc]
  | withPort => simp [hc]
  | bare => exact hc

theorem HostPart.length_lt_or_eq {part : Text} (h : HostPart host part) :
    part.length < host.length ∨ part = host ∧ host.head? ≠ some '[' ∧ ¬HasPort host := by
  cases h with
  | bracketed =>
    left
    simp only [length_cons, length_append]
    omega
  | withPort =>
    left
    simp only [length_cons, length_append]
    omega
  | bare hhead hport => exact .inr ⟨rfl, hhead, hport⟩

def bareName (part : Text) : Text := Text.trim (trimEndDots part)

theorem bareName_subset (part : Text) : bareName part ⊆ part :=
  List.Subset.trans (Text.trim_isInfix _).subset (List.rdropWhile_prefix _ _).subset

theorem length_bareName_le (part : Text) : (bareName part).length ≤ part.length :=
  (Text.length_trim_le _).trans (List.rdropWhile_prefix _ _).length_le

structure IsSpecificHost (n : Text) : Prop where
  ne_nil : n ≠ []
  star : '*' ∉ n
  space : ∀ c ∈ n, Text.isWhitespace c = false

theorem checkNormalized_eq_ok_iff {normalized n : Text} :
    checkNormalized normalized = .ok n ↔ normalized = n ∧ IsSpecificHost n := by
  constructor
  · intro h
    unfold checkNormalized at h
    split_ifs at h with hnil hstar hspace
    obtain rfl := Except.ok.inj h
    refine ⟨rfl, ?_, hstar, ?_⟩
    · simpa using hnil
    · simpa using hspace
  · rintro ⟨rfl, hne, hstar, hspace⟩
    rw [checkNormalized, if_neg (by simpa using hne), if_neg hstar, if_neg (by simpa using hspace)]

structure IsHostLike (host : Text) : Prop where
  ne_nil : host ≠ []
  slash : '/' ∉ host
  query : '?' ∉ host
  fragment : '#' ∉ host

theorem isHostLike_iff : IsHostLike host ↔
    ¬host.isEmpty ∧ ¬("://".toList <:+: host ∨ '/' ∈ host ∨ '?' ∈ host ∨ '#' ∈ host) := by
  rw [List.isEmpty_iff]
  constructor
  · rintro ⟨hne, hslash, hquery, hfragment⟩
    refine ⟨hne, ?_⟩
    rintro (hscheme | h | h | h)
    · exact hslash (hscheme.subset (by decide))
    · exact hslash h
    · exact hquery h
    · exact hfragment h
  · rintro ⟨hne, h⟩
    exact ⟨hne, fun hc => h (.inr (.inl hc)), fun hc => h (.inr (.inr (.inl hc))),
      fun hc => h (.inr (.inr (.inr hc)))⟩

theorem normalizeNetworkRuleHost_eq_ok_iff {raw n : Text} :
    normalizeNetworkRuleHost raw = .ok n ↔ IsHostLike (Text.trim raw) ∧
      ∃ part, HostPart (Text.trim raw) part ∧ toAsciiLowercase (bareName part) = n ∧
        IsSpecificHost n := by
  constructor
  · intro h
    unfold normalizeNetworkRuleHost at h
    extract_lets host at h
    split_ifs at h with hempty hpath
    refine ⟨isHostLike_iff.mpr ⟨hempty, hpath⟩, ?_⟩
    obtain ⟨part, hpart, hcheck⟩ := exists_of_bind_eq_ok h
    exact ⟨part, stripBracketsOrPort_eq_ok_iff.mp hpart, checkNormalized_eq_ok_iff.mp hcheck⟩
  · rintro ⟨hlike, part, hpart, hcheck⟩
    have ⟨hempty, hpath⟩ := isHostLike_iff.mp hlike
    unfold normalizeNetworkRuleHost
    rw [if_neg hempty, if_neg hpath, stripBracketsOrPort_eq_ok_iff.mpr hpart]
    exact checkNormalized_eq_ok_iff.mpr hcheck

/-- There is nothing that another normalisation takes away: no bracket in front, no dot at the end
and no port. -/
structure Settled (host : Text) : Prop where
  bracket : host.head? ≠ some '['
  dot : host.getLast? ≠ some '.'
  port : ¬HasPort host

theorem head?_toAsciiLowercase_iff {c : Char}
    (hc : ¬(65 ≤ c.toNat ∧ c.toNat ≤ 90) ∧ ¬(97 ≤ c.toNat ∧ c.toNat ≤ 122)) :
    (toAsciiLowercase host).head? = some c ↔ host.head? = some c := by
  rw [toAsciiLowercase, head?_map, Option.map_eq_some_iff]
  simp [toLower_eq_iff hc]

theorem mem_toAsciiLowercase_iff {c : Char}
    (hc : ¬(65 ≤ c.toNat ∧ c.toNat ≤ 90) ∧ ¬(97 ≤ c.toNat ∧ c.toNat ≤ 122)) :
    c ∈ toAsciiLowercase host ↔ c ∈ host := by
  rw [toAsciiLowercase, mem_map]
  simp [toLower_eq_iff hc]

theorem isPort_toAsciiLowercase (port : Text) : isPort (toAsciiLowercase port) = isPort port := by
  rw [isPort, isPort, toAsciiLowercase, isEmpty_map, all_map]
  exact congrArg _ (congrArg port.all (funext isDigit_toLower))

theorem hasPort_toAsciiLowercase_iff : HasPort (toAsciiLowercase host) ↔ HasPort host := by
  constructor
  · rintro ⟨candidate, port, hhost, hcolon, hne, hport⟩
    obtain ⟨candidate, rest, rfl, rfl, hrest⟩ := map_eq_append_iff.mp hhost
    obtain ⟨c, port, rfl, hc, rfl⟩ := map_eq_cons_iff.mp hrest
    obtain rfl := (toLower_eq_iff (by decide)).mp hc
    refine ⟨candidate, port, rfl, ?_, by simpa using hne, ?_⟩
    · rwa [← toAsciiLowercase, mem_toAsciiLowercase_iff (by decide)] at hcolon
    · rwa [← toAsciiLowercase, isPort_toAsciiLowercase] at hport
  · rintro ⟨candidate, port, rfl, hcolon, hne, hport⟩
    refine ⟨toAsciiLowercase candidate, toAsciiLowercase port, ?_, ?_, ?_, ?_⟩
    · simp [toAsciiLowercase]
    · rwa [mem_toAsciiLowercase_iff (by decide)]
    · simpa [toAsciiLowercase] using hne
    · rwa [isPort_toAsciiLowercase]

theorem settled_toAsciiLowercase_iff : Settled (toAsciiLowercase host) ↔ Settled host := by
  have hlast : (toAsciiLowercase host).getLast? = some '.' ↔ host.getLast? = some '.' := by
    rw [toAsciiLowercase, getLast?_map, Option.map_eq_some_iff]
    simp [toLower_eq_iff]
  constructor
  · rintro ⟨hbracket, hdot, hport⟩
    exact ⟨mt (head?_toAsciiLowercase_iff (by decide)).mpr hbracket, mt hlast.mpr hdot,
      mt hasPort_toAsciiLowercase_iff.mpr hport⟩
  · rintro ⟨hbracket, hdot, hport⟩
    exact ⟨mt (head?_toAsciiLowercase_iff (by decide)).mp hbracket, mt hlast.mp hdot,
      mt hasPort_toAsciiLowercase_iff.mp hport⟩

theorem trimEndDots_eq_self_iff : trimEndDots host = host ↔ host.getLast? ≠ some '.' := by
  rw [trimEndDots, rdropWhile_eq_self_iff]
  cases host using List.reverseRecOn <;> simp

theorem normalizeNetworkRuleHost_self_iff {n : Text} (hlower : toAsciiLowercase n = n)
    (hlike : IsHostLike n) (hspecific : IsSpecificHost n) :
    normalizeNetworkRuleHost n = .ok n ↔ Settled n := by
  have htrim := Text.trim_eq_self hspecific.space
  rw [normalizeNetworkRuleHost_eq_ok_iff, htrim]
  constructor
  · rintro ⟨-, part, hpart, hn, -⟩
    have hlen : n.length = (bareName part).length := by
      rw [← hn, toAsciiLowercase, length_map]
    have hle := length_bareName_le part
    -- what is taken away is missing from the result
    rcases hpart.length_lt_or_eq with hlt | ⟨rfl, hbracket, hport⟩
    · omega
    · refine ⟨hbracket, trimEndDots_eq_self_iff.mp ?_, hport⟩
      refine (List.rdropWhile_prefix _ _).eq_of_length_le ?_
      rw [hlen]
      exact Text.length_trim_le _
  · rintro ⟨hbracket, hdot, hport⟩
    refine ⟨hlike, n, .bare hbracket hport, ?_, hspecific⟩
    rw [bareName, trimEndDots_eq_self_iff.mpr hdot, htrim, hlower]

/-- The part of a host that is kept is settled without its trailing dots and the white space
around it. -/
def HostSettled (raw : Text) : Prop :=
  ∀ part, HostPart (Text.trim raw) part → Settled (Text.trim (trimEndDots part))

theorem HostPart.unique {part part' : Text} (h : HostPart host part) (h' : HostPart host part') :
    part = part' := by
  have hpart : stripBracketsOrPort [] host = .ok part := stripBracketsOrPort_eq_ok_iff.mpr h
  rw [stripBracketsOrPort_eq_ok_iff.mpr h'] at hpart
  exact (Except.ok.inj hpart).symm

theorem normalizeNetworkRuleHost_idempotent_iff {raw n : Text}
    (h : normalizeNetworkRuleHost raw = .ok n) :
    normalizeNetworkRuleHost n = .ok n ↔ HostSettled raw := by
  obtain ⟨hlike, part, hpart, rfl, hspecific⟩ := normalizeNetworkRuleHost_eq_ok_iff.mp h
  have hsub : bareName part ⊆ Text.trim raw := List.Subset.trans (bareName_subset part) hpart.subset
  have hlike' : IsHostLike (toAsciiLowercase (bareName part)) := by
    refine ⟨hspecific.ne_nil, ?_, ?_, ?_⟩
    · rw [mem_toAsciiLowercase_iff (by decide)]
      exact fun hc => hlike.slash (hsub hc)
    · rw [mem_toAsciiLowercase_iff (by decide)]
      exact fun hc => hlike.query (hsub hc)
    · rw [mem_toAsciiLowercase_iff (by decide)]
      exact fun hc => hlike.fragment (hsub hc)
  have hlower : toAsciiLowercase (toAsciiLowercase (bareName part)) =
      toAsciiLowercase (bareName part) := by
    rw [toAsciiLowercase, toAsciiLowercase, map_map]
    exact map_congr_left fun c _ => toLower_toLower c
  rw [normalizeNetworkRuleHost_self_iff hlower hlike' hspecific, settled_toAsciiLowercase_iff]
  constructor
  · intro hsettled part' hpart'
    rwa [hpart'.unique hpart]
  · exact fun hsettled => hsettled part hpart

def checkJustification : Option Text → Except Error Unit
  | some raw =>
    if (Text.trim raw).isEmpty then .error (.invalidRule "justification cannot be empty".toList)
    else .ok ()
  | none => .ok ()

def addNetworkRule (networkRules : List NetworkRule) (host : Text) (protocol : NetworkRuleProtocol)
    (decision : Decision) (justification : Option Text) : Except Error (List NetworkRule) := do
  let host ← normalizeNetworkRuleHost host
  checkJustification justification
  .ok (networkRules ++ [⟨host, protocol, decision, justification⟩])

def appendedNetworkRule (host : Text) (protocol : NetworkRuleProtocol) (decision : Decision)
    (justification : Option Text) : Except Error NetworkRule := do
  let host ← normalizeNetworkRuleHost host
  checkJustification justification
  .ok ⟨host, protocol, decision, justification⟩

/-- The builtin `network_rule`, which looks at the justification first, with the arguments of a
line of the file. -/
def networkRule (args : NetworkRule) : Except Error NetworkRule := do
  checkJustification args.justification
  let host ← normalizeNetworkRuleHost args.host
  .ok { args with host }

/-- A rule that was added is read back from the rules file as it is in memory exactly if its host
was settled. -/
theorem network_rule_reloads_iff (raw n : Text) (h : normalizeNetworkRuleHost raw = .ok n) :
    (normalizeNetworkRuleHost n = .ok n ↔ HostSettled raw) ∧
      ∀ networkRules protocol decision justification inMemory written,
        addNetworkRule networkRules raw protocol decision justification = .ok inMemory →
        appendedNetworkRule raw protocol decision justification = .ok written →
        ((∃ reloaded, networkRule written = .ok reloaded ∧
          inMemory = networkRules ++ [reloaded]) ↔ HostSettled raw) := by
  have hiff := normalizeNetworkRuleHost_idempotent_iff h
  refine ⟨hiff, ?_⟩
  intro networkRules protocol decision justification inMemory written hmemory hwritten
  rw [addNetworkRule, h, ok_bind] at hmemory
  rw [appendedNetworkRule, h, ok_bind] at hwritten
  obtain ⟨⟨⟩, hjust, hmemory⟩ := exists_of_bind_eq_ok hmemory
  rw [hjust, ok_bind] at hwritten
  obtain rfl := Except.ok.inj hmemory
  obtain rfl := Except.ok.inj hwritten
  rw [← hiff, networkRule, hjust, ok_bind]
  constructor
  · rintro ⟨reloaded, hreload, heq⟩
    obtain ⟨host, hhost, hrule⟩ := exists_of_bind_eq_ok hreload
    obtain rfl := Except.ok.inj hrule
    simp only [append_cancel_left_eq, List.cons.injEq, NetworkRule.mk.injEq, and_true] at heq
    rw [hhost, heq]
  · intro hsame
    exact ⟨⟨n, protocol, decision, justification⟩, by rw [hsame]; rfl, rfl⟩

theorem network_rule_reloads_ipv6 :
    normalizeNetworkRuleHost "[::1]:443".toList = .ok "::1".toList ∧
      normalizeNetworkRuleHost "::1".toList = .ok "::1".toList ∧
        HostSettled "[::1]:443".toList := by
  have h : normalizeNetworkRuleHost "[::1]:443".toList = .ok "::1".toList := by decide +kernel
  have hagain : normalizeNetworkRuleHost "::1".toList = .ok "::1".toList := by decide +kernel
  exact ⟨h, hagain, (network_rule_reloads_iff _ _ h).1.mp hagain⟩

/-- A dot behind the port hides it from the first normalisation only. -/
theorem port_is_stripped_on_reload :
    normalizeNetworkRuleHost "example.com:443.".toList = .ok "example.com:443".toList ∧
      normalizeNetworkRuleHost "example.com:443".toList = .ok "example.com".toList := by
  decide +kernel

end Codex.ExecPolicy

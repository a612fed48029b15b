import Codex.Lib.IpAddr
import Codex.Lib.Trim

/-! `normalize_host` of `network-proxy/src/policy.rs`. -/

namespace Codex.NetworkProxy
open Codex.Lib Codex.Lib.IpAddr List

def toAsciiLowercase (s : Text) : Text := s.map Char.toLower

def trimEndDots (s : Text) : Text := s.rdropWhile (· = '.')

def normalizeScopedIp (delimiter host : Text) : Option Text :=
  match Text.splitOnce delimiter host with
  | some (ip, scope) => if isIpAddr ip then some (ip ++ '%' :: scope) else none
  | none => none

def normalizeIpLiteral (host : Text) : Option Text :=
  if isIpAddr host then some host
  else (normalizeScopedIp "%25".toList host).or (normalizeScopedIp "%".toList host)

def normalizeDnsHostOrIpLiteral (host : Text) : Text :=
  let host := trimEndDots (toAsciiLowercase host)
  (normalizeIpLiteral host).getD host

def unwrapHost (host : Text) : Text :=
  if host.head? = some '[' ∧ ']' ∈ host then host.tail.takeWhile (· ≠ ']')
  else if host.count ':' = 1 then host.takeWhile (· ≠ ':')
  else host

def normalizeHost (host : Text) : Text := normalizeDnsHostOrIpLiteral (unwrapHost (Text.trim host))

theorem normalizeScopedIp_spec {delimiter host r : Text}
    (h : normalizeScopedIp delimiter host = some r) :
    ∃ ip scope, host = ip ++ delimiter ++ scope ∧ r = ip ++ '%' :: scope := by
  unfold normalizeScopedIp at h
  split at h
  · next ip scope hs =>
    split at h
    · exact ⟨ip, scope, Text.splitOnce_eq_some hs, (Option.some.inj h).symm⟩
    · exact absurd h (by simp)
  · exact absurd h (by simp)

theorem normalizeIpLiteral_cases {host r : Text} (h : normalizeIpLiteral host = some r) :
    r = host ∨ ∃ ip scope, host = ip ++ "%25".toList ++ scope ∧ r = ip ++ '%' :: scope := by
  unfold normalizeIpLiteral at h
  split at h
  · exact .inl (Option.some.inj h).symm
  · rw [Option.or_eq_some_iff] at h
    rcases h with h | ⟨_, h⟩
    · exact .inr (normalizeScopedIp_spec h)
    · obtain ⟨ip, scope, hhost, hr⟩ := normalizeScopedIp_spec h
      refine .inl ?_
      rw [hhost, hr]
      simp

variable (c : Char) (host : Text)

theorem getD_normalizeIpLiteral_cases : (normalizeIpLiteral host).getD host = host ∨ ∃ ip scope,
      host = ip ++ "%25".toList ++ scope ∧
        (normalizeIpLiteral host).getD host = ip ++ '%' :: scope := by
  cases h : normalizeIpLiteral host with
  | none => exact .inl rfl
  | some r => exact normalizeIpLiteral_cases h

theorem length_normalizeDns_le : (normalizeDnsHostOrIpLiteral host).length ≤ host.length := by
  have hdots : (trimEndDots (toAsciiLowercase host)).length ≤ host.length := by
    have hp := (List.rdropWhile_prefix (· = '.') (toAsciiLowercase host)).length_le
    rw [toAsciiLowercase, length_map] at hp
    exact hp
  rcases getD_normalizeIpLiteral_cases (trimEndDots (toAsciiLowercase host)) with h | ⟨l, r, hh, h⟩
  · rw [normalizeDnsHostOrIpLiteral, h]
    exact hdots
  · rw [normalizeDnsHostOrIpLiteral, h]
    rw [hh] at hdots
    simp only [length_append, length_cons] at hdots ⊢
    have hlen : ("%25".toList).length = 3 := rfl
    omega

theorem length_unwrapHost_le : (unwrapHost host).length ≤ host.length := by
  unfold unwrapHost
  split
  · have htake := (List.takeWhile_prefix (· ≠ ']') (l := host.tail)).length_le
    have htail : host.tail.length ≤ host.length := by
      rw [length_tail]
      omega
    exact htake.trans htail
  · split
    · exact (List.takeWhile_prefix _).length_le
    · exact le_rfl

theorem length_normalizeHost_le : (normalizeHost host).length ≤ host.length :=
  (length_normalizeDns_le _).trans ((length_unwrapHost_le _).trans (Text.length_trim_le host))

theorem toNat_toLower :
    c.toLower.toNat = if 65 ≤ c.toNat ∧ c.toNat ≤ 90 then c.toNat + 32 else c.toNat := by
  delta Char.toLower
  split
  · next h =>
    have hlow : 65 ≤ c.toNat := UInt32.le_iff_toNat_le.mp h.1
    have hhigh : c.toNat ≤ 90 := UInt32.le_iff_toNat_le.mp h.2
    rw [if_pos ⟨hlow, hhigh⟩]
    change (c.val.toNat + 32) % 2 ^ 32 = c.val.toNat + 32
    change c.val.toNat ≤ 90 at hhigh
    omega
  · next h =>
    rw [if_neg]
    intro hc
    exact h ⟨UInt32.le_iff_toNat_le.mpr hc.1, UInt32.le_iff_toNat_le.mpr hc.2⟩

theorem toLower_toLower : c.toLower.toLower = c.toLower := by
  apply Char.toNat_inj.mp
  rw [toNat_toLower, toNat_toLower]
  split_ifs <;> omega

theorem toLower_eq_iff {c d : Char}
    (hc : ¬(65 ≤ c.toNat ∧ c.toNat ≤ 90) ∧ ¬(97 ≤ c.toNat ∧ c.toNat ≤ 122)) :
    d.toLower = c ↔ d = c := by
  constructor
  · rintro rfl
    apply Char.toNat_inj.mp
    rw [toNat_toLower] at hc ⊢
    split_ifs at hc ⊢ <;> omega
  · rintro rfl
    apply Char.toNat_inj.mp
    rw [toNat_toLower, if_neg hc.1]

theorem isDigit_toLower : c.toLower.isDigit = c.isDigit := by
  rw [Bool.eq_iff_iff, Char.isDigit_iff_toNat, Char.isDigit_iff_toNat, toNat_toLower]
  change 48 ≤ _ ∧ _ ≤ 57 ↔ 48 ≤ _ ∧ _ ≤ 57
  split_ifs <;> omega

theorem normalizeDns_lower : ∀ c ∈ normalizeDnsHostOrIpLiteral host, c.toLower = c := by
  have hdots : ∀ c ∈ trimEndDots (toAsciiLowercase host), c.toLower = c := by
    intro c hc
    have hmem := (List.rdropWhile_prefix (· = '.') (toAsciiLowercase host)).subset hc
    obtain ⟨d, _, rfl⟩ := mem_map.mp hmem
    exact toLower_toLower d
  intro c hc
  rcases getD_normalizeIpLiteral_cases (trimEndDots (toAsciiLowercase host)) with h | ⟨l, r, hh, h⟩
  · rw [normalizeDnsHostOrIpLiteral, h] at hc
    exact hdots c hc
  · rw [normalizeDnsHostOrIpLiteral, h] at hc
    rw [hh] at hdots
    rcases mem_append.mp hc with hl | hr
    · exact hdots c (by simp [hl])
    · rcases mem_cons.mp hr with rfl | hr
      · rfl
      · exact hdots c (by simp [hr])

theorem toAsciiLowercase_normalizeHost :
    toAsciiLowercase (normalizeHost host) = normalizeHost host := by
  rw [toAsciiLowercase]
  exact (map_congr_left (normalizeDns_lower _)).trans (map_id _)

theorem normalizeHost_trim : normalizeHost (Text.trim host) = normalizeHost host := by
  rw [normalizeHost, Text.trim_trim, normalizeHost]

theorem star_mem_normalizeHost {host rest : Text} (h : Text.trim host = '*' :: rest) :
    '*' ∈ normalizeHost host := by
  have hunwrap : '*' ∈ unwrapHost (Text.trim host) := by
    rw [h, unwrapHost, if_neg (by simp)]
    split
    · simp
    · exact mem_cons_self
  have hdots : '*' ∈ trimEndDots (toAsciiLowercase (unwrapHost (Text.trim host))) := by
    have hlower : '*' ∈ toAsciiLowercase (unwrapHost (Text.trim host)) :=
      mem_map.mpr ⟨'*', hunwrap, rfl⟩
    have hsplit : trimEndDots (toAsciiLowercase (unwrapHost (Text.trim host))) ++
        (toAsciiLowercase (unwrapHost (Text.trim host))).rtakeWhile (· = '.') =
          toAsciiLowercase (unwrapHost (Text.trim host)) := rdropWhile_append_rtakeWhile
    rw [← hsplit] at hlower
    rcases mem_append.mp hlower with hmem | hmem
    · exact hmem
    · exact absurd (mem_rtakeWhile_imp hmem) (by decide)
  rw [normalizeHost, normalizeDnsHostOrIpLiteral]
  rcases getD_normalizeIpLiteral_cases (trimEndDots (toAsciiLowercase
    (unwrapHost (Text.trim host)))) with heq | ⟨l, r, hh, heq⟩
  · rw [heq]
    exact hdots
  · rw [heq]
    rw [hh] at hdots
    simp only [mem_append, mem_cons] at hdots ⊢
    rcases hdots with (hl | hm) | hr
    · exact .inl hl
    · exact absurd hm (by decide)
    · exact .inr (.inr hr)

theorem trim_of_normalizeHost_eq {n : Text} (h : normalizeHost n = n) : Text.trim n = n := by
  refine Text.trim_eq_of_length ?_
  have hlen := length_normalizeHost_le (Text.trim n)
  rw [normalizeHost_trim, h] at hlen
  exact hlen

end Codex.NetworkProxy

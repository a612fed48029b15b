import Codex.Lib.Text

/-! Which texts `IpAddr::from_str` of the Rust library accepts. -/

namespace Codex.Lib.IpAddr

def isOctet (s : Text) : Bool :=
  s ≠ [] && s.length ≤ 3 && s.all Char.isDigit && (s.length = 1 || s.head? ≠ some '0') &&
    s.foldl (fun n c => 10 * n + (c.toNat - 48)) 0 ≤ 255

def isIpv4 (s : Text) : Bool :=
  let octets := s.splitOn '.'
  octets.length = 4 && octets.all isOctet

def isHexDigit (c : Char) : Bool :=
  c.isDigit || ('a' ≤ c && c ≤ 'f') || ('A' ≤ c && c ≤ 'F')

def isGroup (s : Text) : Bool := s ≠ [] && s.length ≤ 4 && s.all isHexDigit

/-- The number of 16-bit groups of a text without `::`, if it is well formed; an IPv4 address
stands for two groups and ends the list. -/
def groupCount : List Text → Option Nat
  | [] => some 0
  | [s] => if isGroup s then some 1 else if isIpv4 s then some 2 else none
  | s :: rest => if isGroup s then (groupCount rest).map (· + 1) else none

def sideCount (s : Text) : Option Nat := if s = [] then some 0 else groupCount (s.splitOn ':')

def splitCompressed : Text → Option (Text × Text)
  | ':' :: ':' :: rest => some ([], rest)
  | c :: rest => (splitCompressed rest).map fun (l, r) => (c :: l, r)
  | [] => none

/-- Before `::` stands no IPv4 address. -/
def isIpv6 (s : Text) : Bool :=
  match splitCompressed s with
  | none => groupCount (s.splitOn ':') = some 8
  | some (l, r) =>
    !l.contains '.' &&
      match sideCount l, sideCount r with
      | some m, some n => m + n ≤ 7
      | _, _ => false

def isIpAddr (s : Text) : Bool := isIpv4 s || isIpv6 s

example : isIpAddr "fe80::1:10.0.0.1".toList = true ∧ isIpAddr "1.2.3.04".toList = false := by
  decide +kernel

end Codex.Lib.IpAddr

import Codex.Lib.Text

/-! `str::trim` and `str::split_once` of the Rust library. -/

namespace Codex.Lib.Text
open List

def isWhitespace (c : Char) : Bool :=
  let n := c.toNat
  (9 ≤ n && n ≤ 13) || n = 0x20 || n = 0x85 || n = 0xA0 || n = 0x1680 ||
    (0x2000 ≤ n && n ≤ 0x200A) || n = 0x2028 || n = 0x2029 || n = 0x202F || n = 0x205F || n = 0x3000

def trimEnd (s : Text) : Text := s.rdropWhile isWhitespace

def trim (s : Text) : Text := trimEnd (s.dropWhile isWhitespace)

def splitOnce (delimiter : Text) : Text → Option (Text × Text)
  | [] => if delimiter = [] then some ([], []) else none
  | c :: s =>
    if delimiter.isPrefixOf (c :: s) then some ([], (c :: s).drop delimiter.length)
    else (splitOnce delimiter s).map fun (before, after) => (c :: before, after)

def rsplitOnce (delimiter : Char) (s : Text) : Option (Text × Text) :=
  (splitOnce [delimiter] s.reverse).map fun (after, before) => (before.reverse, after.reverse)

theorem trim_isInfix (s : Text) : trim s <:+: s :=
  (List.rdropWhile_prefix _ _).isInfix.trans (dropWhile_suffix _).isInfix

theorem length_trim_le (s : Text) : (trim s).length ≤ s.length := (trim_isInfix s).length_le

variable {s : Text} {c : Char}

theorem trim_eq_of_length (h : s.length ≤ (trim s).length) : trim s = s :=
  (trim_isInfix s).eq_of_length_le h

theorem trim_trim (s : Text) : trim (trim s) = trim s := by
  have hhead : (trim s).dropWhile isWhitespace = trim s := by
    rw [dropWhile_eq_self_iff]
    intro hpos
    have hpre : trim s <+: s.dropWhile isWhitespace := List.rdropWhile_prefix _ _
    have hne : s.dropWhile isWhitespace ≠ [] := by
      intro hnil
      rw [hnil, prefix_nil] at hpre
      simp [hpre] at hpos
    have hfirst := head_dropWhile_not isWhitespace hne
    rw [hpre.getElem hpos, ← head_eq_getElem hne]
    simp [hfirst]
  rw [trim, hhead]
  exact rdropWhile_idempotent isWhitespace _

theorem trimEnd_append (s t : Text) :
    trimEnd (s ++ t) = if trimEnd t = [] then trimEnd s else s ++ trimEnd t := by
  simp only [trimEnd, List.rdropWhile, List.reverse_append, List.dropWhile_append,
    List.isEmpty_iff, List.reverse_eq_nil_iff]
  split
  · rfl
  · rw [List.reverse_append, List.reverse_reverse]

theorem trimEnd_eq_nil_iff : trimEnd s = [] ↔ ∀ c ∈ s, isWhitespace c :=
  rdropWhile_eq_nil_iff

theorem head?_trimEnd_ne (h : s.head? ≠ some c) : (trimEnd s).head? ≠ some c := by
  obtain ⟨rest, hrest⟩ : trimEnd s <+: s := List.rdropWhile_prefix _ _
  intro hhead
  rw [← hrest, head?_append, hhead] at h
  exact h rfl

theorem trim_of_head (h : s.head? = some c) (hc : isWhitespace c = false) : trim s = trimEnd s := by
  obtain ⟨rest, rfl⟩ := head?_eq_some_iff.mp h
  rw [trim, dropWhile_cons_of_neg (by simp [hc])]

theorem trimEnd_of_trim (h : trim s = s) : trimEnd s = s := by
  have hdrop : s.dropWhile isWhitespace = s := by
    apply (dropWhile_suffix _).eq_of_length_le
    have hlen := (List.rdropWhile_prefix isWhitespace (s.dropWhile isWhitespace)).length_le
    rwa [← trimEnd, ← trim, h] at hlen
  rwa [trim, hdrop] at h

theorem getLast?_ne_of_trimEnd (h : trimEnd s = s) (hc : isWhitespace c) :
    s.getLast? ≠ some c := by
  intro hlast
  obtain ⟨before, rfl⟩ := getLast?_eq_some_iff.mp hlast
  have hne : before ++ [c] ≠ [] := by simp
  exact rdropWhile_eq_self_iff.mp h hne (by simpa using hc)

theorem trimEnd_append_of_ne {t : Text} (h : trimEnd t = t) (hne : t ≠ []) :
    trimEnd (s ++ t) = s ++ t := by
  rw [trimEnd_append, h, if_neg hne]

theorem trim_append_of_whitespace (s : Text) {t : Text} (h : ∀ c ∈ t, isWhitespace c) :
    trim (s ++ t) = trim s := by
  rw [trim, trim, dropWhile_append]
  split
  · next hs =>
    rw [isEmpty_iff.mp hs, dropWhile_eq_nil_iff.mpr h]
  · rw [trimEnd_append, if_pos (trimEnd_eq_nil_iff.mpr h)]

theorem trim_concat (h : isWhitespace c) : trim (s ++ [c]) = trim s :=
  trim_append_of_whitespace s fun _ hd => mem_singleton.mp hd ▸ h

theorem trim_prefix_trim_append (s t : Text) : trim s <+: trim (s ++ t) := by
  rw [trim, trim, dropWhile_append]
  split
  · next hs =>
    rw [isEmpty_iff.mp hs]
    exact List.nil_prefix
  · rw [trimEnd_append]
    split
    · exact prefix_rfl
    · exact (List.rdropWhile_prefix _ _).trans (prefix_append _ _)

theorem splitOnce_eq_some {delimiter before after : Text}
    (h : splitOnce delimiter s = some (before, after)) : s = before ++ delimiter ++ after := by
  induction s generalizing before after with
  | nil =>
    simp only [splitOnce] at h
    split at h
    · next hd =>
      simp only [Option.some.injEq, Prod.mk.injEq] at h
      simp [← h.1, ← h.2, hd]
    · exact absurd h (by simp)
  | cons c s ih =>
    simp only [splitOnce] at h
    split at h
    · next hp =>
      simp only [Option.some.injEq, Prod.mk.injEq] at h
      obtain ⟨rest, hrest⟩ := List.isPrefixOf_iff_prefix.mp hp
      rw [← h.1, ← h.2, ← hrest]
      simp
    · simp only [Option.map_eq_some_iff, Prod.exists, Prod.mk.injEq] at h
      obtain ⟨b, a, hs, rfl, rfl⟩ := h
      rw [ih hs]
      simp

theorem splitOnce_singleton_eq_some_iff {before after : Text} :
    splitOnce [c] s = some (before, after) ↔ s = before ++ c :: after ∧ c ∉ before := by
  induction s generalizing before with
  | nil => simp [splitOnce]
  | cons d s ih =>
    rw [splitOnce]
    by_cases hd : d = c
    · subst hd
      cases before with
      | nil => simp [List.isPrefixOf, eq_comm]
      | cons e before =>
        simp only [List.isPrefixOf, BEq.rfl, Bool.and_self, if_true, Option.some.injEq,
          Prod.mk.injEq, reduceCtorEq, false_and, false_iff, not_and, not_not, cons_append,
          List.cons.injEq]
        exact fun h => h.1 ▸ mem_cons_self
    · rw [if_neg (by simp [List.isPrefixOf, Ne.symm hd])]
      cases before with
      | nil => simp [hd]
      | cons e before =>
        simp only [Option.map_eq_some_iff, Prod.exists, Prod.mk.injEq, List.cons.injEq,
          cons_append, mem_cons, not_or]
        constructor
        · rintro ⟨b, a, h, ⟨rfl, rfl⟩, rfl⟩
          have ⟨hs, hb⟩ := ih.mp h
          exact ⟨⟨rfl, hs⟩, Ne.symm hd, hb⟩
        · rintro ⟨⟨rfl, hs⟩, -, hb⟩
          exact ⟨before, after, ih.mpr ⟨hs, hb⟩, ⟨rfl, rfl⟩, rfl⟩

theorem rsplitOnce_eq_some_iff {before after : Text} :
    rsplitOnce c s = some (before, after) ↔ s = before ++ c :: after ∧ c ∉ after := by
  rw [rsplitOnce, Option.map_eq_some_iff]
  constructor
  · rintro ⟨⟨a, b⟩, h, heq⟩
    obtain ⟨hs, ha⟩ := splitOnce_singleton_eq_some_iff.mp h
    simp only [Prod.mk.injEq] at heq
    rw [← heq.1, ← heq.2, mem_reverse]
    exact ⟨by rw [← reverse_reverse s, hs]; simp, ha⟩
  · rintro ⟨rfl, h⟩
    refine ⟨(after.reverse, before.reverse), splitOnce_singleton_eq_some_iff.mpr ?_, by simp⟩
    simp [h]

theorem trim_eq_self (h : ∀ c ∈ s, isWhitespace c = false) : trim s = s := by
  have hdrop : s.dropWhile isWhitespace = s := by
    rw [dropWhile_eq_self_iff]
    intro hpos
    simp [h _ (getElem_mem hpos)]
  rw [trim, hdrop, trimEnd, rdropWhile_eq_self_iff]
  intro hne
  simp [h _ (getLast_mem hne)]

end Codex.Lib.Text

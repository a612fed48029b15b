import Mathlib.Data.List.Infix
import Mathlib.Data.Nat.Find

/-! Where a delimiter first occurs, and how much of the end of a text may still become one. -/

namespace Codex.Lib.Delimiter
open List

variable {α : Type} [DecidableEq α] {needle s t : List α}

def find (needle : List α) : List α → Option Nat
  | [] => if needle = [] then some 0 else none
  | a :: s => if needle <+: a :: s then some 0 else (find needle s).map (· + 1)

/-- What stands before and after the first occurrence. -/
def cut (needle : List α) : List α → Option (List α × List α)
  | [] => if needle = [] then some ([], []) else none
  | a :: s =>
    if needle <+: a :: s then some ([], (a :: s).drop needle.length)
    else (cut needle s).map fun parts => (a :: parts.1, parts.2)

theorem eq_of_cut {before after : List α} (h : cut needle s = some (before, after)) :
    s = before ++ needle ++ after := by
  induction s generalizing before with
  | nil =>
    rw [cut] at h
    split at h <;> simp_all
  | cons a s ih =>
    rw [cut] at h
    split at h
    · next hprefix =>
      obtain ⟨rfl, rfl⟩ := Prod.mk.inj (Option.some.inj h)
      rw [nil_append]
      exact prefix_iff_eq_append.mp hprefix |>.symm
    · obtain ⟨parts, hparts, heq⟩ := Option.map_eq_some_iff.mp h
      obtain ⟨rfl, rfl⟩ := Prod.mk.inj heq
      rw [cons_append, cons_append, ← ih hparts]

theorem cut_eq_map_find (needle s : List α) :
    cut needle s = (find needle s).map fun i => (s.take i, s.drop (i + needle.length)) := by
  induction s with
  | nil =>
    rw [cut, find]
    split <;> simp
  | cons a s ih =>
    rw [cut, find]
    split
    · simp
    · rw [ih, Option.map_map, Option.map_map]
      congr 1
      funext i
      simp [Nat.add_right_comm]

def overlap (s needle : List α) : Nat :=
  Nat.findGreatest (fun k => needle.take k <:+ s) (min s.length (needle.length - 1))

theorem find_eq_none_iff : find needle s = none ↔ ∀ j, ¬ needle <+: s.drop j := by
  induction s with
  | nil => simp [find]
  | cons a s ih =>
    rw [find]
    split
    · next h =>
      simp only [reduceCtorEq, false_iff, not_forall, not_not]
      exact ⟨0, h⟩
    · next h =>
      rw [Option.map_eq_none_iff, ih]
      constructor
      · intro hnone j
        cases j with
        | zero => exact h
        | succ j => exact hnone j
      · exact fun hnone j => hnone (j + 1)

theorem find_eq_some_iff {i : Nat} :
    find needle s = some i ↔ needle <+: s.drop i ∧ ∀ j < i, ¬ needle <+: s.drop j := by
  induction s generalizing i with
  | nil =>
    rw [find]
    cases i with
    | zero => simp
    | succ i =>
      by_cases h : needle = []
      · simp only [h, if_true, Option.some.injEq, drop_nil, prefix_rfl, true_and]
        exact ⟨fun hi => (nomatch hi), fun hi => absurd trivial (hi 0 (Nat.succ_pos i))⟩
      · simp [h]
  | cons a s ih =>
    rw [find]
    split
    · next h =>
      rw [Option.some.injEq]
      constructor
      · rintro rfl
        exact ⟨h, fun j hj => absurd hj (Nat.not_lt_zero j)⟩
      · rintro ⟨_, hfirst⟩
        by_contra hi
        exact hfirst 0 (Nat.pos_of_ne_zero fun hzero => hi hzero.symm) h
    · next h =>
      rw [Option.map_eq_some_iff]
      constructor
      · rintro ⟨i, hi, rfl⟩
        obtain ⟨hat, hfirst⟩ := ih.mp hi
        refine ⟨hat, fun j hj => ?_⟩
        cases j with
        | zero => exact h
        | succ j => exact hfirst j (by omega)
      · rintro ⟨hat, hfirst⟩
        cases i with
        | zero => exact absurd hat h
        | succ i => exact ⟨i, ih.mpr ⟨hat, fun j hj => hfirst (j + 1) (by omega)⟩, rfl⟩

theorem length_le_of_find {i : Nat} (h : find needle s = some i) (hne : needle ≠ []) :
    i + needle.length ≤ s.length := by
  have hlength := (find_eq_some_iff.mp h).1.length_le
  have hpos := length_pos_iff.mpr hne
  rw [length_drop] at hlength
  omega

theorem find_append {i : Nat} (h : find needle s = some i) (hne : needle ≠ []) :
    find needle (s ++ t) = some i := by
  have hbound := length_le_of_find h hne
  obtain ⟨hat, hfirst⟩ := find_eq_some_iff.mp h
  refine find_eq_some_iff.mpr ⟨?_, fun j hj hprefix => hfirst j hj ?_⟩
  · rw [drop_append_of_le_length (by omega)]
    exact hat.trans (prefix_append _ _)
  · rw [drop_append_of_le_length (by omega)] at hprefix
    refine prefix_of_prefix_length_le hprefix (prefix_append _ t) ?_
    rw [length_drop]
    omega

theorem find_eq_map_drop {n : Nat} (h : ∀ j < n, ¬ needle <+: s.drop j) (hn : n ≤ s.length) :
    find needle s = (find needle (s.drop n)).map (· + n) := by
  induction n generalizing s with
  | zero => simp
  | succ n ih =>
    cases s with
    | nil => simp at hn
    | cons a s =>
      have hrest := ih (s := s) (fun j hj => h (j + 1) (by omega)) (by simpa using hn)
      have hhead : ¬ needle <+: a :: s := h 0 (Nat.succ_pos n)
      rw [find, if_neg hhead, hrest, drop_succ_cons, Option.map_map]
      rfl

theorem overlap_le : overlap s needle ≤ s.length := (Nat.findGreatest_le _).trans (min_le_left _ _)

theorem not_suffix_of_overlap_lt {k : Nat} (h : overlap s needle < k) (hk : k < needle.length) :
    ¬ needle.take k <:+ s := by
  intro hsuffix
  have hlength := hsuffix.length_le
  rw [length_take, min_eq_left hk.le] at hlength
  exact Nat.findGreatest_is_greatest h (le_min hlength (by omega)) hsuffix

theorem not_prefix_of_lt (h : find needle s = none) {j : Nat}
    (hj : j < s.length - overlap s needle) : ¬ needle <+: (s ++ t).drop j := by
  intro hprefix
  rw [drop_append_of_le_length (by omega)] at hprefix
  by_cases hlength : needle.length ≤ (s.drop j).length
  · exact find_eq_none_iff.mp h j (prefix_of_prefix_length_le hprefix (prefix_append _ t) hlength)
  · have hshort : s.drop j <+: needle :=
      prefix_of_prefix_length_le (prefix_append _ t) hprefix (by omega)
    rw [length_drop] at hlength
    have hlong : overlap s needle < s.length - j := by omega
    have heq : s.drop j = needle.take (s.length - j) := by
      rw [prefix_iff_eq_take.mp hshort, length_drop]
    exact not_suffix_of_overlap_lt hlong (by omega) (heq ▸ drop_suffix j s)

theorem find_append_of_none (h : find needle s = none) :
    find needle (s ++ t) =
      (find needle (s.drop (s.length - overlap s needle) ++ t)).map
        (· + (s.length - overlap s needle)) := by
  rw [find_eq_map_drop (fun j hj => not_prefix_of_lt h hj) (by rw [length_append]; omega),
    drop_append_of_le_length (by omega)]

theorem take_overlap_suffix : needle.take (overlap s needle) <:+ s := by
  by_cases h : overlap s needle = 0
  · rw [h, take_zero]
    exact nil_suffix
  · exact Nat.findGreatest_of_ne_zero rfl h

theorem overlap_le_pred : overlap s needle ≤ needle.length - 1 :=
  (Nat.findGreatest_le _).trans (min_le_right _ _)

omit [DecidableEq α] in
theorem take_sub_suffix {m : Nat} (h : needle.take m <:+ s ++ t) (hm : m ≤ needle.length)
    (ht : t.length ≤ m) : needle.take (m - t.length) <:+ s := by
  obtain ⟨x, hx⟩ := h
  have hlength := congrArg List.length hx
  rw [length_append, length_append, length_take, min_eq_left hm] at hlength
  have htake := congrArg (List.take s.length) hx
  rw [take_append, take_of_length_le (by omega), take_left, take_take] at htake
  refine ⟨x, ?_⟩
  rw [← htake]
  congr 2
  omega

theorem overlap_append (s t needle : List α) :
    overlap (s.drop (s.length - overlap s needle) ++ t) needle = overlap (s ++ t) needle := by
  have hle : overlap s needle ≤ s.length := overlap_le
  have hpred : overlap (s ++ t) needle ≤ needle.length - 1 := overlap_le_pred
  have hkept : s.drop (s.length - overlap s needle) ++ t <:+ s ++ t := by
    rw [← drop_append_of_le_length (by omega)]
    exact drop_suffix _ _
  have hlength : (s.drop (s.length - overlap s needle) ++ t).length =
      overlap s needle + t.length := by
    rw [length_append, length_drop]
    omega
  have hshort : overlap (s ++ t) needle ≤ overlap s needle + t.length := by
    by_contra hlong
    have hlonger : overlap s needle < overlap (s ++ t) needle - t.length := by omega
    exact not_suffix_of_overlap_lt hlonger (by omega)
      (take_sub_suffix take_overlap_suffix (by omega) (by omega))
  refine Nat.findGreatest_eq_iff.mpr ⟨?_, fun _ => ?_, fun k hk hmax hsuffix => ?_⟩
  · rw [hlength]
    exact le_min hshort hpred
  · refine suffix_of_suffix_length_le take_overlap_suffix hkept ?_
    rw [length_take, hlength]
    omega
  · exact not_suffix_of_overlap_lt hk (by omega) (hsuffix.trans hkept)

theorem length_append_sub_overlap (s t needle : List α) :
    (s ++ t).length - overlap (s ++ t) needle =
      (s.drop (s.length - overlap s needle) ++ t).length -
          overlap (s.drop (s.length - overlap s needle) ++ t) needle +
        (s.length - overlap s needle) := by
  have hle : overlap s needle ≤ s.length := overlap_le
  have hkept : overlap (s ++ t) needle ≤
      (s.drop (s.length - overlap s needle) ++ t).length := by
    rw [← overlap_append s t needle]
    exact overlap_le
  rw [overlap_append, length_append, length_append, length_drop] at *
  omega

omit [DecidableEq α] in
theorem take_add_append {n : Nat} (hn : n ≤ s.length) (t : List α) (k : Nat) :
    (s ++ t).take (k + n) = s.take n ++ (s.drop n ++ t).take k := by
  rw [Nat.add_comm, take_add, take_append_of_le_length hn, drop_append_of_le_length hn]

omit [DecidableEq α] in
theorem drop_add_append {n : Nat} (hn : n ≤ s.length) (t : List α) (k : Nat) :
    (s ++ t).drop (k + n) = (s.drop n ++ t).drop k := by
  rw [Nat.add_comm, ← drop_drop, drop_append_of_le_length hn]

end Codex.Lib.Delimiter

import Mathlib.Data.Finset.Max
import Mathlib.Order.Interval.Finset.Nat

/-! Everything below the first missing number has arrived, and only the arrival of that number
itself moves it. -/

namespace Codex.Lib
open List

/-- Among one more number than have arrived, one is missing. -/
def firstMissing (seen : Finset ℕ) : ℕ :=
  ((List.range (seen.card + 1)).find? fun n => n ∉ seen).getD 0

variable {seen : Finset ℕ}

theorem exists_find_eq_some (seen : Finset ℕ) :
    ∃ n, (List.range (seen.card + 1)).find? (fun n => n ∉ seen) = some n := by
  obtain ⟨n, hn, hnot⟩ := Finset.exists_mem_notMem_of_card_lt_card
    (show seen.card < (Finset.range (seen.card + 1)).card by simp)
  exact Option.isSome_iff_exists.mp (find?_isSome.mpr ⟨n, by simpa using hn, by simpa using hnot⟩)

theorem firstMissing_spec (seen : Finset ℕ) :
    firstMissing seen ∉ seen ∧ ∀ n < firstMissing seen, n ∈ seen := by
  obtain ⟨first, hfind⟩ := exists_find_eq_some seen
  have hfirst : firstMissing seen = first := by rw [firstMissing, hfind, Option.getD_some]
  obtain ⟨hmissing, _, hbelow⟩ := find?_range_eq_some.mp hfind
  rw [hfirst]
  constructor
  · simpa using hmissing
  · intro n hn
    simpa using hbelow n hn

theorem firstMissing_notMem (seen : Finset ℕ) : firstMissing seen ∉ seen :=
  (firstMissing_spec seen).1

theorem mem_of_lt_firstMissing {n : ℕ} (h : n < firstMissing seen) : n ∈ seen :=
  (firstMissing_spec seen).2 n h

theorem firstMissing_eq {n : ℕ} (hn : n ∉ seen) (hlt : ∀ m < n, m ∈ seen) :
    firstMissing seen = n := by
  apply le_antisymm
  · by_contra h
    exact hn (mem_of_lt_firstMissing (not_le.mp h))
  · by_contra h
    exact firstMissing_notMem seen (hlt _ (not_le.mp h))

theorem le_firstMissing {n : ℕ} (hlt : ∀ m < n, m ∈ seen) : n ≤ firstMissing seen := by
  by_contra h
  exact firstMissing_notMem seen (hlt _ (not_le.mp h))

theorem firstMissing_empty : firstMissing ∅ = 0 :=
  firstMissing_eq (Finset.notMem_empty 0) fun m hm => absurd hm (Nat.not_lt_zero m)

theorem firstMissing_insert_of_ne {n : ℕ} (h : n ≠ firstMissing seen) :
    firstMissing (insert n seen) = firstMissing seen := by
  apply firstMissing_eq
  · rw [Finset.mem_insert, not_or]
    exact ⟨h.symm, firstMissing_notMem seen⟩
  · intro m hm
    exact Finset.mem_insert_of_mem (mem_of_lt_firstMissing hm)

theorem firstMissing_le_insert (n : ℕ) : firstMissing seen ≤ firstMissing (insert n seen) :=
  le_firstMissing fun _ hm => Finset.mem_insert_of_mem (mem_of_lt_firstMissing hm)

theorem lt_firstMissing_insert_self :
    firstMissing seen < firstMissing (insert (firstMissing seen) seen) := by
  apply Nat.lt_of_succ_le
  apply le_firstMissing
  intro m hm
  rcases Nat.lt_succ_iff_lt_or_eq.mp hm with hlt | rfl
  · exact Finset.mem_insert_of_mem (mem_of_lt_firstMissing hlt)
  · exact Finset.mem_insert_self _ _

theorem firstMissing_eq_of_mem_iff {n : ℕ} (h : ∀ m, m ∈ seen ↔ m < n) : firstMissing seen = n := by
  apply firstMissing_eq
  · rw [h]
    exact lt_irrefl n
  · intro m hm
    exact (h m).mpr hm

/-- The first number from `expected` on that is not in a sorted list of numbers. -/
def firstGap (expected : ℕ) : List ℕ → ℕ
  | [] => expected
  | n :: rest => if n ≠ expected then expected else firstGap (expected + 1) rest

theorem firstGap_spec {expected : ℕ} {numbers : List ℕ} (hsorted : numbers.Pairwise (· < ·))
    (hfrom : ∀ n ∈ numbers, expected ≤ n) :
    expected ≤ firstGap expected numbers ∧ firstGap expected numbers ∉ numbers ∧
      ∀ n, expected ≤ n → n < firstGap expected numbers → n ∈ numbers := by
  induction numbers generalizing expected with
  | nil => exact ⟨le_rfl, not_mem_nil, fun n hle hlt => absurd hle (not_le.mpr hlt)⟩
  | cons first numbers ih =>
    obtain ⟨hfirst, hrest⟩ := pairwise_cons.mp hsorted
    rw [firstGap]
    split
    · next hne =>
      have hlt : expected < first := lt_of_le_of_ne (hfrom first mem_cons_self) (Ne.symm hne)
      refine ⟨le_rfl, fun hmem => ?_, fun n hle hlt' => absurd hle (not_le.mpr hlt')⟩
      rcases mem_cons.mp hmem with heq | hmem
      · exact hne heq.symm
      · exact absurd (hfirst expected hmem) (not_lt.mpr hlt.le)
    · next heq =>
      rw [not_not] at heq
      subst heq
      obtain ⟨hle, hnot, hbelow⟩ := @ih (first + 1) hrest fun n hn => hfirst n hn
      refine ⟨(Nat.le_succ first).trans hle, fun hmem => ?_, fun n hfrom hlt => ?_⟩
      · rcases mem_cons.mp hmem with heq | hmem
        · omega
        · exact hnot hmem
      · rcases Nat.eq_or_lt_of_le hfrom with rfl | hfrom
        · exact mem_cons_self
        · exact mem_cons_of_mem first (hbelow n hfrom hlt)

end Codex.Lib

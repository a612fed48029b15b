import Mathlib.Data.List.Basic

/-! Membership facts about `List.splitOn`. -/

namespace Codex.Lib.Split
open List

variable {α : Type} [DecidableEq α]

theorem splitOn_cons_self (sep : α) (q : List α) :
    (sep :: q).splitOn sep = [] :: q.splitOn sep :=
  splitOn_append_cons_self_of_not_mem not_mem_nil q

theorem splitOn_flatMap_append (sep : α) (parts : List (List α)) (h : ∀ s ∈ parts, sep ∉ s)
    (q : List α) :
    (parts.flatMap (· ++ [sep]) ++ q).splitOn sep = parts ++ q.splitOn sep := by
  induction parts with
  | nil => rfl
  | cons s parts ih =>
    obtain ⟨hs, hrest⟩ := forall_mem_cons.mp h
    rw [flatMap_cons, append_assoc, append_assoc, singleton_append,
      splitOn_append_cons_self_of_not_mem hs, ih hrest, cons_append]

theorem exists_eq_flatMap_append (sep : α) (q : List α) :
    ∃ parts last, q.splitOn sep = parts ++ [last] ∧ (∀ s ∈ parts ++ [last], sep ∉ s) ∧
      q = parts.flatMap (· ++ [sep]) ++ last := by
  induction hlength : q.length using Nat.strongRecOn generalizing q with
  | _ n ih =>
    by_cases hmem : sep ∈ q
    · obtain ⟨first, rest, rfl, hfirst⟩ := eq_append_cons_of_mem hmem
      rw [length_append, length_cons] at hlength
      obtain ⟨parts, last, hsplit, hparts, hrest⟩ := ih rest.length (by omega) rest rfl
      refine ⟨first :: parts, last, ?_, forall_mem_cons.mpr ⟨hfirst, hparts⟩, ?_⟩
      · rw [splitOn_append_cons_self_of_not_mem hfirst, hsplit, cons_append]
      · rw [flatMap_cons, append_assoc, append_assoc, ← hrest, singleton_append]
    · exact ⟨[], q, splitOn_eq_singleton hmem, by simpa using hmem, rfl⟩

theorem sep_not_mem_of_mem_splitOn (sep : α) (q s : List α) (hs : s ∈ q.splitOn sep) : sep ∉ s := by
  obtain ⟨parts, last, hsplit, hparts, -⟩ := exists_eq_flatMap_append sep q
  exact hparts s (hsplit ▸ hs)

/-- A function that keeps the separators apart maps the parts. -/
theorem splitOn_map {β : Type} [DecidableEq β] {f : List α → List β} {sep : α} {sep' : β}
    (hf : ∀ a b, f (a ++ sep :: b) = f a ++ sep' :: f b) (q : List α)
    (hq : ∀ s ∈ q.splitOn sep, sep' ∉ f s) : (f q).splitOn sep' = (q.splitOn sep).map f := by
  obtain ⟨parts, last, hsplit, -, rfl⟩ := exists_eq_flatMap_append sep q
  rw [hsplit] at hq ⊢
  clear hsplit
  induction parts with
  | nil => exact splitOn_eq_singleton (hq last mem_cons_self)
  | cons s parts ih =>
    obtain ⟨hs, hrest⟩ := forall_mem_cons.mp hq
    rw [flatMap_cons, append_assoc, append_assoc, singleton_append, hf,
      splitOn_append_cons_self_of_not_mem hs, ih hrest, cons_append, map_cons]

theorem exists_mem_splitOn (sep x : α) (q : List α) (hx : x ∈ q) (hne : x ≠ sep) :
    ∃ s ∈ q.splitOn sep, x ∈ s := by
  obtain ⟨parts, last, hsplit, -, hq⟩ := exists_eq_flatMap_append sep q
  rw [hq] at hx
  rw [hsplit]
  simpa [hne, or_and_right, exists_or] using hx

def splitInclusive (sep : α) : List α → List (List α)
  | [] => []
  | x :: q =>
    if x = sep then [x] :: splitInclusive sep q
    else
      match splitInclusive sep q with
      | [] => [[x]]
      | piece :: pieces => (x :: piece) :: pieces

theorem ne_nil_of_mem_splitInclusive {sep : α} {q piece : List α}
    (h : piece ∈ splitInclusive sep q) : piece ≠ [] := by
  induction q generalizing piece with
  | nil => exact absurd h not_mem_nil
  | cons x q ih =>
    rw [splitInclusive] at h
    split at h
    · rcases mem_cons.mp h with rfl | h
      · exact cons_ne_nil x []
      · exact ih h
    · split at h
      · rw [mem_singleton.mp h]
        exact cons_ne_nil x []
      · next first rest hq =>
        rw [hq] at ih
        rcases mem_cons.mp h with rfl | h
        · exact cons_ne_nil x first
        · exact ih (mem_cons_of_mem _ h)

theorem splitInclusive_append_cons {sep : α} {piece : List α} (h : sep ∉ piece) (q : List α) :
    splitInclusive sep (piece ++ sep :: q) = (piece ++ [sep]) :: splitInclusive sep q := by
  induction piece with
  | nil => simp [splitInclusive]
  | cons x piece ih =>
    rw [mem_cons, not_or] at h
    rw [cons_append, splitInclusive, if_neg (Ne.symm h.1), ih h.2]
    rfl

theorem splitInclusive_of_notMem {sep : α} {q : List α} (h : sep ∉ q) (hne : q ≠ []) :
    splitInclusive sep q = [q] := by
  induction q with
  | nil => exact absurd rfl hne
  | cons x q ih =>
    rw [mem_cons, not_or] at h
    rw [splitInclusive, if_neg (Ne.symm h.1)]
    by_cases hq : q = []
    · rw [hq]
      rfl
    · rw [ih h.2 hq]

end Codex.Lib.Split

import Mathlib.Data.List.Basic

/-! A first pass over a list records where something is to be inserted or removed, and a second one
does it. Both come to an edit of each element for itself. -/

namespace Codex.Lib.IndexedEdit
open List Option

variable {α : Type}

def insertions (f : α → Option α) (k : Nat) : List α → List (Nat × α)
  | [] => []
  | x :: xs => ((f x).map fun y => (k, y)).toList ++ insertions f (k + 1) xs

def insertAll (items : List α) (inserts : List (Nat × α)) : List α :=
  inserts.reverse.foldl (fun items e => items.insertIdx (e.1 + 1) e.2) items

def retainExcept (positions : List Nat) (k : Nat) : List α → List α
  | [] => []
  | x :: xs =>
    if positions.head? = some k then retainExcept positions.tail (k + 1) xs
    else x :: retainExcept positions (k + 1) xs

theorem insertIdx_append_length (xs ys : List α) (x : α) :
    (xs ++ ys).insertIdx xs.length x = xs ++ x :: ys := by
  induction xs with
  | nil => rfl
  | cons a xs ih => rw [cons_append, length_cons, insertIdx_succ_cons, ih,
      cons_append]

theorem insertAll_append (f : α → Option α) (before items : List α) :
    insertAll (before ++ items) (insertions f before.length items) =
      before ++ items.flatMap fun x => x :: (f x).toList := by
  induction items generalizing before with
  | nil => simp [insertAll, insertions]
  | cons x items ih =>
    have hrest := ih (before ++ [x])
    rw [length_append, length_singleton, append_assoc, append_assoc] at hrest
    simp only [cons_append, nil_append] at hrest
    rw [insertions, flatMap_cons]
    cases hf : f x with
    | none =>
      simp only [map_none, toList_none, nil_append, cons_append]
      exact hrest
    | some y =>
      rw [insertAll] at hrest ⊢
      simp only [map_some, toList_some, cons_append, nil_append,
        reverse_cons, foldl_append, foldl_cons, foldl_nil, hrest]
      have hinsert := insertIdx_append_length (before ++ [x])
        (items.flatMap fun x => x :: (f x).toList) y
      rw [length_append, length_singleton, append_assoc, append_assoc] at hinsert
      exact hinsert

theorem insertAll_insertions (f : α → Option α) (items : List α) :
    insertAll items (insertions f 0 items) = items.flatMap fun x => x :: (f x).toList :=
  insertAll_append f [] items

theorem retainExcept_findIdxs (p : α → Bool) (k : Nat) (items : List α) :
    retainExcept (items.findIdxs p k) k items = items.filter fun x => !p x := by
  induction items generalizing k with
  | nil => rfl
  | cons x items ih =>
    rw [retainExcept, findIdxs_cons]
    by_cases hp : p x
    · rw [if_pos hp, head?_cons, if_pos rfl, tail_cons, ih, filter_cons_of_neg]
      simp [hp]
    · have hhead : (items.findIdxs p (k + 1)).head? ≠ some k := by
        intro h
        have hle := ge_of_mem_findIdxs _ (mem_of_mem_head? h)
        omega
      rw [if_neg hp, if_neg hhead, ih, filter_cons_of_pos]
      simp [hp]

end Codex.Lib.IndexedEdit

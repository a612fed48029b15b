import Mathlib.Algebra.Order.Floor.Div
import Mathlib.Data.List.Basic

/-! A reader for which reading a text is reading its parts in turn reads it the same however it is
cut. -/

namespace Codex.Lib.Chunked
open List

theorem foldl_eq_flatten {σ α : Type} {push : σ → List α → σ}
    (happend : ∀ s a b, push s (a ++ b) = push (push s a) b) (chunks : List (List α)) {s : σ}
    (hnil : push s [] = s) : chunks.foldl push s = push s chunks.flatten := by
  induction chunks generalizing s with
  | nil => exact hnil.symm
  | cons chunk chunks ih =>
    have hafter : push (push s chunk) [] = push s chunk := by rw [← happend, append_nil]
    rw [foldl_cons, ih hafter, flatten_cons, happend]

section
variable {α : Type} {size i : Nat}

def chunks (size : Nat) (xs : List α) : List (List α) :=
  (List.range (xs.length ⌈/⌉ size)).map fun i => (xs.drop (i * size)).take size

theorem length_chunks (size : Nat) (xs : List α) :
    (chunks size xs).length = xs.length ⌈/⌉ size := by
  rw [chunks, length_map, length_range]

theorem flatten_chunks_range (size n : Nat) (xs : List α) :
    ((List.range n).map fun i => (xs.drop (i * size)).take size).flatten = xs.take (n * size) := by
  induction n with
  | zero => simp
  | succ n ih =>
    rw [range_succ, map_append, flatten_append, ih, map_singleton,
      flatten_singleton, Nat.succ_mul, take_add]

theorem flatten_chunks (hsize : 0 < size) (xs : List α) : (chunks size xs).flatten = xs := by
  have hle : xs.length ≤ size * (xs.length ⌈/⌉ size) := le_smul_ceilDiv hsize
  rw [chunks, flatten_chunks_range]
  exact take_of_length_le (by rwa [Nat.mul_comm])

theorem length_chunk (xs : List α) :
    ((xs.drop (i * size)).take size).length = min size (xs.length - i * size) := by
  rw [length_take, length_drop]

theorem zipIdx_chunks (size : Nat) (xs : List α) :
    (chunks size xs).zipIdx =
      (List.range (xs.length ⌈/⌉ size)).map fun i => ((xs.drop (i * size)).take size, i) := by
  refine ext_getElem ?_ fun i hleft hright => ?_
  · rw [length_zipIdx, length_chunks, length_map, length_range]
  · simp [chunks]

theorem mul_lt_of_lt_ceilDiv (hsize : 0 < size) {n : Nat} (h : i < n ⌈/⌉ size) : i * size < n := by
  by_contra hge
  have hle : n ⌈/⌉ size ≤ i := (ceilDiv_le_iff_le_mul hsize).mpr (by
    rw [Nat.mul_comm]
    exact Nat.not_lt.mp hge)
  omega

end

end Codex.Lib.Chunked

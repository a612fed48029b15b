import Mathlib.Data.Finset.Union

/-! Finite maps, to which the order in which entries were put in is nothing. -/

namespace Codex.Lib

structure FinMap (κ α : Type) where
  keys : Finset κ
  vals : {k // k ∈ keys} → α

namespace FinMap

variable {κ α : Type} [DecidableEq κ]

def get? (m : FinMap κ α) (k : κ) : Option α :=
  if h : k ∈ m.keys then some (m.vals ⟨k, h⟩) else none

def empty : FinMap κ α := ⟨∅, fun k => absurd k.2 (Finset.notMem_empty _)⟩

def ofFun (keys : Finset κ) (f : κ → Option α) : FinMap κ α where
  keys := keys.filter fun k => (f k).isSome
  vals k := (f k).get (Finset.mem_filter.mp k.2).2

@[simp] theorem get?_empty (k : κ) : (empty : FinMap κ α).get? k = none :=
  dif_neg (Finset.notMem_empty k)

theorem get?_ofFun (keys : Finset κ) (f : κ → Option α) (k : κ) :
    (ofFun keys f).get? k = if k ∈ keys then f k else none := by
  rw [get?]
  by_cases hk : k ∈ keys
  · cases hf : f k with
    | none =>
      have hnot : k ∉ (ofFun keys f).keys := by simp [ofFun, hf]
      rw [dif_neg hnot, if_pos hk]
    | some v =>
      have hin : k ∈ (ofFun keys f).keys := by simp [ofFun, hk, hf]
      rw [dif_pos hin, if_pos hk]
      simp [ofFun, hf]
  · have hnot : k ∉ (ofFun keys f).keys := by simp [ofFun, hk]
    rw [dif_neg hnot, if_neg hk]

theorem get?_ofFun_union {m n : FinMap κ α} {f : κ → Option α} {k : κ}
    (h : m.get? k = none → n.get? k = none → f k = none) :
    (ofFun (m.keys ∪ n.keys) f).get? k = f k := by
  rw [get?_ofFun]
  split
  case isTrue => rfl
  case isFalse hk =>
    rw [Finset.mem_union, not_or] at hk
    exact (h (dif_neg hk.1) (dif_neg hk.2)).symm

theorem get?_eq_none_iff {m : FinMap κ α} {k : κ} : m.get? k = none ↔ k ∉ m.keys := by
  rw [get?]
  split <;> simp [*]

theorem isSome_get? {m : FinMap κ α} {k : κ} : (m.get? k).isSome ↔ k ∈ m.keys := by
  rw [get?]
  split <;> simp [*]

theorem get?_of_mem {m : FinMap κ α} {k : κ} (h : k ∈ m.keys) : m.get? k = some (m.vals ⟨k, h⟩) :=
  dif_pos h

theorem ext_get? {m n : FinMap κ α} (h : ∀ k, m.get? k = n.get? k) : m = n := by
  obtain ⟨keys, vals⟩ := m
  obtain ⟨keys', vals'⟩ := n
  have hkeys : keys = keys' := by
    ext k
    have hmem := congrArg Option.isSome (h k)
    rw [Bool.eq_iff_iff, isSome_get?, isSome_get?] at hmem
    exact hmem
  subst hkeys
  congr 1
  funext k
  have hk := h k
  rw [get?_of_mem k.2, get?_of_mem k.2] at hk
  exact Option.some.inj hk

end FinMap

end Codex.Lib

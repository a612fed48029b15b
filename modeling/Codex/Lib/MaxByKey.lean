import Mathlib.Data.Prod.Lex
import Mathlib.Order.Basic

/-! `Iterator::max_by_key`: the last one among the elements whose key is greatest. -/

namespace Codex.Lib.MaxByKey

variable {α κ : Type} [LinearOrder κ] (key : α → κ)

def maxByKey : List α → Option α
  | [] => none
  | a :: rest =>
    match maxByKey rest with
    | none => some a
    | some m => if key a ≤ key m then some m else some a

theorem maxByKey_eq_none_iff (l : List α) : maxByKey key l = none ↔ l = [] := by
  cases l with
  | nil => simp [maxByKey]
  | cons a rest =>
    cases h : maxByKey key rest with
    | none => simp [maxByKey, h]
    | some m =>
      simp only [maxByKey, h, reduceCtorEq, iff_false]
      split <;> simp

theorem maxByKey_spec {l : List α} {m : α} (h : maxByKey key l = some m) :
    m ∈ l ∧ ∀ x ∈ l, key x ≤ key m := by
  induction l generalizing m with
  | nil => simp [maxByKey] at h
  | cons a rest ih =>
    cases hr : maxByKey key rest with
    | none =>
      have hnil := (maxByKey_eq_none_iff key rest).mp hr
      simp only [maxByKey, hr, Option.some.injEq] at h
      subst h hnil
      simp
    | some m' =>
      obtain ⟨hm, hmax⟩ := ih hr
      simp only [maxByKey, hr] at h
      by_cases hle : key a ≤ key m'
      · simp only [hle, if_true, Option.some.injEq] at h
        subst h
        refine ⟨List.mem_cons_of_mem a hm, fun x hx => ?_⟩
        rcases List.mem_cons.mp hx with hx | hx
        · exact hx ▸ hle
        · exact hmax x hx
      · simp only [hle, if_false, Option.some.injEq] at h
        subst h
        refine ⟨List.mem_cons_self, fun x hx => ?_⟩
        rcases List.mem_cons.mp hx with hx | hx
        · exact hx ▸ le_rfl
        · exact (hmax x hx).trans (le_of_lt (not_le.mp hle))

end Codex.Lib.MaxByKey

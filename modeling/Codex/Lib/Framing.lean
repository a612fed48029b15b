import Mathlib.Data.List.Infix

/-! Whatever part of a stream of frames has come in, it is the frames of some messages and the start
of the next one. -/

namespace Codex.Lib.Framing
open List

variable {α β : Type}

def Unfinished (frame : α → List β) (rest : List α) (tail : List β) : Prop :=
  match rest with
  | [] => tail = []
  | m :: _ => tail <+: frame m ∧ tail ≠ frame m

variable {frame : α → List β}

theorem unfinished_nil {rest : List α} (h : ∀ m ∈ rest, frame m ≠ []) :
    Unfinished frame rest [] := by
  cases rest with
  | nil => rfl
  | cons m rest =>
    have hm := h m mem_cons_self
    exact ⟨List.nil_prefix, hm.symm⟩

theorem Unfinished.length_lt {m : α} {rest : List α} {tail : List β}
    (h : Unfinished frame (m :: rest) tail) : tail.length < (frame m).length := by
  apply lt_of_le_of_ne h.1.length_le
  intro heq
  exact h.2 (h.1.eq_of_length heq)

theorem exists_unfinished {ms : List α} {xs : List β} (h : xs <+: ms.flatMap frame) :
    ∃ complete rest tail, ms = complete ++ rest ∧ xs = complete.flatMap frame ++ tail ∧
      Unfinished frame rest tail := by
  induction ms generalizing xs with
  | nil =>
    have hxs : xs = [] := prefix_nil.mp h
    exact ⟨[], [], [], rfl, hxs, rfl⟩
  | cons m ms ih =>
    rw [flatMap_cons] at h
    by_cases hlt : xs.length < (frame m).length
    · have hxs : xs <+: frame m := prefix_of_prefix_length_le h (prefix_append _ _) hlt.le
      refine ⟨[], m :: ms, xs, rfl, rfl, hxs, ?_⟩
      rintro rfl
      exact lt_irrefl _ hlt
    · obtain ⟨ys, rfl⟩ : frame m <+: xs :=
        prefix_of_prefix_length_le (prefix_append _ _) h (not_lt.mp hlt)
      have hys : ys <+: ms.flatMap frame := (prefix_append_right_inj _).mp h
      obtain ⟨complete, rest, tail, rfl, rfl, htail⟩ := ih hys
      refine ⟨m :: complete, rest, tail, rfl, ?_, htail⟩
      rw [flatMap_cons, append_assoc]

theorem Unfinished.eq_nil {rest : List α} {tail : List β} (h : Unfinished frame rest tail)
    (hall : tail = rest.flatMap frame) : rest = [] := by
  cases rest with
  | nil => rfl
  | cons m rest =>
    have hlt := h.length_lt
    rw [hall, flatMap_cons, length_append] at hlt
    omega

end Codex.Lib.Framing

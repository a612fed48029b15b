import Mathlib.Data.List.Infix

/-! A pattern is a list of symbols, of `any` for one symbol and of `many` for any number of them. -/

namespace Codex.Lib
open List

inductive Wildcard (α : Type) where
  | lit (a : α)
  | any
  | many
  deriving DecidableEq

namespace Wildcard

variable {α : Type}

def Matches : List (Wildcard α) → List α → Prop
  | [], w => w = []
  | lit a :: p, w => ∃ v, w = a :: v ∧ Matches p v
  | any :: p, w => ∃ a v, w = a :: v ∧ Matches p v
  | many :: p, w => ∃ u v, w = u ++ v ∧ Matches p v

theorem matches_append (p q : List (Wildcard α)) (w : List α) :
    Matches (p ++ q) w ↔ ∃ u v, w = u ++ v ∧ Matches p u ∧ Matches q v := by
  induction p generalizing w with
  | nil =>
    constructor
    · exact fun h => ⟨[], w, rfl, rfl, h⟩
    · rintro ⟨u, v, rfl, rfl, h⟩
      exact h
  | cons t p ih =>
    cases t with
    | lit a =>
      simp only [cons_append, Matches, ih]
      constructor
      · rintro ⟨_, rfl, u, v, rfl, hu, hv⟩
        exact ⟨a :: u, v, rfl, ⟨u, rfl, hu⟩, hv⟩
      · rintro ⟨_, v, rfl, ⟨u, rfl, hu⟩, hv⟩
        exact ⟨u ++ v, rfl, u, v, rfl, hu, hv⟩
    | any =>
      simp only [cons_append, Matches, ih]
      constructor
      · rintro ⟨a, _, rfl, u, v, rfl, hu, hv⟩
        exact ⟨a :: u, v, rfl, ⟨a, u, rfl, hu⟩, hv⟩
      · rintro ⟨_, v, rfl, ⟨a, u, rfl, hu⟩, hv⟩
        exact ⟨a, u ++ v, rfl, u, v, rfl, hu, hv⟩
    | many =>
      simp only [cons_append, Matches, ih]
      constructor
      · rintro ⟨s, _, rfl, u, v, rfl, hu, hv⟩
        exact ⟨s ++ u, v, by rw [append_assoc], ⟨s, u, rfl, hu⟩, hv⟩
      · rintro ⟨_, v, rfl, ⟨s, u, rfl, hu⟩, hv⟩
        exact ⟨s, u ++ v, by rw [append_assoc], u, v, rfl, hu, hv⟩

theorem matches_map_lit (v w : List α) : Matches (v.map lit) w ↔ w = v := by
  induction v generalizing w with
  | nil => exact Iff.rfl
  | cons a v ih =>
    simp only [map_cons, Matches, ih]
    constructor
    · rintro ⟨_, rfl, rfl⟩
      rfl
    · rintro rfl
      exact ⟨v, rfl, rfl⟩

theorem matches_any_many (w : List α) : Matches [any, many] w ↔ w ≠ [] := by
  cases w with
  | nil => simp [Matches]
  | cons a w => simp [Matches]

theorem ne_nil_of_matches {p : List (Wildcard α)} {w : List α} (h : Matches p w) {t : Wildcard α}
    (ht : t ∈ p) (hne : t ≠ many) : w ≠ [] := by
  obtain ⟨l, r, rfl⟩ := append_of_mem ht
  obtain ⟨u, v, rfl, _, hv⟩ := (matches_append l (t :: r) w).mp h
  have hcons : v ≠ [] := by
    cases t with
    | lit a =>
      obtain ⟨_, rfl, _⟩ := hv
      exact cons_ne_nil _ _
    | any =>
      obtain ⟨_, _, rfl, _⟩ := hv
      exact cons_ne_nil _ _
    | many => exact absurd rfl hne
  exact append_ne_nil_of_right_ne_nil u hcons

variable [DecidableEq α]

def matchesBool : List (Wildcard α) → List α → Bool
  | [], w => w.isEmpty
  | lit _ :: _, [] => false
  | lit a :: p, b :: w => a = b && matchesBool p w
  | any :: _, [] => false
  | any :: p, _ :: w => matchesBool p w
  | many :: p, w => w.tails.any (matchesBool p)

theorem matchesBool_iff (p : List (Wildcard α)) (w : List α) :
    matchesBool p w ↔ Matches p w := by
  induction p generalizing w with
  | nil => simp [matchesBool, Matches]
  | cons t p ih =>
    cases t with
    | lit a =>
      cases w with
      | nil => simp [matchesBool, Matches]
      | cons b w =>
        simp only [matchesBool, Matches, Bool.and_eq_true, decide_eq_true_eq, ih, List.cons.injEq]
        constructor
        · rintro ⟨rfl, h⟩
          exact ⟨w, ⟨rfl, rfl⟩, h⟩
        · rintro ⟨_, ⟨rfl, rfl⟩, h⟩
          exact ⟨rfl, h⟩
    | any =>
      cases w with
      | nil => simp [matchesBool, Matches]
      | cons b w => simp [matchesBool, Matches, ih]
    | many =>
      simp only [matchesBool, Matches, any_eq_true, mem_tails, ih]
      constructor
      · rintro ⟨v, ⟨u, rfl⟩, hv⟩
        exact ⟨u, v, rfl, hv⟩
      · rintro ⟨u, v, rfl, hv⟩
        exact ⟨v, suffix_append u v, hv⟩

end Wildcard

end Codex.Lib

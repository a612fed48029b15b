import Mathlib.Data.List.Basic
import Mathlib.Data.List.DropRight

/-! `cutAt p items n` is where a list is to be cut so that its last `n` elements marked by `p` go,
or all of them when there are fewer; `trimBack` then moves a cut over the elements before it. -/

namespace Codex.Lib.LastMarked
open List Option

variable {α : Type}

def cutAt (p : α → Bool) (items : List α) (n : Nat) : Option (Nat × Nat) :=
  (items.findIdxs p).head?.map fun first =>
    (first, if (items.findIdxs p).length ≤ n then first
      else (items.findIdxs p).getD ((items.findIdxs p).length - n) first)

def trimBack (q : α → Bool) (items : List α) (first : Nat) : Nat → Nat
  | 0 => 0
  | cut + 1 =>
    if first < cut + 1 ∧ items[cut]?.any q then trimBack q items first cut else cut + 1

variable {p q : α → Bool} {older : List α}

theorem cutAt_append {newer : List α} {x : α} {n : Nat} (hx : p x)
    (hn : newer.countP p + 1 = n ∨ older.countP p = 0 ∧ newer.countP p + 1 ≤ n) :
    ∃ first, cutAt p (older ++ x :: newer) n = some (first, older.length) ∧
      (older.countP p = 0 → first = older.length) ∧
      (older.countP p ≠ 0 → first < older.length) := by
  have hsplit : (older ++ x :: newer).findIdxs p =
      older.findIdxs p ++ older.length :: newer.findIdxs p (older.length + 1) := by
    rw [findIdxs_append, findIdxs_cons, if_pos hx, Nat.zero_add]
  have hlen : ((older ++ x :: newer).findIdxs p).length =
      older.countP p + (newer.countP p + 1) := by
    rw [length_findIdxs, countP_append, countP_cons, if_pos hx]
  cases hold : older.findIdxs p with
  | nil =>
    have hzero : older.countP p = 0 := by rw [← length_findIdxs (s := 0), hold, length_nil]
    have hle : ((older ++ x :: newer).findIdxs p).length ≤ n := by
      rw [hlen, hzero]
      omega
    rw [hold, nil_append] at hsplit
    refine ⟨older.length, ?_, fun _ => rfl, fun h => absurd hzero h⟩
    simp only [cutAt, if_pos hle]
    rw [hsplit]
    rfl
  | cons first rest =>
    have hcount : older.countP p = rest.length + 1 := by
      rw [← length_findIdxs (s := 0), hold, length_cons]
    have hnew : newer.countP p + 1 = n := by
      rcases hn with h | ⟨h, _⟩
      · exact h
      · rw [hcount] at h
        exact absurd h (Nat.succ_ne_zero _)
    have hgt : ¬ ((older ++ x :: newer).findIdxs p).length ≤ n := by
      rw [hlen]
      omega
    have hidx : ((older ++ x :: newer).findIdxs p).length - n = (first :: rest).length := by
      rw [hlen, length_cons]
      omega
    have hfirst := lt_add_of_mem_findIdxs first (hold ▸ mem_cons_self)
    refine ⟨first, ?_, fun h => absurd h (by omega), fun _ => by omega⟩
    simp only [cutAt, if_neg hgt, hidx]
    rw [hsplit, hold]
    simp

theorem filter_take_of_getElem?_findIdxs {k i j : Nat} {xs : List α}
    (h : (xs.findIdxs p k)[i]? = some j) :
    k ≤ j ∧ (xs.take (j - k)).filter p = (xs.filter p).take i := by
  induction xs generalizing k i with
  | nil => exact absurd h (by simp)
  | cons x xs ih =>
    have hlater {i'} (h : (xs.findIdxs p (k + 1))[i']? = some j) :
        k ≤ j ∧ ((x :: xs).take (j - k)).filter p =
          if p x then x :: (xs.filter p).take i' else (xs.filter p).take i' := by
      obtain ⟨hle, htake⟩ := ih h
      refine ⟨by omega, ?_⟩
      rw [show j - k = j - (k + 1) + 1 by omega, take_succ_cons, filter_cons, htake]
    rw [findIdxs_cons] at h
    by_cases hx : p x
    · rw [if_pos hx] at h
      cases i with
      | zero =>
        obtain rfl := Option.some.inj h
        simp
      | succ i =>
        rw [getElem?_cons_succ] at h
        simpa [hx] using hlater h
    · rw [if_neg hx] at h
      simpa [hx] using hlater h

theorem cutAt_eq_none_iff {items : List α} {n : Nat} :
    cutAt p items n = none ↔ items.filter p = [] := by
  rw [cutAt, map_eq_none_iff, head?_eq_none_iff, findIdxs_eq_nil_iff, filter_eq_nil_iff]
  simp only [Bool.not_eq_true]

theorem filter_take_cutAt {items : List α} {n first cut : Nat} (hn : n ≠ 0)
    (h : cutAt p items n = some (first, cut)) :
    (items.take cut).filter p = (items.filter p).take ((items.filter p).length - n) := by
  have hlength : (items.findIdxs p).length = (items.filter p).length :=
    length_findIdxs.trans countP_eq_length_filter
  obtain ⟨first', hfirst, heq⟩ := map_eq_some_iff.mp h
  obtain ⟨rfl, hcut⟩ := Prod.mk.inj heq
  rw [head?_eq_getElem?] at hfirst
  rw [← hlength]
  by_cases hle : (items.findIdxs p).length ≤ n
  · rw [if_pos hle] at hcut
    subst hcut
    rw [Nat.sub_eq_zero_of_le hle]
    exact (filter_take_of_getElem?_findIdxs hfirst).2
  · rw [if_neg hle, getD_eq_getElem?_getD] at hcut
    have hlt : (items.findIdxs p).length - n < (items.findIdxs p).length := by omega
    rw [getElem?_eq_getElem hlt, getD_some] at hcut
    have hget := getElem?_eq_getElem hlt
    rw [hcut] at hget
    exact (filter_take_of_getElem?_findIdxs hget).2

theorem filter_take_trimBack (hpq : ∀ x, q x → p x = false) (items : List α)
    (first cut : Nat) :
    (items.take (trimBack q items first cut)).filter p = (items.take cut).filter p := by
  induction cut with
  | zero => rfl
  | succ cut ih =>
    rw [trimBack]
    split
    · next h =>
      obtain ⟨x, hx, hq⟩ := (any_eq_true _ _).mp h.2
      rw [ih, take_add_one, hx, filter_append]
      simp [hpq x hq]
    · rfl

theorem trimBack_self (q : α → Bool) (items : List α) (cut : Nat) :
    trimBack q items cut cut = cut := by
  cases cut <;> simp [trimBack]

theorem trimBack_append {rest : List α} (first : Nat) (h : ∀ x ∈ older.getLast?, q x = false) :
    trimBack q (older ++ rest) first older.length = older.length := by
  rcases eq_nil_or_concat older with rfl | ⟨init, x, rfl⟩
  · rfl
  · have hx : q x = false := h x (by simp)
    rw [concat_eq_append, length_append, length_singleton, trimBack, if_neg]
    simp [hx]

theorem marked_of_mem_findIdxs {i : Nat} {xs : List α} (h : i ∈ xs.findIdxs p) :
    xs[i]?.any p := by
  obtain ⟨hi, hp⟩ := mem_findIdxs_iff_exists_getElem_pos.mp h
  rwa [getElem?_eq_getElem hi, any_some]

theorem marked_first_cutAt {items : List α} {n first cut : Nat}
    (h : cutAt p items n = some (first, cut)) : items[first]?.any p := by
  obtain ⟨found, hfound, heq⟩ := map_eq_some_iff.mp h
  obtain ⟨rfl, -⟩ := Prod.mk.inj heq
  exact marked_of_mem_findIdxs (mem_of_mem_head? hfound)

theorem marked_cutAt {items : List α} {n first cut : Nat}
    (h : cutAt p items n = some (first, cut)) : items[cut]?.any p := by
  obtain ⟨found, hfound, heq⟩ := map_eq_some_iff.mp h
  obtain ⟨-, hcut⟩ := Prod.mk.inj heq
  have hmem : cut ∈ items.findIdxs p := by
    rw [← hcut]
    split
    · exact mem_of_mem_head? hfound
    · rw [getD_eq_getElem?_getD]
      cases hget : (items.findIdxs p)[(items.findIdxs p).length - n]? with
      | none => exact mem_of_mem_head? hfound
      | some i => exact mem_of_getElem? hget
  exact marked_of_mem_findIdxs hmem

theorem trimBack_pos (q : α → Bool) (items : List α) {first cut : Nat} (hfirst : 0 < first)
    (hcut : 0 < cut) : 0 < trimBack q items first cut := by
  induction cut with
  | zero => exact hcut
  | succ cut ih =>
    rw [trimBack]
    split
    · next h => exact ih (by omega)
    · exact hcut

theorem trimBack_le (q : α → Bool) (items : List α) (first cut : Nat) :
    trimBack q items first cut ≤ cut := by
  induction cut with
  | zero => exact le_rfl
  | succ cut ih =>
    rw [trimBack]
    split
    · omega
    · exact le_rfl

theorem trimBack_eq_length_rdropWhile {rest : List α} {first : Nat} (hfirst : first < older.length)
    (hmarked : (older ++ rest)[first]?.any q = false) :
    trimBack q (older ++ rest) first older.length = (older.rdropWhile q).length := by
  induction older using List.reverseRecOn generalizing rest with
  | nil => exact absurd hfirst (Nat.not_lt_zero _)
  | append_singleton init x ih =>
    rw [length_append, length_singleton] at hfirst ⊢
    rw [append_assoc, singleton_append] at hmarked ⊢
    have hx : (init ++ x :: rest)[init.length]? = some x := by
      rw [getElem?_append_right le_rfl, Nat.sub_self, getElem?_cons_zero]
    rw [trimBack, hx, any_some, rdropWhile_concat]
    by_cases hq : q x
    · have hne : first ≠ init.length := by
        rintro rfl
        rw [hx, any_some, hq] at hmarked
        cases hmarked
      rw [if_pos ⟨hfirst, hq⟩, if_pos hq]
      exact ih (by omega) hmarked
    · rw [if_neg fun h => hq h.2, if_neg hq, length_append, length_singleton]

theorem rdropWhile_append_cons {x : α} (hx : q x = false) (older newer : List α) :
    (older ++ x :: newer).rdropWhile q = older ++ x :: newer.rdropWhile q := by
  induction newer using List.reverseRecOn with
  | nil => rw [rdropWhile_concat, if_neg (by simp [hx]), rdropWhile_nil]
  | append_singleton newer y ih =>
    rw [← cons_append, ← append_assoc, rdropWhile_concat, rdropWhile_concat]
    split
    · exact ih
    · rw [append_assoc, cons_append]

theorem take_length_rdropWhile (q : α → Bool) (older : List α) :
    older.take (older.rdropWhile q).length = older.rdropWhile q :=
  (prefix_iff_eq_take.mp (List.rdropWhile_prefix q older)).symm

theorem drop_length_rdropWhile (q : α → Bool) (older : List α) :
    older.drop (older.rdropWhile q).length = older.rtakeWhile q := by
  have hsplit := take_append_drop (older.rdropWhile q).length older
  rw [take_length_rdropWhile] at hsplit
  exact append_cancel_left (hsplit.trans rdropWhile_append_rtakeWhile.symm)

theorem lt_length_rdropWhile {first : Nat} (hfirst : first < older.length)
    (hmarked : older[first]?.any q = false) : first < (older.rdropWhile q).length := by
  by_contra hle
  have hsplit : older.rdropWhile q ++ older.rtakeWhile q = older := rdropWhile_append_rtakeWhile
  have hget : older[first]? = (older.rtakeWhile q)[first - (older.rdropWhile q).length]? := by
    nth_rewrite 1 [← hsplit]
    exact getElem?_append_right (not_lt.mp hle)
  rw [getElem?_eq_getElem hfirst] at hget hmarked
  have hq : q older[first] := mem_rtakeWhile_imp (mem_of_getElem? hget.symm)
  rw [any_some, hq] at hmarked
  cases hmarked

theorem older_eq_of_countP_eq {older' newer newer' : List α} {x x' : α}
    (h : older ++ x :: newer = older' ++ x' :: newer') (hx : p x) (hx' : p x')
    (hcount : newer.countP p = newer'.countP p) : older = older' := by
  wlog hle : older.length ≤ older'.length generalizing older older' newer newer' x x'
  · exact (this h.symm hx' hx hcount.symm (by omega)).symm
  obtain ⟨between, rfl⟩ := prefix_of_prefix_length_le (prefix_append older _)
    (h ▸ prefix_append older' _) hle
  cases between with
  | nil => rw [append_nil]
  | cons y between =>
    rw [append_assoc, append_cancel_left_eq, cons_append] at h
    obtain ⟨rfl, rfl⟩ := List.cons.inj h
    rw [countP_append, countP_cons, if_pos hx'] at hcount
    omega

theorem exists_split_countP (items : List α) {n : Nat} (h : n < items.countP p) :
    ∃ older x newer, items = older ++ x :: newer ∧ p x ∧ newer.countP p = n := by
  induction items with
  | nil => exact absurd h (Nat.not_lt_zero _)
  | cons x items ih =>
    by_cases hlater : n < items.countP p
    · obtain ⟨older, y, newer, rfl, hy, hcount⟩ := ih hlater
      exact ⟨x :: older, y, newer, rfl, hy, hcount⟩
    · rw [countP_cons] at h
      by_cases hx : p x
      · rw [if_pos hx] at h
        exact ⟨[], x, items, rfl, hx, by omega⟩
      · rw [if_neg hx] at h
        omega

end Codex.Lib.LastMarked

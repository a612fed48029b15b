import Mathlib.Data.List.Sort

/-! Regions that do not overlap may be replaced from the back to the front, each at its own
position, or in one pass from the front. -/

namespace Codex.Lib.Splice
open List

variable {α β : Type}

abbrev Edit (α : Type) := Nat × Nat × List α

def stop (edit : Edit α) : Nat := edit.1 + edit.2.1

theorem start_le_stop (edit : Edit α) : edit.1 ≤ stop edit := Nat.le_add_right _ _

def Separate (edits : List (Edit α)) : Prop := edits.Pairwise fun a b => stop a ≤ b.1

def splice (pos : Nat) : List (Edit α) → List α → List α
  | [], items => items
  | edit :: edits, items =>
    items.take (edit.1 - pos) ++ edit.2.2 ++
      splice (stop edit) edits (items.drop (stop edit - pos))

def replace (items : List α) (edit : Edit α) : List α :=
  items.take edit.1 ++ edit.2.2 ++ items.drop (stop edit)

variable {edits : List (Edit α)}

theorem foldr_replace_eq {pos : Nat} (items : List α) (hsep : Separate edits)
    (hpos : ∀ edit ∈ edits, pos ≤ edit.1) (hbound : ∀ edit ∈ edits, stop edit ≤ items.length) :
    edits.foldr (fun edit items => replace items edit) items =
      items.take pos ++ splice pos edits (items.drop pos) := by
  induction edits generalizing pos with
  | nil => simp [splice]
  | cons edit edits ih =>
    obtain ⟨hfirst, hrest⟩ := pairwise_cons.mp hsep
    have hlater := ih hrest hfirst fun e he => hbound e (mem_cons_of_mem edit he)
    have hstart := hpos edit mem_cons_self
    have hstop := hbound edit mem_cons_self
    have hle := start_le_stop edit
    have hlen : (items.take (stop edit)).length = stop edit := by
      rw [length_take]
      omega
    have hbefore :
        (items.take (stop edit) ++ splice (stop edit) edits (items.drop (stop edit))).take edit.1 =
          items.take pos ++ (items.drop pos).take (edit.1 - pos) := by
      rw [take_append_of_le_length (by omega), take_take, Nat.min_eq_left hle,
        ← take_add, Nat.add_sub_cancel' hstart]
    have hafter : (items.take (stop edit) ++ splice (stop edit) edits (items.drop (stop edit))).drop
        (stop edit) = splice (stop edit) edits (items.drop (stop edit)) := drop_left' hlen
    rw [foldr_cons, hlater, replace, hbefore, hafter, splice, drop_drop,
      Nat.add_sub_cancel' (hstart.trans hle)]
    simp

theorem splice_map (f : α → β) (edits : List (Edit α)) (pos : Nat) (items : List α) :
    (splice pos edits items).map f =
      splice pos (edits.map fun edit => (edit.1, edit.2.1, edit.2.2.map f)) (items.map f) := by
  induction edits generalizing pos items with
  | nil => rfl
  | cons edit edits ih => simp [splice, ih, stop, map_take, map_drop]

def Covered (edits : List (Edit α)) (i : Nat) : Prop := ∃ edit ∈ edits, edit.1 ≤ i ∧ i < stop edit

theorem covered_append {more : List (Edit α)} {i : Nat} :
    Covered (edits ++ more) i ↔ Covered edits i ∨ Covered more i := by
  simp [Covered, or_and_right, exists_or]

theorem covered_singleton {edit : Edit α} {i : Nat} :
    Covered [edit] i ↔ edit.1 ≤ i ∧ i < stop edit := by
  simp [Covered]

theorem not_covered_of_lt {pos i : Nat} (h : ∀ edit ∈ edits, pos ≤ edit.1) (hi : i < pos) :
    ¬ Covered edits i := by
  rintro ⟨edit, hedit, hle, -⟩
  have := h edit hedit
  omega

theorem not_covered_of_le {pos i : Nat} (h : ∀ edit ∈ edits, stop edit ≤ pos) (hi : pos ≤ i) :
    ¬ Covered edits i := by
  rintro ⟨edit, hedit, -, hlt⟩
  have := h edit hedit
  omega

/-- The earlier of two regions by start, or the first of two with one start, ends before the
other. -/
def Apart (a b : Edit α) : Prop := (a.1 ≤ b.1 → stop a ≤ b.1) ∧ (b.1 < a.1 → stop b ≤ a.1)

def startLe (a b : Edit α) : Prop := a.1 ≤ b.1

instance : DecidableRel (startLe (α := α)) := fun a b => inferInstanceAs (Decidable (a.1 ≤ b.1))

instance : Std.Total (startLe (α := α)) := ⟨fun a b => Nat.le_total a.1 b.1⟩

instance : IsTrans (Edit α) startLe := ⟨fun _ _ _ => Nat.le_trans⟩

theorem apart_iff_of_le {a b : Edit α} (h : a.1 ≤ b.1) : Apart a b ↔ stop a ≤ b.1 :=
  ⟨fun hab => hab.1 h, fun hab => ⟨fun _ => hab, fun hlt => absurd h (not_le.mpr hlt)⟩⟩

theorem apart_iff_of_lt {a b : Edit α} (h : b.1 < a.1) : Apart a b ↔ stop b ≤ a.1 :=
  ⟨fun hab => hab.2 h, fun hab => ⟨fun hle => absurd h (not_lt.mpr hle), fun _ => hab⟩⟩

theorem separate_orderedInsert_iff {edit : Edit α} (hsorted : edits.Pairwise startLe) :
    Separate (edits.orderedInsert startLe edit) ↔
      Separate edits ∧ ∀ other ∈ edits, Apart edit other := by
  induction edits with
  | nil => simp [Separate]
  | cons other edits ih =>
    obtain ⟨hother, hrest⟩ := pairwise_cons.mp hsorted
    by_cases hle : startLe edit other
    · have hapart : ∀ e ∈ other :: edits, (Apart edit e ↔ stop edit ≤ e.1) := by
        intro e he
        rcases mem_cons.mp he with rfl | he
        · exact apart_iff_of_le hle
        · exact apart_iff_of_le (Nat.le_trans hle (hother e he))
      have hall : (∀ e ∈ other :: edits, Apart edit e) ↔ ∀ e ∈ other :: edits, stop edit ≤ e.1 :=
        forall₂_congr hapart
      rw [orderedInsert_cons, if_pos hle, Separate, pairwise_cons, hall, and_comm]
      rfl
    · have hlt : other.1 < edit.1 := not_le.mp hle
      have hmem : (∀ e ∈ edits.orderedInsert startLe edit, stop other ≤ e.1) ↔
          stop other ≤ edit.1 ∧ ∀ e ∈ edits, stop other ≤ e.1 := by
        simp [mem_orderedInsert]
      have hinsert := ih hrest
      rw [Separate] at hinsert
      rw [orderedInsert_cons, if_neg hle, Separate, pairwise_cons, hmem, hinsert,
        forall_mem_cons, apart_iff_of_lt hlt, Separate, Separate, pairwise_cons]
      tauto

theorem separate_insertionSort_iff (edits : List (Edit α)) :
    Separate (edits.insertionSort startLe) ↔ edits.Pairwise Apart := by
  induction edits with
  | nil => simp [Separate]
  | cons edit edits ih =>
    have hsorted := pairwise_insertionSort startLe edits
    have hmem : (∀ other ∈ edits.insertionSort startLe, Apart edit other) ↔
        ∀ other ∈ edits, Apart edit other := by
      simp
    rw [insertionSort_cons, separate_orderedInsert_iff hsorted, ih, pairwise_cons, hmem, and_comm]

end Codex.Lib.Splice

import Mathlib.Data.List.Basic

/-! A log in which a marker takes back the newest `n` entries that still stand. What a part of a log
does to whatever comes before it is a pair: how many older entries it takes back, and which of its
own it leaves. Such pairs compose, so a log may be read from either end. -/

namespace Codex.Lib.UndoLog
open List

variable {α β : Type}

inductive Event (α : Type)
  | entry (a : α)
  | undo (n : Nat)

@[ext] structure Net (α : Type) where
  undone : Nat
  kept : List α

def Net.comp (a b : Net α) : Net α :=
  ⟨a.undone + (b.undone - a.kept.length), a.kept.take (a.kept.length - b.undone) ++ b.kept⟩

def Event.net : Event α → Net α
  | .entry a => ⟨0, [a]⟩
  | .undo n => ⟨n, []⟩

def net : List (Event α) → Net α
  | [] => ⟨0, []⟩
  | e :: log => e.net.comp (net log)

theorem Net.comp_assoc (a b c : Net α) : (a.comp b).comp c = a.comp (b.comp c) := by
  obtain ⟨m, k⟩ := a
  obtain ⟨n, l⟩ := b
  obtain ⟨o, p⟩ := c
  simp only [Net.comp, length_append, length_take, take_append, take_take,
    Net.mk.injEq, append_assoc]
  constructor
  · omega
  · congr 2 <;> congr 1 <;> omega

@[simp] theorem Net.empty_comp (a : Net α) : Net.comp ⟨0, []⟩ a = a := by
  simp [Net.comp]

theorem net_append (xs ys : List (Event α)) : net (xs ++ ys) = (net xs).comp (net ys) := by
  induction xs with
  | nil => simp [net]
  | cons e xs ih => rw [cons_append, net, net, ih, Net.comp_assoc]

theorem net_entry (a : α) (log : List (Event α)) :
    net (.entry a :: log) =
      ⟨(net log).undone - 1,
        if (net log).undone = 0 then a :: (net log).kept else (net log).kept⟩ := by
  simp only [net, Event.net, Net.comp, length_singleton, Nat.zero_add]
  split
  · next h => simp [h]
  · next h => simp [Nat.sub_eq_zero_of_le (Nat.one_le_iff_ne_zero.mpr h)]

theorem net_undo (n : Nat) (log : List (Event α)) :
    net (.undo n :: log) = ⟨n + (net log).undone, (net log).kept⟩ := by
  simp [net, Event.net, Net.comp]

theorem net_map_entry (entries : List α) : net (entries.map .entry) = ⟨0, entries⟩ := by
  induction entries with
  | nil => rfl
  | cons a entries ih => simp [net_entry, ih]

theorem net_concat_entry (log : List (Event α)) (a : α) :
    net (log ++ [.entry a]) = ⟨(net log).undone, (net log).kept ++ [a]⟩ := by
  simp [net_append, net, Event.net, Net.comp]

theorem net_concat_undo (log : List (Event α)) (n : Nat) :
    net (log ++ [.undo n]) =
      ⟨(net log).undone + (n - (net log).kept.length),
        (net log).kept.take ((net log).kept.length - n)⟩ := by
  simp [net_append, net, Event.net, Net.comp]

theorem undone_of_append {xs ys : List (Event α)} (h : (net (xs ++ ys)).undone = 0) :
    (net xs).undone = 0 := by
  rw [net_append, Net.comp] at h
  exact Nat.eq_zero_of_add_eq_zero_right h

theorem exists_of_kept_eq {log : List (Event α)} {older newer : List α} {a : α}
    (h : (net log).kept = older ++ a :: newer) :
    ∃ before after, log = before ++ .entry a :: after ∧
      (net after).undone = 0 ∧ (net after).kept = newer := by
  induction log generalizing older with
  | nil => simp [net] at h
  | cons e log ih =>
    cases e with
    | undo n =>
      rw [net_undo] at h
      obtain ⟨before, after, rfl, hafter⟩ := ih h
      exact ⟨.undo n :: before, after, rfl, hafter⟩
    | entry b =>
      have hlater (older) (h : (net log).kept = older ++ a :: newer) : ∃ before after,
          Event.entry b :: log = before ++ .entry a :: after ∧
            (net after).undone = 0 ∧ (net after).kept = newer := by
        obtain ⟨before, after, rfl, hafter⟩ := ih h
        exact ⟨.entry b :: before, after, rfl, hafter⟩
      rw [net_entry] at h
      by_cases hzero : (net log).undone = 0
      · simp only [hzero, if_true] at h
        cases older with
        | nil =>
          obtain ⟨rfl, rfl⟩ := List.cons.inj h
          exact ⟨[], log, rfl, hzero, rfl⟩
        | cons c older => exact hlater older (List.cons.inj h).2
      · simp only [hzero, if_false] at h
        exact hlater older h

def keptUnder (log : List (Event α)) (n : Nat) : List α :=
  (net log).kept.take ((net log).kept.length - n)

theorem kept_append (xs ys : List (Event α)) :
    (net (xs ++ ys)).kept = keptUnder xs (net ys).undone ++ (net ys).kept := by
  rw [net_append, Net.comp, keptUnder]

theorem keptUnder_zero (log : List (Event α)) : keptUnder log 0 = (net log).kept := by
  rw [keptUnder, Nat.sub_zero, take_length]

theorem kept_append_entry {xs ys : List (Event α)} (a : α) (h : (net ys).undone = 0) :
    (net (xs ++ .entry a :: ys)).kept = (net xs).kept ++ a :: (net ys).kept := by
  rw [kept_append, net_entry, h, if_pos rfl, Nat.zero_sub, keptUnder_zero]

theorem keptUnder_eq_nil_iff {log : List (Event α)} {n : Nat} :
    keptUnder log n = [] ↔ (net log).kept.length ≤ n := by
  rw [← length_eq_zero_iff, keptUnder, length_take]
  omega

theorem keptUnder_undo (m : Nat) (log : List (Event α)) (n : Nat) :
    keptUnder (.undo m :: log) n = keptUnder log n := by
  rw [keptUnder, net_undo, keptUnder]

theorem keptUnder_entry (a : α) (xs ys : List (Event α)) :
    keptUnder (.entry a :: xs) (net ys).undone =
      if (net (xs ++ ys)).undone = 0 then a :: keptUnder xs (net ys).undone
      else keptUnder xs (net ys).undone := by
  have hundone : (net (xs ++ ys)).undone =
      (net xs).undone + ((net ys).undone - (net xs).kept.length) := by rw [net_append, Net.comp]
  rw [hundone, keptUnder, net_entry, keptUnder]
  by_cases hzero : (net xs).undone = 0
  · simp only [hzero, if_true, length_cons, Nat.zero_add]
    by_cases hle : (net ys).undone ≤ (net xs).kept.length
    · rw [if_pos (Nat.sub_eq_zero_of_le hle), Nat.succ_sub hle, take_succ_cons]
    · rw [if_neg (by omega), show (net xs).kept.length + 1 - (net ys).undone = 0 by omega,
        show (net xs).kept.length - (net ys).undone = 0 by omega, take_zero, take_zero]
  · simp only [hzero, if_false]
    rw [if_neg (by omega)]

def number (k : Nat) : List (Event α) → List (Event Nat)
  | [] => []
  | .entry _ :: log => .entry k :: number (k + 1) log
  | .undo n :: log => .undo n :: number k log

def entries (log : List (Event α)) : List α :=
  log.filterMap fun
    | .entry a => some a
    | .undo _ => none

@[simp] theorem entries_nil : entries ([] : List (Event α)) = [] := rfl

@[simp] theorem entries_entry (a : α) (log : List (Event α)) :
    entries (.entry a :: log) = a :: entries log := rfl

@[simp] theorem entries_undo (n : Nat) (log : List (Event α)) :
    entries (.undo n :: log) = entries log := rfl

@[simp] theorem entries_append (xs ys : List (Event α)) :
    entries (xs ++ ys) = entries xs ++ entries ys := filterMap_append

theorem number_append (k : Nat) (xs ys : List (Event α)) :
    number k (xs ++ ys) = number k xs ++ number (k + (entries xs).length) ys := by
  induction xs generalizing k with
  | nil => simp [number]
  | cons e xs ih =>
    cases e with
    | entry a =>
      simp only [cons_append, number, ih, entries_entry, length_cons]
      rw [show k + 1 + (entries xs).length = k + ((entries xs).length + 1) by omega]
    | undo n => simp only [cons_append, number, ih, entries_undo]

theorem kept_sublist_entries (log : List (Event α)) : (net log).kept.Sublist (entries log) := by
  induction log with
  | nil => simp [net]
  | cons e log ih =>
    cases e with
    | undo n => simpa only [net_undo, entries_undo] using ih
    | entry a =>
      rw [net_entry, entries_entry]
      split
      · exact ih.cons_cons a
      · exact ih.cons a

theorem entries_number (k : Nat) (log : List (Event α)) :
    entries (number k log) = List.range' k (entries log).length := by
  induction log generalizing k with
  | nil => rfl
  | cons e log ih =>
    cases e with
    | undo n => exact ih k
    | entry a =>
      rw [number, entries_entry, ih, entries_entry, length_cons, range'_succ]

theorem mem_entries_number {k i : Nat} {log : List (Event α)} :
    i ∈ entries (number k log) ↔ k ≤ i ∧ i < k + (entries log).length := by
  rw [entries_number, mem_range'_1]

theorem nodup_kept_number (k : Nat) (log : List (Event α)) : (net (number k log)).kept.Nodup := by
  refine (kept_sublist_entries _).nodup ?_
  rw [entries_number]
  exact nodup_range'

theorem net_number (k : Nat) (log : List (Event α)) :
    (net (number k log)).undone = (net log).undone ∧
      (net (number k log)).kept.length = (net log).kept.length := by
  induction log generalizing k with
  | nil => simp [number, net]
  | cons e log ih =>
    cases e with
    | undo n =>
      obtain ⟨hundone, hkept⟩ := ih k
      simp [number, net_undo, hundone, hkept]
    | entry a =>
      obtain ⟨hundone, hkept⟩ := ih (k + 1)
      simp only [number, net_entry, hundone]
      split <;> simp [hkept]

theorem mem_kept_number_iff (k : Nat) (before after : List (Event α)) (a : α) :
    k + (entries before).length ∈ (net (number k (before ++ .entry a :: after))).kept ↔
      (net after).undone = 0 := by
  have hundone := (net_number (k + (entries before).length + 1) after).1
  have hafter (i) (hi : i ∈ (net (number (k + (entries before).length + 1) after)).kept) :
      k + (entries before).length < i :=
    (mem_entries_number.mp ((kept_sublist_entries _).subset hi)).1
  have hbefore (i) (hi : i ∈ (net (number k before)).kept) : i < k + (entries before).length :=
    (mem_entries_number.mp ((kept_sublist_entries _).subset hi)).2
  rw [number_append, number, net_append, net_entry, Net.comp]
  simp only [hundone, mem_append]
  constructor
  · rintro (hmem | hmem)
    · exact absurd (hbefore _ (mem_of_mem_take hmem)) (Nat.lt_irrefl _)
    · by_contra hne
      rw [if_neg hne] at hmem
      exact absurd (hafter _ hmem) (Nat.lt_irrefl _)
  · intro hzero
    rw [if_pos hzero]
    exact .inr mem_cons_self

end Codex.Lib.UndoLog

import Codex.Lib.UndoLog

/-! The entries of a log hold parts. `Aligned` says when the parts that are left, read by parts, are
those of the entries that are left, read by entries. -/

namespace Codex.Lib.UndoLog
open List

variable {α β κ : Type}

/-- The entries that stand after a log, on top of those that stood before it. -/
def standing (ts : List α) : List (Event α) → List α
  | [] => ts
  | .entry a :: log => standing (ts ++ [a]) log
  | .undo n :: log => standing (ts.take (ts.length - n)) log

@[simp] theorem standing_nil (ts : List α) : standing ts [] = ts := rfl

@[simp] theorem standing_entry (ts : List α) (a : α) (log : List (Event α)) :
    standing ts (.entry a :: log) = standing (ts ++ [a]) log := rfl

@[simp] theorem standing_undo (ts : List α) (n : Nat) (log : List (Event α)) :
    standing ts (.undo n :: log) = standing (ts.take (ts.length - n)) log := rfl

theorem standing_append (ts : List α) (xs ys : List (Event α)) :
    standing ts (xs ++ ys) = standing (standing ts xs) ys := by
  induction xs generalizing ts with
  | nil => rfl
  | cons e xs ih => cases e <;> exact ih _

theorem standing_map_entry (ts as : List α) : standing ts (as.map .entry) = ts ++ as := by
  induction as generalizing ts with
  | nil => simp
  | cons a as ih => simp [ih]

theorem standing_eq_net (ts : List α) (log : List (Event α)) :
    standing ts log = ts.take (ts.length - (net log).undone) ++ (net log).kept := by
  induction log generalizing ts with
  | nil => simp [net]
  | cons e log ih =>
    cases e with
    | undo n =>
      have hmin : min (min (ts.length - n) ts.length - (net log).undone) (ts.length - n) =
          ts.length - (n + (net log).undone) := by omega
      rw [standing_undo, ih, net_undo, length_take, take_take, hmin]
    | entry a =>
      rw [standing_entry, ih, net_entry]
      by_cases hzero : (net log).undone = 0
      · simp [hzero, take_of_length_le]
      · have hlen : (ts ++ [a]).length - (net log).undone = ts.length - ((net log).undone - 1) := by
          rw [length_append, length_singleton]
          omega
        rw [hlen, take_append_of_le_length (by omega), if_neg hzero]

theorem standing_nil_eq_kept (log : List (Event α)) : standing [] log = (net log).kept := by
  simp [standing_eq_net]

section
variable (f : α → List β)

def partsLog (log : List (Event α)) : List (Event β) :=
  log.flatMap fun
    | .entry a => (f a).map .entry
    | .undo n => [.undo n]

theorem standing_partsLog_entry (ts : List α) (a : α) (log : List (Event α)) :
    standing (ts.flatMap f) (partsLog f (.entry a :: log)) =
      standing ((ts ++ [a]).flatMap f) (partsLog f log) := by
  rw [partsLog, flatMap_cons, standing_append, standing_map_entry, flatMap_append,
    flatMap_singleton]
  rfl

theorem standing_partsLog_undo (bs : List β) (n : Nat) (log : List (Event α)) :
    standing bs (partsLog f (.undo n :: log)) =
      standing (bs.take (bs.length - n)) (partsLog f log) := rfl

/-- Taking back `n` of either unit takes back the same parts. -/
def AlignedAt (ts : List α) (n : Nat) : Prop :=
  ((ts.drop (ts.length - n)).flatMap f).length = min n (ts.flatMap f).length

def Aligned (ts : List α) : List (Event α) → Prop
  | [] => True
  | .entry a :: log => Aligned (ts ++ [a]) log
  | .undo n :: log => AlignedAt f ts n ∧ Aligned (ts.take (ts.length - n)) log

instance (ts : List α) (n : Nat) : Decidable (AlignedAt f ts n) :=
  inferInstanceAs (Decidable (_ = _))

instance decidableAligned (ts : List α) : (log : List (Event α)) → Decidable (Aligned f ts log)
  | [] => inferInstanceAs (Decidable True)
  | .entry a :: log => decidableAligned (ts ++ [a]) log
  | .undo n :: log =>
    haveI := decidableAligned (ts.take (ts.length - n)) log
    inferInstanceAs (Decidable (_ ∧ _))

variable {f}

theorem flatMap_take_drop (ts : List α) (k : Nat) :
    ts.flatMap f = (ts.take k).flatMap f ++ (ts.drop k).flatMap f := by
  rw [← flatMap_append, take_append_drop]

variable {ts : List α} {log : List (Event α)}

theorem alignedAt_iff_length {n : Nat} :
    AlignedAt f ts n ↔
      (ts.flatMap f).length - n = ((ts.take (ts.length - n)).flatMap f).length := by
  have hsplit := congrArg List.length (flatMap_take_drop (f := f) ts (ts.length - n))
  rw [length_append] at hsplit
  rw [AlignedAt]
  constructor <;> intro h
  · -- either all `n` are there or nothing older is
    rcases Nat.le_total n (ts.flatMap f).length with hle | hle
    · rw [Nat.min_eq_left hle] at h
      omega
    · rw [Nat.min_eq_right hle] at h
      omega
  · rcases Nat.le_total n (ts.flatMap f).length with hle | hle
    · rw [Nat.min_eq_left hle]
      omega
    · rw [Nat.min_eq_right hle]
      omega

theorem AlignedAt.take_eq {n : Nat} (h : AlignedAt f ts n) :
    (ts.flatMap f).take ((ts.flatMap f).length - n) = (ts.take (ts.length - n)).flatMap f := by
  rw [alignedAt_iff_length.mp h]
  conv_lhs => rw [flatMap_take_drop ts (ts.length - n)]
  exact take_left

theorem Aligned.standing_eq (h : Aligned f ts log) :
    standing (ts.flatMap f) (partsLog f log) = (standing ts log).flatMap f := by
  induction log generalizing ts with
  | nil => rfl
  | cons e log ih =>
    cases e with
    | entry a =>
      rw [standing_partsLog_entry]
      exact ih h
    | undo n =>
      rw [standing_partsLog_undo, h.1.take_eq]
      exact ih h.2

theorem Aligned.of_append {xs ys : List (Event α)} (h : Aligned f ts (xs ++ ys)) :
    Aligned f ts xs := by
  induction xs generalizing ts with
  | nil => trivial
  | cons e xs ih =>
    cases e with
    | entry a => exact ih h
    | undo n => exact ⟨h.1, ih h.2⟩

theorem aligned_of_prefixes {P : List (Event α) → Prop}
    (hmarker : ∀ before n, before ++ [.undo n] <+: log → P (before ++ [.undo n]) →
      standing (ts.flatMap f) (partsLog f before) = (standing ts before).flatMap f →
      AlignedAt f (standing ts before) n) (h : ∀ p, p <+: log → P p) : Aligned f ts log := by
  induction log generalizing ts P with
  | nil => trivial
  | cons e log ih =>
    cases e with
    | entry a =>
      apply ih (P := fun p => P (.entry a :: p))
      · intro before n hbefore hP hstanding
        rw [← standing_partsLog_entry] at hstanding
        exact hmarker (.entry a :: before) n ((prefix_cons_inj _).mpr hbefore) hP hstanding
      · intro p hp
        exact h _ ((prefix_cons_inj _).mpr hp)
    | undo n =>
      have hfirst : AlignedAt f ts n := by
        have hone : [Event.undo n] <+: Event.undo n :: log := ⟨log, rfl⟩
        exact hmarker [] n hone (h _ hone) rfl
      refine ⟨hfirst, ?_⟩
      apply ih (P := fun p => P (.undo n :: p))
      · intro before m hbefore hP hstanding
        rw [← hfirst.take_eq, ← standing_partsLog_undo] at hstanding
        exact hmarker (.undo n :: before) m ((prefix_cons_inj _).mpr hbefore) hP hstanding
      · intro p hp
        exact h _ ((prefix_cons_inj _).mpr hp)

theorem standing_partsLog_concat_undo (bs : List β) (log : List (Event α)) (n : Nat) :
    standing bs (partsLog f (log ++ [.undo n])) =
      (standing bs (partsLog f log)).take ((standing bs (partsLog f log)).length - n) := by
  rw [partsLog, flatMap_append, standing_append]
  rfl

theorem aligned_of_length_eq (h : ∀ p, p <+: log →
      (standing (ts.flatMap f) (partsLog f p)).length = ((standing ts p).flatMap f).length) :
    Aligned f ts log := by
  apply aligned_of_prefixes _ h
  intro before n _ hlength hstanding
  rw [standing_partsLog_concat_undo, hstanding, standing_append, standing_undo, standing_nil,
    length_take] at hlength
  rw [alignedAt_iff_length, ← hlength]
  omega

theorem length_le_length_flatMap (hparts : ∀ a, f a ≠ []) (ts : List α) :
    ts.length ≤ (ts.flatMap f).length := by
  induction ts with
  | nil => exact Nat.le_refl _
  | cons a ts ih =>
    have hpos := length_pos_iff.mpr (hparts a)
    rw [flatMap_cons, length_append, length_cons]
    omega

/-- If the marker takes back fewer parts than entries hold, the newest part left belongs to an
entry that goes. -/
theorem alignedAt_of_getLast_eq {key : α → κ} {owner : β → κ} {n : Nat} (hparts : ∀ a, f a ≠ [])
    (howner : ∀ a, ∀ b ∈ f a, owner b = key a) (hnodup : (ts.map key).Nodup)
    (h : ((ts.flatMap f).take ((ts.flatMap f).length - n)).getLast?.map owner =
      (ts.take (ts.length - n)).getLast?.map key) : AlignedAt f ts n := by
  have hsplit := flatMap_take_drop (f := f) ts (ts.length - n)
  have hlength := congrArg List.length hsplit
  rw [length_append] at hlength
  have hdropped := length_le_length_flatMap hparts (ts.drop (ts.length - n))
  rw [length_drop] at hdropped
  by_contra hmis
  have hmore : n < ((ts.drop (ts.length - n)).flatMap f).length := by
    by_contra hle
    apply hmis
    rw [AlignedAt]
    by_cases hn : n < ts.length
    · omega
    · have hnone : (ts.take (ts.length - n)).flatMap f = [] := by
        rw [Nat.sub_eq_zero_of_le (Nat.le_of_not_lt hn), take_zero, flatMap_nil]
      rw [hnone, length_nil] at hlength
      omega
  have htake : (ts.flatMap f).take ((ts.flatMap f).length - n) =
      (ts.take (ts.length - n)).flatMap f ++ ((ts.drop (ts.length - n)).flatMap f).take
        (((ts.drop (ts.length - n)).flatMap f).length - n) := by
    have hcut : (ts.flatMap f).length - n = ((ts.take (ts.length - n)).flatMap f).length +
        (((ts.drop (ts.length - n)).flatMap f).length - n) := by omega
    rw [hcut]
    conv_lhs => rw [hsplit]
    rw [take_length_add_append]
  have hne : ((ts.drop (ts.length - n)).flatMap f).take
      (((ts.drop (ts.length - n)).flatMap f).length - n) ≠ [] := by
    rw [← length_pos_iff, length_take]
    omega
  rw [htake, getLast?_append_of_ne_nil _ hne, getLast?_eq_some_getLast hne, Option.map_some] at h
  obtain ⟨a, ha, hkey⟩ := Option.map_eq_some_iff.mp h.symm
  obtain ⟨b, hb, hpart⟩ := mem_flatMap.mp (mem_of_mem_take (getLast_mem hne))
  rw [howner b _ hpart] at hkey
  rw [← take_append_drop (ts.length - n) ts, map_append] at hnodup
  have hdisjoint := (nodup_append.mp hnodup).2.2
  exact hdisjoint _ (mem_map_of_mem (mem_of_getLast? ha)) _ (mem_map_of_mem hb) hkey

theorem aligned_of_getLast_eq (key : α → κ) (owner : β → κ) (hparts : ∀ a, f a ≠ [])
    (howner : ∀ a, ∀ b ∈ f a, owner b = key a) (hnodup : ((ts ++ entries log).map key).Nodup)
    (h : ∀ p, p <+: log → (standing (ts.flatMap f) (partsLog f p)).getLast?.map owner =
      (standing ts p).getLast?.map key) : Aligned f ts log := by
  apply aligned_of_prefixes _ h
  intro before n hbefore hlast hstanding
  have hsublist : (standing ts before).Sublist (ts ++ entries log) := by
    obtain ⟨rest, rfl⟩ := hbefore
    rw [standing_eq_net, append_assoc, entries_append]
    exact (take_sublist _ _).append ((kept_sublist_entries before).trans (sublist_append_left _ _))
  rw [standing_partsLog_concat_undo, hstanding, standing_append] at hlast
  exact alignedAt_of_getLast_eq hparts howner ((hsublist.map key).nodup hnodup) hlast

end

end Codex.Lib.UndoLog

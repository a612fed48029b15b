import Mathlib.Data.List.AList

/-! A table whose entries are values that a computation gave for their keys, at one time or
another. -/

namespace Codex.Lib.Memo

variable {κ β : Type} [DecidableEq κ] {P Q : κ → β → Prop} {table : AList fun _ : κ => β}

def Sound (P : κ → β → Prop) (table : AList fun _ : κ => β) : Prop :=
  ∀ k v, table.lookup k = some v → P k v

theorem sound_empty (P : κ → β → Prop) : Sound P ∅ := by
  intro k v h
  rw [AList.lookup_empty] at h
  cases h

theorem Sound.insert (h : Sound P table) {k : κ} {v : β} (hv : P k v) :
    Sound P (table.insert k v) := by
  intro k' v' hlookup
  by_cases hk : k' = k
  · subst hk
    rw [AList.lookup_insert] at hlookup
    rwa [← Option.some.inj hlookup]
  · rw [AList.lookup_insert_ne hk] at hlookup
    exact h k' v' hlookup

theorem Sound.erase (h : Sound P table) (k : κ) : Sound P (table.erase k) := by
  intro k' v hv
  by_cases hk : k' = k
  · subst hk
    rw [AList.lookup_erase] at hv
    cases hv
  · rw [AList.lookup_erase_ne hk] at hv
    exact h k' v hv

theorem Sound.lookup_getD (h : Sound P table) {k : κ} {v : β} (hv : P k v) :
    P k ((table.lookup k).getD v) := by
  cases hk : table.lookup k with
  | none => exact hv
  | some v' => exact h k v' hk

theorem Sound.mono (h : Sound P table) (hPQ : ∀ k ∈ table, ∀ v, P k v → Q k v) :
    Sound Q table := by
  intro k v hv
  have hk : k ∈ table := AList.lookup_isSome.mp (Option.isSome_of_eq_some hv)
  exact hPQ k hk v (h k v hv)

end Codex.Lib.Memo

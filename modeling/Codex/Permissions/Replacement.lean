import Codex.Permissions.Rules

/-! Some of the old rules are lost, and denies may be new. The new rules permit no more than the old
ones exactly when, at the root of every lost rule that decided there, a rule that permits more is
outdone by one that does not. -/

namespace Codex.Permissions.Rule

variable {α : Type} [DecidableEq α] {old new : List (Rule α)}

def OnlyDeniesAdded (old new : List (Rule α)) : Prop := ∀ r ∈ new, r.access ≠ .deny → r ∈ old

def Outdone (rules : List (Rule α)) (m s : Rule α) : Prop :=
  ∃ b ∈ rules, b.root <+: s.root ∧ b.access.level ≤ s.access.level ∧ m.key < b.key

def Shielded (rules : List (Rule α)) (s : Rule α) : Prop :=
  ∀ m ∈ rules, m.root <+: s.root → s.access.level < m.access.level → Outdone rules m s

theorem level_resolve_le_of_shielded {s : Rule α} (h : Shielded new s) :
    (resolve new s.root).level ≤ s.access.level := by
  rcases resolve_cases new s.root with ⟨m, hm, hr⟩ | ⟨_, hr⟩
  · rw [hr]
    by_contra hlt
    obtain ⟨b, hb, hc, _, hkey⟩ := h m hm.mem hm.covers (not_le.mp hlt)
    exact absurd (hm.max b hb hc) (not_le.mpr hkey)
  · rw [hr]
    exact Nat.zero_le _

theorem shielded_of_level_resolve_le {s : Rule α}
    (h : (resolve new s.root).level ≤ s.access.level) : Shielded new s := by
  intro m hm hc hlt
  obtain ⟨b, hb, hr⟩ := exists_decides hm hc
  rw [hr] at h
  refine ⟨b, hb.mem, hb.covers, h, lt_of_le_of_ne (hb.max m hm hc) ?_⟩
  intro hkey
  have hprecedence : m.access.precedence = b.access.precedence := by
    have hle := (key_le_iff m b).mp hkey.le
    have hge := (key_le_iff b m).mp hkey.ge
    omega
  rw [precedence_injective _ _ hprecedence] at hlt
  omega

theorem exists_lost_of_lt (h : OnlyDeniesAdded old new) {p : List α}
    (hlt : (resolve old p).level < (resolve new p).level) :
    ∃ s ∈ old, s ∉ new ∧ Decides old s.root s ∧ s.access.level < (resolve new s.root).level := by
  rcases resolve_cases new p with ⟨m, hm, hnew⟩ | ⟨_, hnew⟩
  · rw [hnew] at hlt
    have hread : m.access ≠ .deny := by
      intro hdeny
      rw [hdeny, level_deny] at hlt
      omega
    have hmold : m ∈ old := h m hm.mem hread
    obtain ⟨s, hs, hold⟩ := exists_decides hmold hm.covers
    rw [hold] at hlt
    have hkey := (key_le_iff m s).mp (hs.max m hmold hm.covers)
    have hlost : s ∉ new := by
      intro hsnew
      have hback := (key_le_iff s m).mp (hm.max s hsnew hs.covers)
      have hsame : m.access.precedence = s.access.precedence := by omega
      rw [precedence_injective _ _ hsame] at hlt
      omega
    have hroot : Decides new s.root m :=
      ⟨hm.mem, nested hm.covers hs.covers (by omega),
        fun r hr hc => hm.max r hr (hc.trans hs.covers)⟩
    refine ⟨s, hs.mem, hlost, hs.of_between List.prefix_rfl hs.covers, ?_⟩
    rw [hroot.resolve_eq]
    exact hlt
  · rw [hnew, level_deny] at hlt
    omega

/-- On any set of paths with the old roots in it, the new rules permit nothing more exactly when
every lost rule that decided at its root is shielded. -/
theorem resolve_le_iff (h : OnlyDeniesAdded old new) (S : Set (List α))
    (hS : ∀ r ∈ old, r.root ∈ S) :
    (∀ p ∈ S, (resolve new p).level ≤ (resolve old p).level) ↔
      ∀ s ∈ old, s ∉ new → Decides old s.root s → Shielded new s := by
  constructor
  · intro hle s hs _ hdecides
    have hbound := hle s.root (hS s hs)
    rw [hdecides.resolve_eq] at hbound
    exact shielded_of_level_resolve_le hbound
  · intro hshielded p _
    by_contra hlt
    obtain ⟨s, hs, hlost, hdecides, hmore⟩ := exists_lost_of_lt h (not_le.mp hlt)
    have hbound := level_resolve_le_of_shielded (hshielded s hs hlost hdecides)
    omega

/-- On such a set nothing is permitted exactly when every rule has a deny at its own root. -/
theorem resolve_eq_deny_iff (rules : List (Rule α)) (S : Set (List α))
    (hS : ∀ r ∈ rules, r.root ∈ S) :
    (∀ p ∈ S, resolve rules p = .deny) ↔ ∀ r ∈ rules, ⟨r.root, .deny⟩ ∈ rules := by
  constructor
  · intro hdeny r hr
    obtain ⟨w, hw, hres⟩ := exists_decides hr List.prefix_rfl
    have hkey := (key_le_iff r w).mp (hw.max r hr List.prefix_rfl)
    have hlength := hw.covers.length_le
    have hroot : w.root = r.root := hw.covers.eq_of_length (by omega)
    rw [hdeny r.root (hS r hr)] at hres
    rw [hres, ← hroot]
    exact hw.mem
  · intro hdenies p _
    rcases resolve_cases rules p with ⟨w, hw, hr⟩ | ⟨_, hr⟩
    · have hkey := (key_le_iff _ w).mp (hw.max _ (hdenies w hw.mem) hw.covers)
      have hprecedence : w.access.precedence = FileSystemAccessMode.deny.precedence := by
        have htop : w.access.precedence ≤ 2 := by cases w.access <;> decide
        simp only [FileSystemAccessMode.precedence] at hkey htop ⊢
        omega
      rw [hr, precedence_injective _ _ hprecedence]
    · exact hr

end Codex.Permissions.Rule

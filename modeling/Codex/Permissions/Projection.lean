import Codex.Permissions.ProtectedNames

/-! Rules given to a sandbox as independent roots. A root is judged by its own carve-outs and names
only, so a path below an outer root may be permitted although the name of an inner root protects it.
-/

namespace Codex.Permissions
open Rule List

/-- `native` are the paths there are, and `drive` the names of top-level directories that the rules
can tell nothing about.
`entries` are the roots that are projected, and `present` the names that are carved out of a root
because they exist. -/
structure Projection (α : Type) [DecidableEq α] where
  rules : List (Rule α)
  names : List α
  entries : List (Rule α)
  native : List α → Prop
  native_above : ∀ {p q}, native p → q <+: p → native q
  drive : α → Prop
  present : List α → α → Prop

namespace Projection

variable {α : Type} [DecidableEq α] (P : Projection α)

def Ordinary (p : List α) : Prop := ∀ c ∈ p.head?, ¬ P.drive c

def Writable (p : List α) : Prop := P.Ordinary p ∧ Opens P.rules P.names p

def IsRoot (w : List α) : Prop := ⟨w, .write⟩ ∈ P.entries ∧ P.Writable w

/-- An entry below `w` that does not permit writing, or a name right below `w` that cannot be
written or is present, is over `q`. -/
def CarvedOut (w q : List α) : Prop :=
  (∃ x ∈ P.entries, x.access ≠ .write ∧ ¬ P.Writable x.root ∧ w <+: x.root ∧ w ≠ x.root ∧
    x.root <+: q) ∨
  ∃ name ∈ P.names, w ++ [name] <+: q ∧ (¬ P.Writable (w ++ [name]) ∨ P.present w name)

def Permits (w p : List α) : Prop := w <+: p ∧ ¬ P.CarvedOut w p

/-- What the rules restrict strictly below `w` is carved out of `w`: the roots of rules that do not
permit writing, the protected names of writable rules, and the drives. -/
structure Guarded (w : List α) : Prop where
  restricted : ∀ d ∈ P.rules, d.access ≠ .write → Decides P.rules d.root d → P.native d.root →
    w <+: d.root → w ≠ d.root → P.CarvedOut w d.root
  nested : ∀ r ∈ P.rules, r.access = .write → w <+: r.root → w ≠ r.root → ∀ name ∈ P.names,
    P.native (r.root ++ [name]) → MetadataDenied P.rules P.names (r.root ++ [name]) →
      P.CarvedOut w (r.root ++ [name])
  foreign : w = [] → ∀ c, P.native [c] → P.drive c → P.CarvedOut w [c]

variable {P} {w p q : List α}

theorem CarvedOut.below (h : P.CarvedOut w q) (hq : q <+: p) : P.CarvedOut w p := by
  rcases h with ⟨x, hx, haccess, hclosed, hbelow, hne, hover⟩ | ⟨name, hname, hover, hclosed⟩
  · exact .inl ⟨x, hx, haccess, hclosed, hbelow, hne, hover.trans hq⟩
  · exact .inr ⟨name, hname, hover.trans hq, hclosed⟩

theorem Guarded.resolve_eq_write (h : P.Guarded w) (hw : P.IsRoot w) (hp : P.native p)
    (hpermits : P.Permits w p) : resolve P.rules p = .write := by
  obtain ⟨hover, hcarved⟩ := hpermits
  have hroot : resolve P.rules w = .write := hw.2.2.1
  obtain ⟨v, hv, _⟩ | ⟨_, hdeny⟩ := resolve_cases P.rules w
  · obtain ⟨d, hd, hresolve⟩ := exists_decides hv.mem (hv.covers.trans hover)
    rw [hresolve]
    by_contra haccess
    rcases List.prefix_or_prefix_of_prefix hd.covers hover with habove | hbelow
    · -- The rule decides the root as well.
      rw [(hd.of_between habove hover).resolve_eq] at hroot
      exact haccess hroot
    · by_cases heq : w = d.root
      · rw [heq, (hd.of_between prefix_rfl hd.covers).resolve_eq] at hroot
        exact haccess hroot
      · apply hcarved
        apply CarvedOut.below _ hd.covers
        exact h.restricted d hd.mem haccess (hd.of_between prefix_rfl hd.covers)
          (P.native_above hp hd.covers) hbelow heq
  · rw [hdeny] at hroot
    exact nomatch hroot

theorem Guarded.not_denied (h : P.Guarded w) (hw : P.IsRoot w) (hp : P.native p)
    (hpermits : P.Permits w p) : ¬ MetadataDenied P.rules P.names p := by
  obtain ⟨hover, hcarved⟩ := hpermits
  rintro ⟨directory, hfirst, hreopened⟩
  obtain ⟨r, hr, hwrite, name, hname, rfl, hdirectory⟩ := firstDirectory_spec hfirst
  have hdenied : MetadataDenied P.rules P.names (r.root ++ [name]) :=
    metadataDenied_of_between hfirst hreopened prefix_rfl hdirectory
  have hrover : r.root <+: p := (prefix_append r.root [name]).trans hdirectory
  by_cases heq : w = r.root
  · apply hcarved
    refine .inr ⟨name, hname, heq ▸ hdirectory, .inl fun hopen => ?_⟩
    rw [heq] at hopen
    exact hopen.2.2 hdenied
  · rcases List.prefix_or_prefix_of_prefix hrover hover with habove | hbelow
    · -- The root lies inside the directory, and nothing denies the root.
      have hlt := lt_of_le_of_ne habove.length_le fun hlen => heq (habove.eq_of_length hlen).symm
      have hinside : r.root ++ [name] <+: w := by
        apply prefix_of_prefix_length_le hdirectory hover
        rw [length_append, length_singleton]
        exact hlt
      exact hreopened (reopened_of_not_denied hw.2.2.2 hfirst hinside hover)
    · apply hcarved
      apply CarvedOut.below _ hdirectory
      exact h.nested r hr (by simpa [FileSystemAccessMode.canWrite] using hwrite) hbelow heq name
        hname (P.native_above hp hdirectory) hdenied

/-- The roots permit nothing that the rules forbid exactly when what the rules restrict below a
root is carved out of it. -/
theorem sound_iff :
    (∀ p, P.native p → (∃ w, P.IsRoot w ∧ P.Permits w p) → P.Writable p) ↔
      ∀ w, P.IsRoot w → P.Guarded w := by
  constructor
  · intro h w hw
    have hcarved : ∀ {q}, P.native q → w <+: q → ¬ P.Writable q → P.CarvedOut w q := by
      intro q hq hbelow hclosed
      by_contra hcarved
      exact hclosed (h q hq ⟨w, hw, hbelow, hcarved⟩)
    refine ⟨?_, ?_, ?_⟩
    · intro d _ haccess hd hnative hbelow _
      refine hcarved hnative hbelow fun hopen => haccess ?_
      exact hd.resolve_eq.symm.trans hopen.2.1
    · intro r _ _ hbelow _ name _ hnative hdenied
      refine hcarved hnative (hbelow.trans (prefix_append _ _)) fun hopen => ?_
      exact hopen.2.2 hdenied
    · rintro rfl c hc hdrive
      exact hcarved hc List.nil_prefix fun hopen => hopen.1 c rfl hdrive
  · rintro h p hp ⟨w, hw, hpermits⟩
    have hguarded := h w hw
    refine ⟨?_, hguarded.resolve_eq_write hw hp hpermits, hguarded.not_denied hw hp hpermits⟩
    rintro c hc hdrive
    obtain ⟨rest, rfl⟩ : ∃ rest, p = [c] ++ rest := by
      cases p with
      | nil => cases hc
      | cons d rest => exact ⟨rest, by rw [Option.some.inj hc, singleton_append]⟩
    have habove := prefix_append [c] rest
    cases w with
    | nil =>
      exact hpermits.2 ((hguarded.foreign rfl c (P.native_above hp habove) hdrive).below habove)
    | cons d w =>
      obtain ⟨rfl, _⟩ := cons_prefix_cons.mp hpermits.1
      exact hw.2.1 d rfl hdrive

end Projection

end Codex.Permissions

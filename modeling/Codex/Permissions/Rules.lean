import Codex.Permissions.Policy
import Mathlib.Data.List.Infix

/-! A rule gives an access to everything at or below its root, the deepest rule over a path decides
it, and deny wins over write and write over read at the same depth. -/

namespace Codex.Permissions
open Codex.Lib MaxByKey List

structure Rule (α : Type) where
  root : List α
  access : FileSystemAccessMode
  deriving DecidableEq

variable {α : Type} [DecidableEq α]

namespace Rule

def key (r : Rule α) : Nat ×ₗ Nat := toLex (r.root.length, r.access.precedence)

def resolve (rules : List (Rule α)) (p : List α) : FileSystemAccessMode :=
  ((maxByKey key (rules.filter fun r => r.root <+: p)).map access).getD .deny

omit [DecidableEq α] in
theorem key_le_iff (r s : Rule α) :
    r.key ≤ s.key ↔ r.root.length < s.root.length ∨
      (r.root.length = s.root.length ∧ r.access.precedence ≤ s.access.precedence) :=
  Prod.Lex.toLex_le_toLex

theorem precedence_injective (a b : FileSystemAccessMode) (h : a.precedence = b.precedence) :
    a = b := by
  cases a <;> cases b <;> first | rfl | exact absurd h (by decide)

@[simp] theorem level_deny : FileSystemAccessMode.deny.level = 0 := rfl
@[simp] theorem level_read : FileSystemAccessMode.read.level = 1 := rfl
@[simp] theorem level_write : FileSystemAccessMode.write.level = 2 := rfl

variable {a : FileSystemAccessMode} {rules : List (Rule α)} {p : List α}

theorem level_pos (h : a ≠ .deny) : 0 < a.level := by
  cases a with
  | deny => exact absurd rfl h
  | read | write => decide

theorem eq_deny_of_level (h : a.level < 1) : a = .deny := by
  by_contra hne
  have hpos := level_pos hne
  omega

theorem eq_write_of_level (h : 1 < a.level) : a = .write := by
  cases a with
  | write => rfl
  | deny | read => exact absurd h (by decide)

/-- `w` decides the access at `p`: it covers `p`, and no covering rule has a greater key. -/
structure Decides (rules : List (Rule α)) (p : List α) (w : Rule α) : Prop where
  mem : w ∈ rules
  covers : w.root <+: p
  max : ∀ r ∈ rules, r.root <+: p → r.key ≤ w.key

omit [DecidableEq α] in
theorem Decides.of_between {q : List α} {w : Rule α} (h : Decides rules p w) (hw : w.root <+: q)
    (hq : q <+: p) : Decides rules q w :=
  ⟨h.mem, hw, fun r hr hover => h.max r hr (hover.trans hq)⟩

theorem resolve_cases (rules : List (Rule α)) (p : List α) :
    (∃ w, Decides rules p w ∧ resolve rules p = w.access) ∨
      ((∀ r ∈ rules, ¬ r.root <+: p) ∧ resolve rules p = .deny) := by
  cases hm : maxByKey key (rules.filter fun r => r.root <+: p) with
  | none =>
    have hnil := (maxByKey_eq_none_iff key _).mp hm
    refine .inr ⟨fun r hr hc => ?_, by rw [resolve, hm]; rfl⟩
    have hmem : r ∈ rules.filter fun r => r.root <+: p := mem_filter.mpr ⟨hr, by simpa using hc⟩
    rw [hnil] at hmem
    exact absurd hmem not_mem_nil
  | some w =>
    obtain ⟨hw, hmax⟩ := maxByKey_spec key hm
    have hw' := mem_filter.mp hw
    refine .inl ⟨w, ⟨hw'.1, by simpa using hw'.2, fun r hr hc => ?_⟩, by rw [resolve, hm]; rfl⟩
    exact hmax r (mem_filter.mpr ⟨hr, by simpa using hc⟩)

theorem exists_decides {r : Rule α} (hr : r ∈ rules) (hc : r.root <+: p) :
    ∃ w, Decides rules p w ∧ resolve rules p = w.access := by
  rcases resolve_cases rules p with h | ⟨hnone, _⟩
  · exact h
  · exact absurd hc (hnone r hr)

omit [DecidableEq α] in
theorem Decides.key_unique {v w : Rule α} (hv : Decides rules p v) (hw : Decides rules p w) :
    v.access = w.access := by
  have h1 := (key_le_iff v w).mp (hw.max v hv.mem hv.covers)
  have h2 := (key_le_iff w v).mp (hv.max w hw.mem hw.covers)
  exact precedence_injective v.access w.access (by omega)

theorem Decides.resolve_eq {w : Rule α} (hw : Decides rules p w) : resolve rules p = w.access := by
  obtain ⟨v, hv, hr⟩ := exists_decides hw.mem hw.covers
  rw [hr, hv.key_unique hw]

theorem resolve_congr {rules' : List (Rule α)} (h : ∀ r, r ∈ rules ↔ r ∈ rules') (p : List α) :
    resolve rules p = resolve rules' p := by
  rcases resolve_cases rules p with ⟨w, hw, hr⟩ | ⟨hnone, hr⟩
  · have hw' : Decides rules' p w :=
      ⟨(h w).mp hw.mem, hw.covers, fun r hr' => hw.max r ((h r).mpr hr')⟩
    rw [hr, hw'.resolve_eq]
  · rcases resolve_cases rules' p with ⟨w, hw, _⟩ | ⟨_, hr'⟩
    · exact absurd hw.covers (hnone w ((h w).mpr hw.mem))
    · rw [hr, hr']

omit [DecidableEq α] in
theorem nested {r s : Rule α} (hr : r.root <+: p) (hs : s.root <+: p)
    (h : r.root.length ≤ s.root.length) : r.root <+: s.root :=
  prefix_of_prefix_length_le hr hs h

/-- Added grants lower the access at a path exactly when it was writable and a grant to read over
it is more specific than everything that gives write access. -/
theorem level_le_append_iff {base grants : List (Rule α)} (hgrants : ∀ g ∈ grants, g.access ≠ .deny)
    (p : List α) :
    (resolve base p).level ≤ (resolve (base ++ grants) p).level ↔
      (resolve base p = .write → ∀ g ∈ grants, g.access = .read → g.root <+: p →
        ∃ w ∈ base ++ grants, w.access = .write ∧ w.root <+: p ∧ g.root <+: w.root) := by
  constructor
  · intro hle hwrite g hg _ hcovers
    obtain ⟨w, hw, hresolve⟩ := exists_decides (mem_append_right base hg) hcovers
    rw [hwrite, hresolve] at hle
    have hkey := (key_le_iff g w).mp (hw.max g (mem_append_right base hg) hcovers)
    exact ⟨w, hw.mem, eq_write_of_level hle, hw.covers, nested hcovers hw.covers (by omega)⟩
  · intro hoverridden
    rcases resolve_cases base p with ⟨b, hb, hbase⟩ | ⟨-, hbase⟩
    · have hbmem := mem_append_left grants hb.mem
      obtain ⟨m, hm, hmerged⟩ := exists_decides hbmem hb.covers
      have hbm := (key_le_iff b m).mp (hm.max b hbmem hb.covers)
      rw [hbase, hmerged]
      rcases mem_append.mp hm.mem with hmem | hmem
      · have hmb := (key_le_iff m b).mp (hb.max m hmem hm.covers)
        rw [precedence_injective b.access m.access (by omega)]
      · by_contra hlt
        have hpos := level_pos (hgrants m hmem)
        have hbwrite : b.access = .write := eq_write_of_level (by omega)
        have hmread : m.access = .read := by
          cases hma : m.access with
          | read => rfl
          | write => simp [hma, hbwrite] at hlt
          | deny => exact absurd hma (hgrants m hmem)
        obtain ⟨w, hw, hwrite, hcovers, hbelow⟩ :=
          hoverridden (hbase.trans hbwrite) m hmem hmread hm.covers
        have hkey := (key_le_iff w m).mp (hm.max w hw hcovers)
        rw [hwrite, hmread] at hkey
        have hlength := hbelow.length_le
        simp only [FileSystemAccessMode.precedence] at hkey
        omega
    · rw [hbase]
      exact Nat.zero_le _

/-- A grant that the request covers: readable, within the access requested at its root, and not
below a denied root other than the root of the file system. -/
structure Within (req : List (Rule α)) (e : Rule α) : Prop where
  readable : e.access ≠ .deny
  covered : e.access.level ≤ (resolve req e.root).level
  not_denied : ∀ d ∈ req, d.access = .deny → d.root ≠ [] → ¬ d.root <+: e.root

/-- What an intersection consists of: the grants within the request, and denies of either side,
among them all that lie above or below an accepted grant. -/
structure IsIntersection (req grant res : List (Rule α)) : Prop where
  readable : ∀ e ∈ res, e.access ≠ .deny → e ∈ grant ∧ Within req e
  accepted : ∀ e ∈ grant, Within req e → e ∈ res
  denied : ∀ d ∈ res, d.access = .deny → d ∈ req ∨ d ∈ grant
  retained : ∀ d, d ∈ req ∨ d ∈ grant → d.access = .deny →
    ∀ e ∈ res, e.access ≠ .deny → e.root <+: d.root ∨ d.root <+: e.root → d ∈ res

namespace IsIntersection

variable {req grant res : List (Rule α)}

variable {e : Rule α}

section
variable (h : IsIntersection req grant res)
include h

theorem no_deeper_deny {p : List α} {d : Rule α} (he : Decides res p e) (hread : e.access ≠ .deny)
    (hd : d ∈ req ∨ d ∈ grant) (hdeny : d.access = .deny) (hc : d.root <+: p) :
    d.root.length < e.root.length := by
  by_contra hlen
  have hover : e.root <+: d.root := nested he.covers hc (by omega)
  have hmem := h.retained d hd hdeny e he.mem hread (.inl hover)
  have hkey := (key_le_iff d e).mp (he.max d hmem hc)
  have hprec : d.access.precedence = 2 := by rw [hdeny]; rfl
  have hnot : e.access.precedence ≠ 2 := fun h2 =>
    hread (precedence_injective e.access .deny h2)
  have hbound : e.access.precedence ≤ 2 := by cases e.access <;> decide
  omega

theorem requested_at_root (he : e ∈ res) (hread : e.access ≠ .deny) :
    ∃ q, Decides req e.root q ∧ e.access.level ≤ q.access.level := by
  have hw := (h.readable e he hread).2
  rcases resolve_cases req e.root with ⟨q, hq, hr⟩ | ⟨_, hr⟩
  · exact ⟨q, hq, hr ▸ hw.covered⟩
  · have hpos := level_pos hread
    have hle := hw.covered
    rw [hr, level_deny] at hle
    omega

theorem requested_decides {p : List α} (he : Decides res p e) (hread : e.access ≠ .deny) :
    ∃ q, Decides req p q ∧ q.access ≠ .deny ∧
      (q.access.level < e.access.level → e.root.length < q.root.length) := by
  obtain ⟨q0, hq0, hlevel⟩ := h.requested_at_root he.mem hread
  have hcov : q0.root <+: p := hq0.covers.trans he.covers
  obtain ⟨q, hq, _⟩ := exists_decides hq0.mem hcov
  -- Above or at the grant's root, `q` and `q0` decide the same access.
  have hsame : q.root.length ≤ e.root.length → q.access = q0.access := by
    intro hlen
    have hqe : q.root <+: e.root := nested hq.covers he.covers hlen
    have h1 := (key_le_iff q q0).mp (hq0.max q hq.mem hqe)
    have h2 := (key_le_iff q0 q).mp (hq.max q0 hq0.mem hcov)
    exact precedence_injective _ _ (by omega)
  refine ⟨q, hq, fun hdeny => ?_, fun hlt => ?_⟩
  · have hlen := h.no_deeper_deny he hread (.inl hq.mem) hdeny hq.covers
    have hq0deny : q0.access = .deny := (hsame (by omega)).symm.trans hdeny
    have hpos := level_pos hread
    rw [hq0deny, level_deny] at hlevel
    omega
  · by_contra hlen
    rw [hsame (by omega)] at hlt
    omega

theorem le_granted (p : List α) : (resolve res p).level ≤ (resolve grant p).level := by
  rcases resolve_cases res p with ⟨e, he, hre⟩ | ⟨_, hre⟩
  · by_cases hread : e.access = .deny
    · rw [hre, hread]
      exact Nat.zero_le _
    · obtain ⟨heg, hwithin⟩ := h.readable e he.mem hread
      obtain ⟨g, hg, hrg⟩ := exists_decides heg he.covers
      have hkey := (key_le_iff e g).mp (hg.max e heg he.covers)
      rw [hre, hrg]
      cases hga : g.access with
      | write => cases e.access <;> decide
      | deny =>
        have hlen := h.no_deeper_deny he hread (.inr hg.mem) hga hg.covers
        omega
      | read =>
        by_contra hlt
        have hew : e.access = .write := eq_write_of_level (not_le.mp hlt)
        have hlen : e.root.length < g.root.length := by
          rw [hew, hga] at hkey
          simp only [FileSystemAccessMode.precedence] at hkey
          omega
        -- The grant's own narrower rule must have been rejected, or it would decide here.
        have hrej : ¬ Within req g := by
          intro hw
          have hk := (key_le_iff g e).mp (he.max g (h.accepted g hg.mem hw) hg.covers)
          omega
        refine hrej ⟨by rw [hga]; decide, ?_, ?_⟩
        · -- A deny that decides the request at `g` lies below `e`.
          obtain ⟨q, hq, hlevel⟩ := h.requested_at_root he.mem hread
          have heg' : e.root <+: g.root := nested he.covers hg.covers hlen.le
          obtain ⟨d, hd, hrd⟩ := exists_decides hq.mem (hq.covers.trans heg')
          rw [hrd, hga]
          by_contra hdl
          have hdeny : d.access = .deny := eq_deny_of_level (not_le.mp hdl)
          have hdlen := h.no_deeper_deny he hread (.inl hd.mem) hdeny (hd.covers.trans hg.covers)
          have hde : d.root <+: e.root := nested hd.covers heg' hdlen.le
          have h1 := (key_le_iff d q).mp (hq.max d hd.mem hde)
          have h2 := (key_le_iff q d).mp (hd.max q hq.mem (hq.covers.trans heg'))
          have hqd : q.access = .deny := (precedence_injective _ _ (by omega)).trans hdeny
          simp [hew, hqd] at hlevel
        · intro d hd hdeny hroot hdg
          have hdlen := h.no_deeper_deny he hread (.inl hd) hdeny (hdg.trans hg.covers)
          exact hwithin.not_denied d hd hdeny hroot
            (nested (hdg.trans hg.covers) he.covers hdlen.le)
  · rw [hre]
    exact Nat.zero_le _

end

/-- Something of the inputs stands between the grant `e` and the requested root `r` below it: a
deny at or below `e`, or a narrower grant to read that the request covers. -/
def Blocked (req grant : List (Rule α)) (e : Rule α) (r : List α) : Prop :=
  (∃ d, (d ∈ req ∨ d ∈ grant) ∧ d.access = .deny ∧ d.root <+: r ∧
    e.root.length ≤ d.root.length) ∨
  (∃ g ∈ grant, g.access = .read ∧ Within req g ∧ g.root <+: r ∧ e.root.length < g.root.length)

theorem not_blocked_of_decides (h : IsIntersection req grant res) {r : List α}
    (he : Decides res r e) (hew : e.access = .write) : ¬ Blocked req grant e r := by
  have hread : e.access ≠ .deny := by rw [hew]; decide
  rintro (⟨d, hd, hdeny, hc, hlen⟩ | ⟨g, hg, hga, hw, hc, hlen⟩)
  · have := h.no_deeper_deny he hread hd hdeny hc
    omega
  · have hk := (key_le_iff g e).mp (he.max g (h.accepted g hg hw) hc)
    omega

theorem resolve_write_of_not_blocked (h : IsIntersection req grant res) {r : List α}
    (he : e ∈ grant) (hew : e.access = .write) (hw : Within req e) (hc : e.root <+: r)
    (hb : ¬ Blocked req grant e r) : resolve res r = .write := by
  obtain ⟨w, hwd, hr⟩ := exists_decides (h.accepted e he hw) hc
  have hk := (key_le_iff e w).mp (hwd.max e (h.accepted e he hw) hc)
  rw [hr]
  cases hwa : w.access with
  | write => rfl
  | deny =>
    refine absurd (.inl ⟨w, h.denied w hwd.mem hwa, hwa, hwd.covers, ?_⟩) hb
    omega
  | read =>
    have hread : w.access ≠ .deny := by rw [hwa]; decide
    obtain ⟨hwg, hww⟩ := h.readable w hwd.mem hread
    refine absurd (.inr ⟨w, hwg, hwa, hww, hwd.covers, ?_⟩) hb
    rw [hew, hwa] at hk
    simp only [FileSystemAccessMode.precedence] at hk
    omega

/-- On any set of paths with the requested roots in it, the intersection permits nothing beyond
the request exactly when every root that the request opens for reading only is kept apart from
the accepted write grants above it. -/
theorem le_requested_iff (h : IsIntersection req grant res) (S : Set (List α))
    (hS : ∀ q ∈ req, q.root ∈ S) :
    (∀ p ∈ S, (resolve res p).level ≤ (resolve req p).level) ↔
      ∀ q ∈ req, q.access = .read → resolve req q.root = .read →
        ∀ e ∈ grant, e.access = .write → Within req e → e.root <+: q.root →
          Blocked req grant e q.root := by
  constructor
  · intro hle q hq _ hres e he hew hw hc
    by_contra hb
    have hwrite := h.resolve_write_of_not_blocked he hew hw hc hb
    have hbound := hle q.root (hS q hq)
    simp [hwrite, hres] at hbound
  · intro hblocked p _
    by_contra hlt
    have hlt := not_le.mp hlt
    rcases resolve_cases res p with ⟨e, he, hre⟩ | ⟨_, hre⟩
    · rw [hre] at hlt
      have hread : e.access ≠ .deny := by
        intro hdeny
        simp [hdeny] at hlt
      obtain ⟨q, hq, hqread, hdeeper⟩ := h.requested_decides he hread
      rw [hq.resolve_eq] at hlt
      have hqpos := level_pos hqread
      have hew : e.access = .write := eq_write_of_level (by omega)
      have hqa : q.access = .read := by
        cases hqa : q.access with
        | read => rfl
        | write => simp [hqa, hew] at hlt
        | deny => exact absurd hqa hqread
      have hlen := hdeeper hlt
      -- The excess at `p` is there at the requested root already.
      have hqroot : Decides req q.root q :=
        ⟨hq.mem, prefix_rfl, fun r hr hc => hq.max r hr (hc.trans hq.covers)⟩
      have heroot : Decides res q.root e :=
        ⟨he.mem, nested he.covers hq.covers hlen.le,
          fun r hr hc => he.max r hr (hc.trans hq.covers)⟩
      obtain ⟨heg, hw⟩ := h.readable e he.mem hread
      exact h.not_blocked_of_decides heroot hew
        (hblocked q hq.mem hqa (hqroot.resolve_eq.trans hqa) e heg hew hw heroot.covers)
    · rw [hre] at hlt
      simp at hlt

end IsIntersection

end Rule

end Codex.Permissions

import Mathlib.Data.List.Basic
import Mathlib.Data.Nat.Find

/-! A conversation as a stack of turns, the newest of which may be open. The turns below a turn stay
as they are while it stands. -/

namespace Codex.Lib.TurnStack
open List Option

variable {ι : Type} [DecidableEq ι]

/-- How an open turn came about: started by name, opened by a mark, or opened by its contents. -/
inductive Kind
  | started
  | bare
  | filled
  deriving DecidableEq

structure Open (ι : Type) where
  id : ι
  kind : Kind

structure Stack (ι : Type) where
  finished : List ι
  current : Option (Open ι)

inductive Use (ι : Type)
  | idle
  | into (id : ι)
  | here
  | mark
  | message
  | named (id : ι)
  | start (id : ι)
  | complete (id : ι)
  | rollback (n : Nat)

def Open.fill (o : Open ι) : Open ι := if o.kind = .bare then { o with kind := .filled } else o

omit [DecidableEq ι] in
@[simp] theorem Open.id_fill (o : Open ι) : o.fill.id = o.id := by
  rw [Open.fill]
  split <;> rfl

namespace Stack

def shown (s : Stack ι) : List ι := s.finished ++ (s.current.map (·.id)).toList

def finish (s : Stack ι) : Stack ι := ⟨s.shown, none⟩

def into (s : Stack ι) (id : ι) : Stack ι :=
  { s with current := s.current.map fun o => if o.id = id then o.fill else o }

def message (s : Stack ι) (fresh : ι) : Stack ι :=
  match s.current with
  | none => { s with current := some ⟨fresh, .filled⟩ }
  | some o =>
    if o.kind = .filled then ⟨s.shown, some ⟨fresh, .filled⟩⟩ else { s with current := some o.fill }

/-- `fresh` is the id of a turn that is opened without a name. -/
def step (s : Stack ι) (fresh : ι) : Use ι → Stack ι
  | .idle => s
  | .into id => s.into id
  | .here => { s with current := some ((s.current.map Open.fill).getD ⟨fresh, .filled⟩) }
  | .mark => { s with current := some (s.current.getD ⟨fresh, .bare⟩) }
  | .message => s.message fresh
  | .named id => if id ∈ s.shown then s.into id else ⟨s.shown, some ⟨id, .filled⟩⟩
  | .start id => ⟨s.shown, some ⟨id, .started⟩⟩
  | .complete id =>
    if s.current.any (·.id = id) then s.finish else if id ∈ s.finished then s else s.finish
  | .rollback n => ⟨s.shown.take (s.shown.length - n), none⟩

def opens (s : Stack ι) (fresh : ι) : Use ι → Option ι
  | .here => if s.current.isNone then some fresh else none
  | .mark => if s.current.isNone then some fresh else none
  | .message => if s.current.all (·.kind = .filled) then some fresh else none
  | .named id => if id ∈ s.shown then none else some id
  | .start id => some id
  | _ => none

def run (gen : Nat → ι) (s : Stack ι) (i : Nat) : List (Use ι) → Stack ι
  | [] => s
  | u :: us => run gen (s.step (gen i) u) (i + 1) us

end Stack

open Stack

omit [DecidableEq ι] in
@[simp] theorem shown_finish (s : Stack ι) : s.finish.shown = s.shown := by
  simp [finish, shown]

@[simp] theorem shown_into (s : Stack ι) (id : ι) : (s.into id).shown = s.shown := by
  rw [into, shown, shown, Option.map_map]
  have hid : (fun o : Open ι => o.id) ∘ (fun o => if o.id = id then o.fill else o) =
      fun o => o.id := by
    funext o
    simp only [Function.comp]
    split <;> simp
  rw [hid]

theorem shown_rollback (s : Stack ι) (fresh : ι) (n : Nat) :
    (s.step fresh (.rollback n)).shown = s.shown.take (s.shown.length - n) := by
  simp [step, shown]

def Use.isRollback : Use ι → Bool
  | .rollback _ => true
  | _ => false

theorem shown_step (s : Stack ι) (fresh : ι) {u : Use ι} (hu : u.isRollback = false) :
    (s.step fresh u).shown = s.shown ++ (s.opens fresh u).toList := by
  obtain ⟨finished, current⟩ := s
  cases u with
  | idle => exact (append_nil _).symm
  | into id => exact (shown_into _ id).trans (append_nil _).symm
  | here => cases current <;> simp [step, opens, shown]
  | mark => cases current <;> simp [step, opens, shown]
  | message =>
    cases current with
    | none => simp [step, opens, shown, message]
    | some o =>
      by_cases hkind : o.kind = .filled <;> simp [step, opens, shown, message, hkind]
  | named id =>
    simp only [step, opens]
    split
    · exact (shown_into _ id).trans (append_nil _).symm
    · rfl
  | start id => rfl
  | complete id =>
    simp only [step, opens]
    split
    · exact (shown_finish _).trans (append_nil _).symm
    · split
      · exact (append_nil _).symm
      · exact (shown_finish _).trans (append_nil _).symm
  | rollback n => exact nomatch hu

variable {gen : Nat → ι} {t : ι}

theorem run_append (s : Stack ι) (i : Nat) (us vs : List (Use ι)) :
    s.run gen i (us ++ vs) = (s.run gen i us).run gen (i + us.length) vs := by
  induction us generalizing s i with
  | nil => rfl
  | cons u us ih =>
    rw [cons_append, run, run, ih, length_cons,
      show i + 1 + us.length = i + (us.length + 1) by omega]

theorem opens_eq_some {s : Stack ι} {fresh : ι} {u : Use ι} (h : s.opens fresh u = some t) :
    fresh = t ∨ u = .start t ∨ (u = .named t ∧ t ∉ s.shown) := by
  cases u with
  | here | mark | message =>
    rw [opens, ite_none_right_eq_some] at h
    exact .inl (Option.some.inj h.2)
  | named id =>
    rw [opens, ite_none_left_eq_some] at h
    obtain rfl := Option.some.inj h.2
    exact .inr (.inr ⟨rfl, h.1⟩)
  | start id =>
    obtain rfl := Option.some.inj h
    exact .inr (.inl rfl)
  | _ => exact nomatch h

theorem step_cases (s : Stack ι) (fresh : ι) (u : Use ι) :
    (∃ x, s.opens fresh u = some x ∧ (s.step fresh u).shown = s.shown ++ [x]) ∨
      ∃ k, (s.step fresh u).shown = s.shown.take k := by
  cases hrollback : u.isRollback with
  | true =>
    cases u with
    | rollback n => exact .inr ⟨_, shown_rollback s fresh n⟩
    | _ => exact nomatch hrollback
  | false =>
    have hstep := shown_step s fresh hrollback
    cases hopens : s.opens fresh u with
    | some x => exact .inl ⟨x, rfl, by rw [hstep, hopens]; rfl⟩
    | none => exact .inr ⟨s.shown.length, by rw [hstep, hopens, take_length]; exact append_nil _⟩

/-! What is shown at each moment of a conversation: a step puts one turn on top or takes some
off. -/

section Trace

variable {f : Nat → List ι} {a n : Nat}

def Trace (f : Nat → List ι) (n : Nat) : Prop :=
  ∀ i < n, (∃ x, f (i + 1) = f i ++ [x]) ∨ ∃ k, f (i + 1) = (f i).take k

variable (hf : Trace f n) (ht : t ∉ f a) (hstays : ∀ i, a < i → i ≤ n → t ∈ f i)
include hf ht hstays

omit [DecidableEq ι] in
/-- While `t` is shown, the turns below it are those that were shown when it came. -/
theorem below_of_stays {i : Nat} (hai : a < i) (hin : i ≤ n) :
    ∃ above, f i = f a ++ t :: above := by
  induction i, hai using Nat.le_induction with
  | base =>
    have hmem := hstays (a + 1) (Nat.lt_succ_self a) hin
    rcases hf a hin with ⟨x, hx⟩ | ⟨k, hk⟩
    · rw [hx, mem_append, mem_singleton] at hmem
      obtain rfl := hmem.resolve_left ht
      exact ⟨[], hx⟩
    · rw [hk] at hmem
      exact absurd (mem_of_mem_take hmem) ht
  | succ i hai ih =>
    obtain ⟨above, habove⟩ := ih (by omega)
    rcases hf i hin with ⟨x, hx⟩ | ⟨k, hk⟩
    · refine ⟨above ++ [x], ?_⟩
      rw [hx, habove, append_assoc, cons_append]
    · have hmem := hstays (i + 1) (by omega) hin
      rw [hk, habove] at hmem ⊢
      by_cases hle : k ≤ (f a).length
      · rw [take_append_of_le_length hle] at hmem
        exact absurd (mem_of_mem_take hmem) ht
      · obtain ⟨m, rfl⟩ := Nat.exists_eq_add_of_lt (Nat.lt_of_not_le hle)
        refine ⟨above.take m, ?_⟩
        rw [show (f a).length + m + 1 = (f a).length + (m + 1) by omega,
          take_length_add_append, take_succ_cons]

omit [DecidableEq ι] in
/-- `t` is on top at the end exactly when every turn that came after it has been taken off. -/
theorem top_iff (han : a < n) :
    f n = f a ++ [t] ↔ ∀ i < n, a < i → (f i).length < (f (i + 1)).length →
      ∃ j ≤ n, i < j ∧ (f j).length ≤ (f i).length := by
  have hlength : ∀ i, a < i → i ≤ n → (f a).length + 1 ≤ (f i).length := by
    intro i hai hin
    obtain ⟨above, habove⟩ := below_of_stays hf ht hstays hai hin
    rw [habove, length_append, length_cons]
    omega
  constructor
  · intro htop i hin hai _
    refine ⟨n, le_rfl, hin, ?_⟩
    rw [htop, length_append, length_singleton]
    exact hlength i hai (Nat.le_of_lt hin)
  · intro hoff
    have hfirst : a < a + 1 ∧ (f (a + 1)).length = (f a).length + 1 := by
      refine ⟨Nat.lt_succ_self a, le_antisymm ?_ (hlength _ (Nat.lt_succ_self a) han)⟩
      rcases hf a han with ⟨x, hx⟩ | ⟨k, hk⟩
      · rw [hx, length_append, length_singleton]
      · rw [hk, length_take]
        omega
    -- the last moment at which nothing is on top of `t`
    obtain ⟨i, hin, ⟨hai, hlen⟩, hmax⟩ : ∃ i ≤ n, (a < i ∧ (f i).length = (f a).length + 1) ∧
        ∀ j, i < j → j ≤ n → ¬ (a < j ∧ (f j).length = (f a).length + 1) :=
      ⟨_, Nat.findGreatest_le n, Nat.findGreatest_spec (P := fun i => a < i ∧
        (f i).length = (f a).length + 1) (Nat.succ_le_of_lt han) hfirst,
        fun _ hij hjn => Nat.findGreatest_is_greatest hij hjn⟩
    obtain rfl : i = n := by
      by_contra hne
      have hlt : i < n := lt_of_le_of_ne hin hne
      have hmin := hlength (i + 1) (by omega) hlt
      have hnext := hmax (i + 1) (Nat.lt_succ_self i) hlt
      obtain ⟨j, hjn, hij, hle⟩ := hoff i hlt hai (by omega)
      exact hmax j hij hjn ⟨by omega, le_antisymm (by omega) (hlength j (by omega) hjn)⟩
    obtain ⟨above, habove⟩ := below_of_stays hf ht hstays han le_rfl
    rw [habove, length_append, length_cons] at hlen
    rw [habove, length_eq_zero_iff.mp (show above.length = 0 by omega)]

end Trace

end Codex.Lib.TurnStack

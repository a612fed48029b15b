import Mathlib.Logic.Function.Basic
import Mathlib.Data.List.Basic

/-! As long as a key is only taken when no job of it is pending, a pending job whose key has an
owner is the job of that owner. -/

namespace Codex.Lib
open Function

structure Registry (κ ι : Type) where
  owner : κ → Option ι
  pending : List (κ × ι)

namespace Registry

variable {κ ι : Type}

/-- A pending job whose key has an owner is the job of that owner. -/
def JobsOwn (r : Registry κ ι) : Prop :=
  ∀ job ∈ r.pending, ∀ i, r.owner job.1 = some i → i = job.2

theorem JobsOwn.mono {r r' : Registry κ ι} (h : r.JobsOwn)
    (howner : ∀ k i, r'.owner k = some i → r.owner k = some i)
    (hpending : ∀ job ∈ r'.pending, job ∈ r.pending) : r'.JobsOwn :=
  fun job hjob i hi => h job (hpending job hjob) i (howner job.1 i hi)

variable [DecidableEq κ]

def close (r : Registry κ ι) (k : κ) : Registry κ ι :=
  { r with owner := Function.update r.owner k none }

def register (r : Registry κ ι) (k : κ) (i : ι) : Registry κ ι :=
  ⟨Function.update r.owner k (some i), r.pending ++ [(k, i)]⟩

variable {r : Registry κ ι} {k k' : κ} {i : ι}

theorem close_of_none (h : r.owner k = none) : r.close k = r := by
  rw [close, ← h, update_eq_self]

@[simp] theorem owner_close_self : (r.close k).owner k = none := update_self _ _ _

theorem owner_close_of_ne (h : k' ≠ k) : (r.close k).owner k' = r.owner k' :=
  update_of_ne h _ _

@[simp] theorem owner_register_self : (r.register k i).owner k = some i :=
  update_self _ _ _

theorem owner_register_of_ne (h : k' ≠ k) : (r.register k i).owner k' = r.owner k' :=
  update_of_ne h _ _

@[simp] theorem register_close : (r.close k).register k i = r.register k i := by
  simp [register, close]

theorem owner_of_close (h : (r.close k).owner k' = some i) : r.owner k' = some i := by
  by_cases hk : k' = k
  · subst hk
    rw [owner_close_self] at h
    cases h
  · rwa [owner_close_of_ne hk] at h

theorem JobsOwn.close (h : r.JobsOwn) (k : κ) : (r.close k).JobsOwn :=
  h.mono (fun _ _ => owner_of_close) fun _ hjob => hjob

theorem JobsOwn.register (h : r.JobsOwn) (hfree : ∀ job ∈ r.pending, job.1 ≠ k) (i : ι) :
    (r.register k i).JobsOwn := by
  intro job hjob j hj
  rcases List.mem_append.mp hjob with hjob | hjob
  · rw [owner_register_of_ne (hfree job hjob)] at hj
    exact h job hjob j hj
  · rw [List.mem_singleton.mp hjob] at hj ⊢
    rw [owner_register_self] at hj
    exact (Option.some.inj hj).symm

end Registry

end Codex.Lib

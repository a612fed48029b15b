import Mathlib.Logic.Basic

/-! A program that stops early keeps the state it has reached. `Triple P m Q E` says that from a
state with `P` the program either returns with `Q` or fails in a state with `E`. -/

namespace Codex.Lib

theorem exists_of_bind_eq_ok {ε α β : Type} {x : Except ε α} {f : α → Except ε β} {b : β}
    (h : x >>= f = .ok b) : ∃ a, x = .ok a ∧ f a = .ok b := by
  cases x with
  | error e => exact nomatch h
  | ok a => exact ⟨a, rfl, h⟩

theorem toOption_eq_some_iff {ε α : Type} {x : Except ε α} {a : α} :
    x.toOption = some a ↔ x = .ok a := by
  cases x <;> simp [Except.toOption]

theorem eq_ok_of_toOption {ε α : Type} {x : Except ε α} {a : α} (h : x.toOption = some a) :
    x = .ok a :=
  toOption_eq_some_iff.mp h

theorem toOption_bind_congr {ε α β : Type} {x y : Except ε α} {f : α → Except ε β}
    (h : x.toOption = y.toOption) : (x >>= f).toOption = (y >>= f).toOption := by
  cases x with
  | ok a => rw [eq_ok_of_toOption h.symm]
  | error e =>
    cases y with
    | ok b => exact nomatch h
    | error e' => rfl

theorem ok_bind {ε α β : Type} (a : α) (f : α → Except ε β) : (Except.ok a >>= f) = f a := rfl

theorem foldlM_append_of_ok {ε α σ : Type} {f : σ → α → Except ε σ} {xs : List α} {s s' : σ}
    (h : xs.foldlM f s = .ok s') (ys : List α) : (xs ++ ys).foldlM f s = ys.foldlM f s' := by
  rw [List.foldlM_append, h, ok_bind]

abbrev Fallible (ε σ α : Type) := ExceptT ε (StateM σ) α

namespace Fallible

variable {ε σ α β : Type}

def exec (m : Fallible ε σ α) (s : σ) : Except ε α × σ := m.run.run s

def Triple (P : σ → Prop) (m : Fallible ε σ α) (Q : α → σ → Prop) (E : σ → Prop) : Prop :=
  ∀ s, P s →
    match m.exec s with
    | (.ok a, s') => Q a s'
    | (.error _, s') => E s'

@[simp] theorem exec_pure (a : α) (s : σ) : (pure a : Fallible ε σ α).exec s = (.ok a, s) := rfl

@[simp] theorem exec_throw (e : ε) (s : σ) :
    (throw e : Fallible ε σ α).exec s = (.error e, s) := rfl

@[simp] theorem exec_get (s : σ) : (get : Fallible ε σ σ).exec s = (.ok s, s) := rfl

@[simp] theorem exec_modify (f : σ → σ) (s : σ) :
    (modify f : Fallible ε σ PUnit).exec s = (.ok ⟨⟩, f s) := rfl

@[simp] theorem exec_modifyGet (f : σ → α × σ) (s : σ) :
    (modifyGet f : Fallible ε σ α).exec s = (.ok (f s).1, (f s).2) := rfl

theorem exec_bind (m : Fallible ε σ α) (f : α → Fallible ε σ β) (s : σ) :
    (m >>= f).exec s =
      match m.exec s with
      | (.ok a, s') => (f a).exec s'
      | (.error e, s') => (.error e, s') := by
  change (ExceptT.bindCont (fun a => f a) (m.exec s).1).run (m.exec s).2 = _
  rcases m.exec s with ⟨r, s'⟩
  cases r <;> rfl

variable {P : σ → Prop} {Q : α → σ → Prop} {R : β → σ → Prop} {E : σ → Prop}

theorem Triple.pure {a : α} (h : ∀ s, P s → Q a s) : Triple P (pure a : Fallible ε σ α) Q E := by
  intro s hs
  exact h s hs

theorem Triple.throw {e : ε} (h : ∀ s, P s → E s) : Triple P (throw e : Fallible ε σ α) Q E := by
  intro s hs
  exact h s hs

theorem Triple.modify {f : σ → σ} {Q : PUnit → σ → Prop} (h : ∀ s, P s → Q ⟨⟩ (f s)) :
    Triple P (modify f : Fallible ε σ PUnit) Q E := by
  intro s hs
  exact h s hs

variable {m : Fallible ε σ α}

theorem Triple.bind {f : α → Fallible ε σ β} (hm : Triple P m Q E)
    (hf : ∀ a, Triple (Q a) (f a) R E) : Triple P (m >>= f) R E := by
  intro s hs
  have h := hm s hs
  rw [exec_bind]
  rcases he : m.exec s with ⟨r, s'⟩
  rw [he] at h
  cases r with
  | ok a => exact hf a s' h
  | error e => exact h

theorem Triple.get_bind {f : σ → Fallible ε σ α} (h : ∀ s, P s → Triple (· = s) (f s) Q E) :
    Triple P (get >>= f) Q E := by
  intro s hs
  rw [exec_bind, exec_get]
  exact h s hs s rfl

theorem Triple.strengthen {P' : σ → Prop} (h : Triple P m Q E) (hP : ∀ s, P' s → P s) :
    Triple P' m Q E := by
  intro s hs
  exact h s (hP s hs)

theorem Triple.of_forall (h : ∀ s₀, P s₀ → Triple (· = s₀) m Q E) : Triple P m Q E := by
  intro s hs
  exact h s hs s rfl

theorem Triple.state {R : σ → Prop} (h : Triple P m (fun _ => R) R) {s : σ} (hs : P s) :
    R (m.exec s).2 := by
  have hm := h s hs
  rcases he : m.exec s with ⟨r, s'⟩
  rw [he] at hm
  cases r <;> exact hm

theorem Triple.foldlM {γ : Type} {I : σ → Prop} {step : β → γ → Fallible ε σ β} {l : List γ}
    (h : ∀ b, ∀ x ∈ l, Triple I (step b x) (fun _ => I) E) (b : β) :
    Triple I (l.foldlM step b) (fun _ => I) E := by
  induction l generalizing b with
  | nil => exact Triple.pure fun s hs => hs
  | cons x l ih =>
    rw [List.foldlM_cons]
    refine Triple.bind (h b x List.mem_cons_self) fun b' => ?_
    exact ih (fun b x hx => h b x (List.mem_cons_of_mem _ hx)) b'

end Fallible

end Codex.Lib

import Codex.ContextManager.Normalize

/-! After both passes calls and outputs are paired; a call that had no output is followed by a
synthetic one. -/

namespace Codex.ContextManager
open Codex.Lib List Option

variable {newV5 : Text → Text} {items : List ResponseItemEnvelope}

structure Normalizes (newV5 : Text → Text) (items out : List ResponseItemEnvelope) : Prop where
  answered : ∀ e ∈ out, ∀ key, e.item.call = some key → ∃ o ∈ out, o.item.output = some key
  called : ∀ o ∈ out, ∀ key, o.item.output = some key →
    o.item.isServerToolSearchOutput = true ∨ ∃ e ∈ out, e.item.call = some key
  /-- Only orphans go, and only the answers of calls without an output come in, each right after
  its call. -/
  edited : ∃ answer : ResponseItemEnvelope → Option ResponseItemEnvelope,
    out = (items.filter fun e => !isOrphan (callIds items) e).flatMap
        (fun e => e :: (answer e).toList) ∧
      (∀ e, (answer e).isSome ↔
        ∃ key, e.item.call = some key ∧ ∀ o ∈ items, o.item.output ≠ some key) ∧
      ∀ e o, answer e = some o → ∃ item, syntheticOutput newV5 e.item = some item ∧
        item.output = e.item.call ∧ o = .new item
  /-- As many outputs come in for an id that had none as there are calls with it. -/
  counted : ∀ key, (∀ o ∈ items, o.item.output ≠ some key) →
    out.countP (·.item.output = some key) = items.countP (·.item.call = some key)

theorem mem_normalizeCalls {x : ResponseItemEnvelope} :
    x ∈ normalizeCalls newV5 items ↔
      (x ∈ items ∧ isOrphan (callIds items) x = false) ∨
        ∃ e ∈ items, missingOutput newV5 (outputIds items) e = some x := by
  rw [normalizeCalls_eq]
  simp only [mem_flatMap, mem_filter, mem_cons, mem_toList, Bool.not_eq_eq_eq_not, Bool.not_true]
  constructor
  · rintro ⟨e, ⟨he, hkept⟩, rfl | hanswer⟩
    · exact .inl ⟨he, hkept⟩
    · exact .inr ⟨e, he, hanswer⟩
  · rintro (⟨hx, hkept⟩ | ⟨e, he, hanswer⟩)
    · exact ⟨x, ⟨hx, hkept⟩, .inl rfl⟩
    · obtain ⟨key, _, hcall, _⟩ := missingOutput_eq_some hanswer
      exact ⟨e, ⟨he, not_isOrphan_of_call hcall⟩, .inr hanswer⟩

theorem mem_callIds_normalizeCalls {key : CallKey} :
    key ∈ callIds (normalizeCalls newV5 items) ↔ key ∈ callIds items := by
  rw [mem_callIds, mem_callIds]
  constructor
  · rintro ⟨e, he, hcall⟩
    rcases mem_normalizeCalls.mp he with ⟨he, _⟩ | ⟨x, _, hanswer⟩
    · exact ⟨e, he, hcall⟩
    · obtain ⟨_, answer, _, _, hsynthetic, rfl⟩ := missingOutput_eq_some hanswer
      have hnone : (ResponseItemEnvelope.new answer).item.call = none :=
        (syntheticOutput_spec hsynthetic).2.2.1
      rw [hnone] at hcall
      exact nomatch hcall
  · rintro ⟨e, he, hcall⟩
    exact ⟨e, mem_normalizeCalls.mpr (.inl ⟨he, not_isOrphan_of_call hcall⟩), hcall⟩

theorem normalizeCalls_answered {key : CallKey} (h : key ∈ callIds items) :
    key ∈ outputIds (normalizeCalls newV5 items) := by
  rw [mem_outputIds]
  by_cases houtput : key ∈ outputIds items
  · obtain ⟨o, ho, hkey⟩ := mem_outputIds.mp houtput
    have hkept : isOrphan (callIds items) o = false := by
      rw [← Bool.not_eq_true, isOrphan_eq_true]
      rintro ⟨key', hkey', _, hnone⟩
      rw [hkey, Option.some.injEq] at hkey'
      exact hnone (hkey' ▸ h)
    exact ⟨o, mem_normalizeCalls.mpr (.inl ⟨ho, hkept⟩), hkey⟩
  · obtain ⟨e, he, hcall⟩ := mem_callIds.mp h
    have hsome : (missingOutput newV5 (outputIds items) e).isSome :=
      isSome_missingOutput.mpr ⟨key, hcall, houtput⟩
    obtain ⟨o, hanswer⟩ := isSome_iff_exists.mp hsome
    refine ⟨o, mem_normalizeCalls.mpr (.inr ⟨e, he, hanswer⟩), ?_⟩
    obtain ⟨_, answer, _, _, hsynthetic, rfl⟩ := missingOutput_eq_some hanswer
    exact (syntheticOutput_spec hsynthetic).2.1.trans hcall

theorem normalizeCalls_called {o : ResponseItemEnvelope} (h : o ∈ normalizeCalls newV5 items) :
    isOrphan (callIds (normalizeCalls newV5 items)) o = false := by
  have hkept : isOrphan (callIds items) o = false := by
    rcases mem_normalizeCalls.mp h with ⟨_, hkept⟩ | ⟨e, he, hanswer⟩
    · exact hkept
    · exact not_isOrphan_missingOutput he hanswer
  rw [← Bool.not_eq_true, isOrphan_eq_true] at hkept ⊢
  simpa only [mem_callIds_normalizeCalls] using hkept

theorem countP_answers {outputs calls : List CallKey} {key : CallKey} (hkey : key ∉ outputs)
    (hitems : ∀ e ∈ items, e.item.output ≠ some key) :
    ((items.filter fun e => !isOrphan calls e).flatMap fun e =>
        e :: (missingOutput newV5 outputs e).toList).countP (·.item.output = some key) =
      items.countP (·.item.call = some key) := by
  induction items with
  | nil => rfl
  | cons e items ih =>
    have hrest := ih fun x hx => hitems x (mem_cons_of_mem _ hx)
    have he := hitems e mem_cons_self
    by_cases hcall : e.item.call = some key
    · -- the call stays and brings its answer
      have hsome : (missingOutput newV5 outputs e).isSome :=
        isSome_missingOutput.mpr ⟨key, hcall, hkey⟩
      obtain ⟨o, hanswer⟩ := isSome_iff_exists.mp hsome
      have houtput : o.item.output = some key := by
        obtain ⟨_, answer, _, _, hsynthetic, rfl⟩ := missingOutput_eq_some hanswer
        exact (syntheticOutput_spec hsynthetic).2.1.trans hcall
      rw [filter_cons_of_pos (by simp [not_isOrphan_of_call hcall]), flatMap_cons,
        countP_append, hrest, hanswer]
      simp [hcall, he, houtput, Nat.add_comm]
    · have hnone : ∀ o ∈ (missingOutput newV5 outputs e).toList, o.item.output ≠ some key := by
        intro o ho
        obtain ⟨_, answer, _, _, hsynthetic, rfl⟩ := missingOutput_eq_some (mem_toList.mp ho)
        have heq : (ResponseItemEnvelope.new answer).item.output = e.item.call :=
          (syntheticOutput_spec hsynthetic).2.1
        rw [heq]
        exact hcall
      rw [countP_cons_of_neg (by simpa using hcall), ← hrest]
      cases horphan : isOrphan calls e with
      | true => rw [filter_cons_of_neg (by simp [horphan])]
      | false =>
        rw [filter_cons_of_pos (by simp [horphan]), flatMap_cons, countP_append,
          countP_cons_of_neg (by simpa using he), countP_eq_zero.mpr, Nat.zero_add]
        simpa using hnone

theorem normalizeCalls_eq_self (hanswered : ∀ key ∈ callIds items, key ∈ outputIds items)
    (hcalled : ∀ o ∈ items, isOrphan (callIds items) o = false) :
    normalizeCalls newV5 items = items := by
  rw [normalizeCalls_eq, filter_eq_self.mpr fun o ho => by rw [hcalled o ho]; rfl]
  have hnone : ∀ e ∈ items, missingOutput newV5 (outputIds items) e = none := by
    intro e he
    by_contra hsome
    obtain ⟨key, hcall, hmissing⟩ := isSome_missingOutput.mp (isSome_iff_ne_none.mpr hsome)
    exact hmissing (hanswered key (mem_callIds.mpr ⟨e, he, hcall⟩))
  have hself : items.flatMap (fun e => e :: (missingOutput newV5 (outputIds items) e).toList) =
      items.flatMap fun e => [e] :=
    flatMap_congr fun e he => by rw [hnone e he]; rfl
  rw [hself, flatMap_singleton']

theorem normalizeCalls_idempotent (items : List ResponseItemEnvelope) :
    normalizeCalls newV5 (normalizeCalls newV5 items) = normalizeCalls newV5 items := by
  apply normalizeCalls_eq_self
  · intro key hkey
    exact normalizeCalls_answered (mem_callIds_normalizeCalls.mp hkey)
  · intro o ho
    exact normalizeCalls_called ho

theorem normalizeCalls_pairs_calls (newV5 : Text → Text) (items : List ResponseItemEnvelope) :
    Normalizes newV5 items (normalizeCalls newV5 items) ∧
      normalizeCalls newV5 (normalizeCalls newV5 items) = normalizeCalls newV5 items := by
  refine ⟨⟨?_, ?_, ?_, ?_⟩, normalizeCalls_idempotent items⟩
  · intro e he key hcall
    have hkey := mem_callIds_normalizeCalls.mp (mem_callIds.mpr ⟨e, he, hcall⟩)
    exact mem_outputIds.mp (normalizeCalls_answered hkey)
  · intro o ho key hkey
    by_contra hnot
    rw [not_or, Bool.not_eq_true] at hnot
    have horphan : isOrphan (callIds (normalizeCalls newV5 items)) o = true :=
      isOrphan_eq_true.mpr ⟨key, hkey, hnot.1, fun hmem => hnot.2 (mem_callIds.mp hmem)⟩
    rw [normalizeCalls_called ho] at horphan
    exact nomatch horphan
  · refine ⟨missingOutput newV5 (outputIds items), normalizeCalls_eq items, fun e => ?_, ?_⟩
    · rw [isSome_missingOutput]
      simp only [mem_outputIds, not_exists, not_and, ne_eq]
    · intro e o ho
      obtain ⟨_, item, _, _, hsynthetic, rfl⟩ := missingOutput_eq_some ho
      exact ⟨item, hsynthetic, (syntheticOutput_spec hsynthetic).2.1, rfl⟩
  · intro key hkey
    rw [normalizeCalls_eq]
    apply countP_answers _ hkey
    rw [mem_outputIds]
    rintro ⟨o, ho, hout⟩
    exact hkey o ho hout

def AnswersOncePerId (items out : List ResponseItemEnvelope) : Prop :=
  ∀ key, (∃ e ∈ items, e.item.call = some key) → (∀ o ∈ items, o.item.output ≠ some key) →
    out.countP (·.item.output = some key) = 1

theorem repeated_call_is_answered_twice :
    ¬ AnswersOncePerId
      [.new (.functionCall none ['c'] []), .new (.functionCall none ['c'] [])]
      (normalizeCalls id
        [.new (.functionCall none ['c'] []), .new (.functionCall none ['c'] [])]) := by
  intro h
  have hone := h (.function, ['c']) (by decide +kernel) (by decide +kernel)
  exact absurd hone (by decide +kernel)

end Codex.ContextManager

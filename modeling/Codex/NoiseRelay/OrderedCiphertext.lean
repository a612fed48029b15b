import Codex.Lib.Fallible
import Codex.Lib.FirstMissing
import Codex.Lib.Text
import Mathlib.Algebra.BigOperators.Group.Finset.Basic
import Mathlib.Algebra.Order.BigOperators.Group.Finset

/-! `OrderedCiphertextFrames` of `exec-server/src/noise_relay/ordered_ciphertext.rs`. Sequence
numbers are `u32`: `advance` fails where the next one would not fit. -/

namespace Codex.NoiseRelay
open Codex.Lib List

inductive ExecServerError
  | protocol (message : Text)
  deriving DecidableEq, Repr

def maxReorderDistance : Nat := 64

def maxPendingBytes : Nat := 1024 * 1024

structure OrderedCiphertextFrames where
  nextSeq : Nat
  pending : List (Nat × Bytes)
  pendingBytes : Nat

namespace OrderedCiphertextFrames

def default : OrderedCiphertextFrames := ⟨0, [], 0⟩

def advance (s : OrderedCiphertextFrames) : Except ExecServerError OrderedCiphertextFrames :=
  if s.nextSeq + 1 < 2 ^ 32 then .ok { s with nextSeq := s.nextSeq + 1 }
  else .error (.protocol "Noise relay sequence number exhausted".toList)

def removeNext (s : OrderedCiphertextFrames) (payload : Bytes) : OrderedCiphertextFrames :=
  { s with
    pending := s.pending.filter fun e => e.1 != s.nextSeq
    pendingBytes := s.pendingBytes - payload.length }

/-- The loop of `push`. Every round removes a record, so `fuel` is how many there are. -/
def releasePending : Nat → OrderedCiphertextFrames →
    Except ExecServerError (OrderedCiphertextFrames × List Bytes)
  | 0, s => .ok (s, [])
  | fuel + 1, s =>
    match s.pending.lookup s.nextSeq with
    | none => .ok (s, [])
    | some payload => do
      let s ← (s.removeNext payload).advance
      let (s, ready) ← releasePending fuel s
      return (s, payload :: ready)

def push (s : OrderedCiphertextFrames) (seq : Nat) (payload : Bytes) :
    Except ExecServerError (OrderedCiphertextFrames × List Bytes) :=
  if seq < s.nextSeq ∨ (s.pending.lookup seq).isSome then .ok (s, [])
  else if seq > s.nextSeq then
    if seq - s.nextSeq > maxReorderDistance then
      .error (.protocol "Noise relay ciphertext exceeds reorder window".toList)
    else if s.pendingBytes + payload.length > maxPendingBytes then
      .error (.protocol "Noise relay pending ciphertext buffer is full".toList)
    else
      .ok ({ s with
        pending := (seq, payload) :: s.pending
        pendingBytes := s.pendingBytes + payload.length }, [])
  else do
    let s ← s.advance
    let (s, ready) ← releasePending s.pending.length s
    return (s, payload :: ready)

def early (seen : Finset ℕ) (next : ℕ) : Finset ℕ := seen.filter (next ≤ ·)

/-- Of the records seen, those below `nextSeq` are released and the others are held back. -/
structure Buffers (records : ℕ → Bytes) (seen : Finset ℕ) (s : OrderedCiphertextFrames) :
    Prop where
  released : ∀ seq < s.nextSeq, seq ∈ seen
  held : ∀ seq, s.pending.lookup seq =
    if seq ∈ early seen s.nextSeq then some (records seq) else none
  bytes : s.pendingBytes = ∑ seq ∈ early seen s.nextSeq, (records seq).length

variable {records : ℕ → Bytes} {seen : Finset ℕ} {s : OrderedCiphertextFrames}

theorem buffers_default (records : ℕ → Bytes) : Buffers records ∅ default where
  released := fun seq h => absurd h (Nat.not_lt_zero seq)
  held := fun seq => by simp [default, early]
  bytes := by simp [default, early]

theorem mem_early {seq next : ℕ} : seq ∈ early seen next ↔ seq ∈ seen ∧ next ≤ seq :=
  Finset.mem_filter

theorem early_succ (seen : Finset ℕ) (next : ℕ) :
    early seen (next + 1) = (early seen next).erase next := by
  ext seq
  rw [Finset.mem_erase, mem_early, mem_early, Nat.succ_le_iff, lt_iff_le_and_ne]
  constructor
  · rintro ⟨hseen, hle, hne⟩
    exact ⟨hne.symm, hseen, hle⟩
  · rintro ⟨hne, hseen, hle⟩
    exact ⟨hseen, hle, hne.symm⟩

theorem early_insert_of_le {seq next : ℕ} (h : next ≤ seq) :
    early (insert seq seen) next = insert seq (early seen next) := by
  rw [early, Finset.filter_insert, if_pos h]
  rfl

theorem lookup_filter_ne (pending : List (ℕ × Bytes)) (next seq : ℕ) :
    (pending.filter fun e => e.1 != next).lookup seq =
      if seq = next then none else pending.lookup seq := by
  induction pending with
  | nil => simp
  | cons e pending ih =>
    obtain ⟨k, payload⟩ := e
    by_cases hk : k = next
    · subst hk
      rw [filter_cons_of_neg (by simp), ih, lookup_cons]
      by_cases hs : seq = k
      · simp [hs]
      · simp [hs, beq_eq_false_iff_ne.mpr hs]
    · rw [filter_cons_of_pos (by simpa using hk), lookup_cons, lookup_cons, ih]
      by_cases hs : seq = k
      · simp [hs, hk]
      · simp [beq_eq_false_iff_ne.mpr hs]

theorem length_filter_lt {pending : List (ℕ × Bytes)} {next : ℕ} {payload : Bytes}
    (h : pending.lookup next = some payload) :
    (pending.filter fun e => e.1 != next).length < pending.length := by
  obtain ⟨before, after, rfl, _⟩ := lookup_eq_some_iff.mp h
  have hbefore := length_filter_le (fun e : ℕ × Bytes => e.1 != next) before
  have hafter := length_filter_le (fun e : ℕ × Bytes => e.1 != next) after
  simp only [filter_append, filter_cons, bne_self_eq_false, length_append, length_cons]
  simp only [Bool.false_eq_true, if_false]
  omega

theorem Buffers.removeNext (h : Buffers records seen s) (hnext : s.nextSeq ∈ seen) :
    Buffers records seen { s.removeNext (records s.nextSeq) with nextSeq := s.nextSeq + 1 } where
  released := by
    intro seq hseq
    rcases Nat.lt_succ_iff_lt_or_eq.mp hseq with hlt | rfl
    · exact h.released seq hlt
    · exact hnext
  held := by
    intro seq
    have hlookup := lookup_filter_ne s.pending s.nextSeq seq
    change (s.pending.filter fun e => e.1 != s.nextSeq).lookup seq = _
    rw [hlookup, h.held, early_succ]
    simp only [Finset.mem_erase]
    by_cases hs : seq = s.nextSeq <;> simp [hs]
  bytes := by
    have hmem : s.nextSeq ∈ early seen s.nextSeq := mem_early.mpr ⟨hnext, le_rfl⟩
    have hsum := Finset.add_sum_erase _ (fun seq => (records seq).length) hmem
    change s.pendingBytes - (records s.nextSeq).length = _
    rw [early_succ, h.bytes]
    omega

theorem Buffers.releasePending {fuel : ℕ} (h : Buffers records seen s)
    (hseq : ∀ seq ∈ seen, seq + 1 < 2 ^ 32) (hfuel : s.pending.length ≤ fuel) :
    ∃ s', releasePending fuel s =
        .ok (s', (List.range' s.nextSeq (firstMissing seen - s.nextSeq)).map records) ∧
      Buffers records seen s' ∧ s'.nextSeq = firstMissing seen := by
  induction fuel generalizing s with
  | zero =>
    have hnil : s.pending = [] := length_eq_zero_iff.mp (Nat.le_zero.mp hfuel)
    have hmissing : s.nextSeq ∉ seen := by
      intro hmem
      have hheld := h.held s.nextSeq
      rw [hnil, if_pos (mem_early.mpr ⟨hmem, le_rfl⟩)] at hheld
      exact nomatch hheld
    have hfirst := firstMissing_eq hmissing h.released
    refine ⟨s, ?_, h, hfirst.symm⟩
    rw [hfirst, Nat.sub_self]
    rfl
  | succ fuel ih =>
    have hheld := h.held s.nextSeq
    by_cases hmem : s.nextSeq ∈ seen
    · rw [if_pos (mem_early.mpr ⟨hmem, le_rfl⟩)] at hheld
      have hshorter := length_filter_lt hheld
      obtain ⟨s', hrun, hbuffers, hnext⟩ := ih (h.removeNext hmem)
        (show (s.pending.filter fun e => e.1 != s.nextSeq).length ≤ fuel by omega)
      have hle : s.nextSeq + 1 ≤ firstMissing seen := by
        apply le_firstMissing
        intro seq hlt
        exact (h.removeNext hmem).released seq hlt
      have hrange : firstMissing seen - s.nextSeq = (firstMissing seen - (s.nextSeq + 1)) + 1 := by
        omega
      refine ⟨s', ?_, hbuffers, hnext⟩
      have hadvance : (s.removeNext (records s.nextSeq)).advance =
          .ok { s.removeNext (records s.nextSeq) with nextSeq := s.nextSeq + 1 } :=
        if_pos (hseq s.nextSeq hmem)
      rw [OrderedCiphertextFrames.releasePending, hheld]
      simp only [hadvance, ok_bind, hrun]
      rw [hrange, range'_succ, map_cons]
      rfl
    · have hnotEarly : s.nextSeq ∉ early seen s.nextSeq := fun hin => hmem (mem_early.mp hin).1
      rw [if_neg hnotEarly] at hheld
      have hfirst := firstMissing_eq hmem h.released
      refine ⟨s, ?_, h, hfirst.symm⟩
      rw [OrderedCiphertextFrames.releasePending, hheld, hfirst, Nat.sub_self]
      rfl

structure InOrder (records : ℕ → Bytes) (seen : Finset ℕ) (s : OrderedCiphertextFrames) :
    Prop where
  buffers : Buffers records seen s
  next : s.nextSeq = firstMissing seen

theorem inOrder_default (records : ℕ → Bytes) : InOrder records ∅ default :=
  ⟨buffers_default records, firstMissing_empty.symm⟩

section
variable (h : InOrder records seen s)
include h

theorem InOrder.push_seen {seq : ℕ} (hseen : seq ∈ seen) (payload : Bytes) :
    s.push seq payload = .ok (s, []) := by
  apply if_pos
  by_cases hlt : seq < s.nextSeq
  · exact .inl hlt
  · have hearly : seq ∈ early seen s.nextSeq := mem_early.mpr ⟨hseen, not_lt.mp hlt⟩
    right
    rw [h.buffers.held, if_pos hearly]
    rfl

theorem InOrder.not_duplicate {seq : ℕ} (hnew : seq ∉ seen) :
    ¬ (seq < s.nextSeq ∨ (s.pending.lookup seq).isSome) := by
  rintro (hlt | hsome)
  · exact hnew (h.buffers.released seq hlt)
  · have hnotEarly : seq ∉ early seen s.nextSeq := fun hin => hnew (mem_early.mp hin).1
    rw [h.buffers.held, if_neg hnotEarly] at hsome
    exact nomatch hsome

theorem InOrder.push_early {seq : ℕ} (hnew : seq ∉ seen) (hnext : seq ≠ firstMissing seen)
    (hwindow : seq ≤ firstMissing seen + maxReorderDistance)
    (hbytes : ∑ j ∈ early (insert seq seen) (firstMissing (insert seq seen)), (records j).length ≤
      maxPendingBytes) :
    ∃ s', s.push seq (records seq) = .ok (s', []) ∧ InOrder records (insert seq seen) s' := by
  have hfirst := firstMissing_insert_of_ne hnext
  have hle : s.nextSeq ≤ seq := by
    by_contra hlt
    exact hnew (h.buffers.released seq (not_le.mp hlt))
  have hearly : early (insert seq seen) s.nextSeq = insert seq (early seen s.nextSeq) :=
    early_insert_of_le hle
  have hnotEarly : seq ∉ early seen s.nextSeq := fun hin => hnew (mem_early.mp hin).1
  have hsum : ∑ j ∈ early (insert seq seen) s.nextSeq, (records j).length =
      s.pendingBytes + (records seq).length := by
    rw [hearly, Finset.sum_insert hnotEarly, h.buffers.bytes, Nat.add_comm]
  have hgt : seq > s.nextSeq := lt_of_le_of_ne hle (h.next.trans_ne hnext.symm)
  have hdistance : ¬ seq - s.nextSeq > maxReorderDistance := by
    rw [h.next]
    omega
  have hroom : ¬ s.pendingBytes + (records seq).length > maxPendingBytes := by
    rw [hfirst, ← h.next, hsum] at hbytes
    omega
  refine ⟨{ s with
    pending := (seq, records seq) :: s.pending
    pendingBytes := s.pendingBytes + (records seq).length }, ?_, ⟨?_, ?_, ?_⟩, ?_⟩
  · rw [push, if_neg (h.not_duplicate hnew), if_pos hgt, if_neg hdistance, if_neg hroom]
  · intro j hj
    exact Finset.mem_insert_of_mem (h.buffers.released j hj)
  · intro j
    rw [lookup_cons, hearly, h.buffers.held]
    by_cases hj : j = seq
    · simp [hj]
    · simp [hj, beq_eq_false_iff_ne.mpr hj]
  · exact hsum.symm
  · exact h.next.trans hfirst.symm

theorem InOrder.push_next (hseq : ∀ seq ∈ insert (firstMissing seen) seen, seq + 1 < 2 ^ 32) :
    ∃ s', s.push (firstMissing seen) (records (firstMissing seen)) =
        .ok (s', (List.range' (firstMissing seen)
          (firstMissing (insert (firstMissing seen) seen) - firstMissing seen)).map records) ∧
      InOrder records (insert (firstMissing seen) seen) s' := by
  have hmissing := firstMissing_notMem seen
  have hadvanced : Buffers records (insert (firstMissing seen) seen)
      { s with nextSeq := s.nextSeq + 1 } := by
    have hsame : early (insert (firstMissing seen) seen) (s.nextSeq + 1) =
        early seen s.nextSeq := by
      rw [early_succ, early_insert_of_le h.next.le, h.next, Finset.erase_insert]
      exact fun hin => hmissing (mem_early.mp hin).1
    constructor
    · intro j hj
      rcases Nat.lt_succ_iff_lt_or_eq.mp hj with hlt | rfl
      · exact Finset.mem_insert_of_mem (h.buffers.released j hlt)
      · rw [h.next]
        exact Finset.mem_insert_self _ _
    · intro j
      rw [hsame]
      exact h.buffers.held j
    · rw [hsame]
      exact h.buffers.bytes
  have hadvance : s.advance = .ok { s with nextSeq := s.nextSeq + 1 } := by
    apply if_pos
    rw [h.next]
    exact hseq _ (Finset.mem_insert_self _ _)
  obtain ⟨s', hrun, hbuffers, hnext⟩ := hadvanced.releasePending hseq le_rfl
  refine ⟨s', ?_, hbuffers, hnext⟩
  have hlt : firstMissing seen < firstMissing (insert (firstMissing seen) seen) :=
    lt_firstMissing_insert_self
  have hrange : firstMissing (insert (firstMissing seen) seen) - firstMissing seen =
      firstMissing (insert (firstMissing seen) seen) - (s.nextSeq + 1) + 1 := by
    rw [h.next]
    omega
  have hdup := h.not_duplicate hmissing
  have hnotAfter : ¬ firstMissing seen > s.nextSeq := by
    rw [h.next]
    exact lt_irrefl _
  rw [push, if_neg hdup, if_neg hnotAfter, hadvance]
  simp only [ok_bind, hrun]
  rw [hrange, range'_succ, map_cons, h.next]
  rfl

theorem InOrder.push {seq : ℕ} (hseq : ∀ j ∈ insert seq seen, j + 1 < 2 ^ 32)
    (hwindow : seq ≤ firstMissing seen + maxReorderDistance)
    (hbytes : ∑ j ∈ early (insert seq seen) (firstMissing (insert seq seen)), (records j).length ≤
      maxPendingBytes) : ∃ s', s.push seq (records seq) =
        .ok (s', (List.range' (firstMissing seen)
          (firstMissing (insert seq seen) - firstMissing seen)).map records) ∧
      InOrder records (insert seq seen) s' := by
  by_cases hnext : seq = firstMissing seen
  · subst hnext
    exact h.push_next hseq
  · rw [firstMissing_insert_of_ne hnext, Nat.sub_self]
    by_cases hseen : seq ∈ seen
    · rw [Finset.insert_eq_of_mem hseen]
      exact ⟨s, h.push_seen hseen (records seq), h⟩
    · exact h.push_early hseen hnext hwindow hbytes

end

end OrderedCiphertextFrames

end Codex.NoiseRelay

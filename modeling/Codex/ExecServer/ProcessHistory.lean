import Codex.ExecServer.SessionEvents

/-! What a process of the server does, as a list whose `n`-th event has the sequence number `n`, and
what a read shows of it. -/

namespace Codex.ExecServer
open Codex.Lib List Option

inductive ProcessStep where
  | output (stream : ExecOutputStream) (chunk : Bytes)
  | exited (exitCode : Int) (sandboxDenied : Bool)
  | closed
  deriving DecidableEq, Repr

namespace ProcessStep

def numbered (n : Nat) : ProcessStep → ExecProcessEvent
  | output stream chunk => .output ⟨n, stream, chunk⟩
  | exited exitCode sandboxDenied => .exited n exitCode (some sandboxDenied)
  | closed => .closed n

def exit? : ProcessStep → Option (Int × Bool)
  | exited exitCode sandboxDenied => some (exitCode, sandboxDenied)
  | _ => none

end ProcessStep

/-- At most one exit, and nothing after a close, which comes after an exit. -/
structure ProcessHistory where
  steps : List ProcessStep
  exit_unique : ∀ (i j : Nat) x y, (steps[i]?).bind ProcessStep.exit? = some x →
    (steps[j]?).bind ProcessStep.exit? = some y → i = j
  closed_last : ∀ i : Nat, steps[i]? = some .closed →
    i + 1 = steps.length ∧ ∃ j < i, ((steps[j]?).bind ProcessStep.exit?).isSome

namespace ProcessHistory

variable (h : ProcessHistory)

def events : List ExecProcessEvent := h.steps.mapIdx fun i step => step.numbered (i + 1)

def event (n : Nat) : Option ExecProcessEvent := if n = 0 then none else h.events[n - 1]?

def outputs (n : Nat) : List ProcessOutputChunk :=
  (h.events.take n).filterMap fun event =>
    match event with
    | .output chunk => some chunk
    | _ => none

def exit? (n : Nat) : Option (Int × Bool) := (h.steps.take n).findSome? ProcessStep.exit?

/-- `exec_read` without `max_bytes` after the first `n` events, of whose outputs the oldest are
dropped. -/
def execRead (n dropped afterSeq : Nat) : ReadResponse where
  chunks := ((h.outputs n).drop dropped).filter fun chunk => afterSeq < chunk.seq
  nextSeq := n + 1
  exited := (h.exit? n).isSome
  exitCode := (h.exit? n).map (·.1)
  closed := .closed ∈ h.steps.take n
  failure := none
  sandboxDenied := ((h.exit? n).map (·.2)).getD false

variable {h}

@[simp] theorem event_succ (n : Nat) :
    h.event (n + 1) = (h.steps[n]?).map fun step => step.numbered (n + 1) := by
  rw [event, if_neg (Nat.succ_ne_zero n), Nat.add_sub_cancel, events, getElem?_mapIdx]

@[simp] theorem event_zero : h.event 0 = none := rfl

theorem length_events : h.events.length = h.steps.length := length_mapIdx

theorem getElem?_events (n : Nat) : h.events[n]? = h.event (n + 1) := by
  rw [event, if_neg (Nat.succ_ne_zero n), Nat.add_sub_cancel]

variable {e : ExecProcessEvent}

theorem exists_step {n : Nat} (he : h.event n = some e) :
    ∃ i step, n = i + 1 ∧ h.steps[i]? = some step ∧ e = step.numbered (i + 1) := by
  cases n with
  | zero => cases he
  | succ i =>
    rw [event_succ] at he
    obtain ⟨step, hstep, rfl⟩ := map_eq_some_iff.mp he
    exact ⟨i, step, rfl, hstep, rfl⟩

theorem seq_of_event {n : Nat} (he : h.event n = some e) : e.seq = some n := by
  obtain ⟨i, step, rfl, -, rfl⟩ := exists_step he
  cases step <;> rfl

theorem le_length_of_event {n : Nat} (he : h.event n = some e) : n ≤ h.events.length := by
  obtain ⟨i, step, rfl, hstep, -⟩ := exists_step he
  rw [length_events]
  exact (List.getElem?_eq_some_iff.mp hstep).1

theorem exists_event {n : Nat} (hpos : 0 < n) (hle : n ≤ h.events.length) :
    ∃ e, h.event n = some e := by
  obtain ⟨i, rfl⟩ := Nat.exists_eq_succ_of_ne_zero hpos.ne'
  rw [← getElem?_events]
  exact ⟨_, getElem?_eq_getElem hle⟩

theorem take_succ_events {n : Nat} (he : h.event (n + 1) = some e) :
    h.events.take (n + 1) = h.events.take n ++ [e] := by
  rw [take_add_one, getElem?_events, he]
  rfl

theorem isExited_numbered {step : ProcessStep} {n : Nat} :
    (step.numbered n).isExited ↔ step.exit?.isSome := by
  cases step <;> simp [ProcessStep.numbered, ProcessStep.exit?, ExecProcessEvent.isExited]

theorem exit_eq {m n : Nat} {d : ExecProcessEvent} (hd : h.event m = some d)
    (he : h.event n = some e) (hdexit : d.isExited) (heexit : e.isExited) :
    m = n := by
  obtain ⟨i, step, rfl, hi, rfl⟩ := exists_step hd
  obtain ⟨j, step', rfl, hj, rfl⟩ := exists_step he
  obtain ⟨x, hx⟩ := isSome_iff_exists.mp (isExited_numbered.mp hdexit)
  obtain ⟨y, hy⟩ := isSome_iff_exists.mp (isExited_numbered.mp heexit)
  have hij := h.exit_unique i j x y (by rw [hi]; exact hx) (by rw [hj]; exact hy)
  rw [hij]

theorem closed_spec {n : Nat} (he : h.event n = some e) (hclosed : e.isClosed) :
    n = h.events.length ∧ e = .closed n ∧ ∃ m < n, ∃ d, h.event m = some d ∧ d.isExited := by
  obtain ⟨i, step, rfl, hi, rfl⟩ := exists_step he
  cases step with
  | output stream chunk => cases hclosed
  | exited exitCode sandboxDenied => cases hclosed
  | closed =>
    obtain ⟨hlast, j, hj, hexit⟩ := h.closed_last i hi
    cases hstep : h.steps[j]? with
    | none =>
      rw [hstep] at hexit
      cases hexit
    | some step =>
      rw [hstep] at hexit
      refine ⟨hlast.trans length_events.symm, rfl, j + 1, Nat.succ_lt_succ hj,
        step.numbered (j + 1), ?_, isExited_numbered.mpr hexit⟩
      rw [event_succ, hstep]
      rfl

theorem mem_outputs {n : Nat} {chunk : ProcessOutputChunk} :
    chunk ∈ h.outputs n ↔ chunk.seq ≤ n ∧ h.event chunk.seq = some (.output chunk) := by
  have hmem : chunk ∈ h.outputs n ↔ ExecProcessEvent.output chunk ∈ h.events.take n := by
    rw [outputs, mem_filterMap]
    refine ⟨?_, fun hevent => ⟨_, hevent, rfl⟩⟩
    rintro ⟨event, hevent, hchunk⟩
    cases event with
    | output other =>
      cases hchunk
      exact hevent
    | exited seq exitCode sandboxDenied => cases hchunk
    | closed seq => cases hchunk
    | failed message => cases hchunk
  rw [hmem, mem_take_iff_getElem]
  refine ⟨?_, fun ⟨hle, hevent⟩ => ?_⟩
  · rintro ⟨i, hi, hget⟩
    have hevent : h.event (i + 1) = some (.output chunk) := by
      rw [← getElem?_events, ← hget]
      exact List.getElem?_eq_getElem _
    have hseq : chunk.seq = i + 1 := Option.some.inj (seq_of_event hevent)
    rw [hseq]
    exact ⟨by omega, hevent⟩
  · obtain ⟨i, step, hi, -, -⟩ := exists_step hevent
    rw [hi, ← getElem?_events] at hevent
    obtain ⟨hlt, hget⟩ := List.getElem?_eq_some_iff.mp hevent
    exact ⟨i, by omega, hget⟩

theorem pairwise_outputs (h : ProcessHistory) (n : Nat) :
    (h.outputs n).Pairwise fun a b => a.seq < b.seq := by
  have hevents : h.events.Pairwise fun a b => ∀ i j, a.seq = some i → b.seq = some j → i < j := by
    rw [pairwise_iff_getElem]
    intro i j hi hj hij k l hk hl
    have hki := seq_of_event ((getElem?_events i).symm.trans (getElem?_eq_getElem hi))
    have hlj := seq_of_event ((getElem?_events j).symm.trans (getElem?_eq_getElem hj))
    rw [hk] at hki
    rw [hl] at hlj
    cases hki
    cases hlj
    omega
  refine List.Pairwise.filterMap _ ?_ (hevents.sublist (take_sublist n _))
  intro a b hab c hc d hd
  cases a <;> cases hc
  cases b <;> cases hd
  exact hab _ _ rfl rfl

section Read
variable {n dropped afterSeq : Nat}

theorem chunk_spec {chunk : ProcessOutputChunk}
    (hchunk : chunk ∈ (h.execRead n dropped afterSeq).chunks) :
    afterSeq < chunk.seq ∧ chunk.seq ≤ n ∧ h.event chunk.seq = some (.output chunk) := by
  obtain ⟨hretained, hafter⟩ := mem_filter.mp hchunk
  obtain ⟨hle, hevent⟩ := mem_outputs.mp (mem_of_mem_drop hretained)
  exact ⟨of_decide_eq_true hafter, hle, hevent⟩

theorem pairwise_chunks :
    (h.execRead n dropped afterSeq).chunks.Pairwise fun a b => a.seq < b.seq :=
  ((h.pairwise_outputs n).sublist (drop_sublist dropped _)).sublist filter_sublist

theorem lt_of_dropped {chunk other : ProcessOutputChunk}
    (hevent : h.event chunk.seq = some (.output chunk)) (hafter : afterSeq < chunk.seq)
    (hle : chunk.seq ≤ n) (hdropped : chunk ∉ (h.execRead n dropped afterSeq).chunks)
    (hother : other ∈ (h.execRead n dropped afterSeq).chunks) : chunk.seq < other.seq := by
  have hmem : chunk ∈ (h.outputs n).take dropped ++ (h.outputs n).drop dropped := by
    rw [take_append_drop]
    exact mem_outputs.mpr ⟨hle, hevent⟩
  have hpairs := h.pairwise_outputs n
  rw [← take_append_drop dropped (h.outputs n), pairwise_append] at hpairs
  rcases mem_append.mp hmem with htaken | hretained
  · exact hpairs.2.2 chunk htaken other (mem_of_mem_filter hother)
  · exact absurd (mem_filter.mpr ⟨hretained, decide_eq_true hafter⟩) hdropped

theorem exists_step_of_exit? {x : Int × Bool} (hx : h.exit? n = some x) :
    ∃ i < n, ∃ step, h.steps[i]? = some step ∧ step.exit? = some x := by
  obtain ⟨step, hmem, hstep⟩ := exists_of_findSome?_eq_some hx
  obtain ⟨i, hi, hget⟩ := mem_take_iff_getElem.mp hmem
  exact ⟨i, by omega, step, hget ▸ getElem?_eq_getElem _, hstep⟩

theorem exists_event_of_exit? {exitCode : Int} {sandboxDenied : Bool}
    (hx : h.exit? n = some (exitCode, sandboxDenied)) :
    ∃ m ≤ n, h.event m = some (.exited m exitCode (some sandboxDenied)) := by
  obtain ⟨i, hi, step, hget, hstep⟩ := exists_step_of_exit? hx
  refine ⟨i + 1, hi, ?_⟩
  cases step with
  | output stream chunk => cases hstep
  | exited code denied =>
    cases hstep
    rw [event_succ, hget]
    rfl
  | closed => cases hstep

theorem exit?_of_event {m : Nat} {e : ExecProcessEvent} (hm : m ≤ n) (he : h.event m = some e)
    (hexit : e.isExited) : ∃ exitCode sandboxDenied,
      e = .exited m exitCode (some sandboxDenied) ∧ h.exit? n = some (exitCode, sandboxDenied) := by
  obtain ⟨i, step, rfl, hget, rfl⟩ := exists_step he
  cases step with
  | output stream chunk => cases hexit
  | closed => cases hexit
  | exited exitCode sandboxDenied =>
    refine ⟨exitCode, sandboxDenied, rfl, ?_⟩
    have hsome : (h.exit? n).isSome := by
      rw [exit?, List.findSome?_isSome_iff]
      obtain ⟨hlt, hstep⟩ := List.getElem?_eq_some_iff.mp hget
      exact ⟨_, mem_take_iff_getElem.mpr ⟨i, by omega, hstep⟩, rfl⟩
    obtain ⟨x, hx⟩ := isSome_iff_exists.mp hsome
    obtain ⟨j, -, step, hgetj, hstep⟩ := exists_step_of_exit? hx
    have hij := h.exit_unique i j _ _ (congrArg (Option.bind · ProcessStep.exit?) hget)
      ((congrArg (Option.bind · ProcessStep.exit?) hgetj).trans hstep)
    subst hij
    rw [hget] at hgetj
    cases hgetj
    exact hx.trans hstep.symm

theorem event_of_closed (hn : n ≤ h.events.length)
    (hclosed : (h.execRead n dropped afterSeq).closed) : h.event n = some (.closed n) := by
  have hmem : ProcessStep.closed ∈ h.steps.take n := of_decide_eq_true hclosed
  obtain ⟨i, hi, hget⟩ := mem_take_iff_getElem.mp hmem
  have hstep : h.steps[i]? = some .closed := by
    rw [← hget]
    exact getElem?_eq_getElem _
  have hlast := (h.closed_last i hstep).1
  rw [length_events] at hn
  obtain rfl : n = i + 1 := by omega
  rw [event_succ, hstep]
  rfl

end Read

structure ReadOf (h : ProcessHistory) (n afterSeq : Nat) (response : ReadResponse) : Prop where
  le_length : n ≤ h.events.length
  nextSeq_eq : response.nextSeq = n + 1
  failure_eq : response.failure = none
  chunk_spec : ∀ chunk ∈ response.chunks,
    afterSeq < chunk.seq ∧ chunk.seq ≤ n ∧ h.event chunk.seq = some (.output chunk)
  pairwise_chunks : response.chunks.Pairwise fun a b => a.seq < b.seq
  lt_of_dropped : ∀ chunk, h.event chunk.seq = some (.output chunk) → afterSeq < chunk.seq →
    chunk.seq ≤ n → chunk ∉ response.chunks → ∀ other ∈ response.chunks, chunk.seq < other.seq
  exists_exit : response.exited = true → ∃ m ≤ n, ∃ e, h.event m = some e ∧ e.isExited = true
  exit_spec : ∀ m ≤ n, ∀ e, h.event m = some e → e.isExited = true → ∃ exitCode,
    response.exitCode = some exitCode ∧ e = .exited m exitCode (some response.sandboxDenied)
  closed_spec : response.closed = true → h.event n = some (.closed n)

theorem ReadOf.target_eq {n afterSeq : Nat} {response : ReadResponse}
    (hread : h.ReadOf n afterSeq response) : response.nextSeq - 1 = n := by
  rw [hread.nextSeq_eq, Nat.add_sub_cancel]

theorem readOf_execRead {n : Nat} (hn : n ≤ h.events.length) (dropped afterSeq : Nat) :
    h.ReadOf n afterSeq (h.execRead n dropped afterSeq) where
  le_length := hn
  nextSeq_eq := rfl
  failure_eq := rfl
  chunk_spec _ := chunk_spec
  pairwise_chunks := pairwise_chunks
  lt_of_dropped _ hevent hafter hle hdropped _ := lt_of_dropped hevent hafter hle hdropped
  exists_exit hexited := by
    obtain ⟨x, hx⟩ := isSome_iff_exists.mp hexited
    obtain ⟨m, hm, hevent⟩ := exists_event_of_exit? hx
    exact ⟨m, hm, _, hevent, rfl⟩
  exit_spec m hm e hevent hexit := by
    obtain ⟨exitCode, sandboxDenied, rfl, hread⟩ := exit?_of_event hm hevent hexit
    exact ⟨exitCode, by simp [execRead, hread], by simp [execRead, hread]⟩
  closed_spec := event_of_closed hn

end ProcessHistory

end Codex.ExecServer

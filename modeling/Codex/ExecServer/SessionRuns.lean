import Codex.ExecServer.RecoveredEvents

/-! Notifications arrive in any order, more than once or not at all, and every reconnect recovers
from a read whose `after_seq` was sampled before. -/

namespace Codex.ExecServer
open Codex.Lib Fallible List Triple
open Codex.NoiseRelay (ExecServerError)

namespace SessionState

variable {h : ProcessHistory} {s s' : SessionState} {e : ExecProcessEvent}
  {n afterSeq : Nat} {response : ReadResponse}

def Appends {α : Type} (m : Recovery α) : Prop :=
  ∀ l, Triple (l <+: ·.events) m (fun _ s => l <+: s.events) (l <+: ·.events)

theorem Appends.bind {α β : Type} {m : Recovery α} {f : α → Recovery β} (hm : Appends m)
    (hf : ∀ a, Appends (f a)) : Appends (m >>= f) :=
  fun l => Triple.bind (hm l) fun a => hf a l

theorem appends_pure {α : Type} (a : α) : Appends (pure a) := fun _ => pure fun _ hs => hs

theorem appends_throw {α : Type} (e : ExecServerError) : Appends (throw e : Recovery α) :=
  fun _ => throw fun _ hs => hs

theorem Appends.get_bind {α : Type} {f : SessionState → Recovery α} (hf : ∀ s, Appends (f s)) :
    Appends (get >>= f) :=
  fun l => Triple.get_bind fun s hs => (hf s l).strengthen fun t ht => by rwa [ht]

theorem appends_publishReady : Appends (modify publishReady) :=
  fun _ => modify fun s hs => hs.trans (publishReady_advances s).events_append

theorem events_insertPending (hok : s.insertPending e = .ok s') : s'.events = s.events := by
  rw [insertPending] at hok
  cases hinsert : s.orderedEvents.insertPending e with
  | error message =>
    rw [hinsert] at hok
    cases hok
  | ok o =>
    rw [hinsert] at hok
    cases hok
    rfl

theorem appends_insertEvent (e : ExecProcessEvent) : Appends (insertEvent e) := by
  intro l
  refine insertEvent_triple (fun s s' hs hok => ?_) fun _ hs => hs
  rw [events_insertPending hok]
  exact hs

theorem appends_insertExit (response : ReadResponse) (seq : Nat) :
    Appends (insertExit response seq) := by
  rw [insertExit]
  split
  · exact appends_insertEvent _
  · exact appends_throw _

theorem appends_recoverExit (response : ReadResponse) (exitKnown : Bool)
    (chunk : ProcessOutputChunk) : Appends (recoverExit response exitKnown chunk) := by
  refine Appends.get_bind fun s => ?_
  simp only
  split
  · exact (appends_insertExit _ _).bind fun _ => appends_publishReady.bind fun _ => appends_pure _
  · exact appends_pure _

theorem appends_recoverChunk (chunk : ProcessOutputChunk) : Appends (recoverChunk chunk) := by
  refine Appends.get_bind fun s => ?_
  split
  · exact (appends_insertEvent _).bind fun _ => appends_publishReady
  · exact appends_pure _

theorem appends_recoverChunks (response : ReadResponse) (targetSeq : Nat)
    (chunks : List ProcessOutputChunk) :
    ∀ exitKnown, Appends (recoverChunks response targetSeq chunks exitKnown) := by
  induction chunks with
  | nil => exact fun exitKnown => appends_pure exitKnown
  | cons chunk chunks ih =>
    intro exitKnown
    rw [recoverChunks]
    split
    · exact appends_throw _
    · exact (appends_recoverExit _ _ _).bind fun known =>
        (appends_recoverChunk chunk).bind fun _ => ih known

theorem appends_recoverClosed (response : ReadResponse) (targetSeq : Nat) :
    Appends (recoverClosed response targetSeq) := by
  refine Appends.get_bind fun s => ?_
  split
  · exact appends_insertEvent _
  · exact appends_pure _

theorem appends_recoverGap (response : ReadResponse) (targetSeq : Nat) (exitKnown : Bool) :
    Appends (recoverGap response targetSeq exitKnown) := by
  refine Appends.get_bind fun s => ?_
  split
  · split
    · exact appends_throw _
    · exact appends_insertExit _ _
  · split
    · exact appends_throw _
    · exact appends_pure _

theorem prefix_publishReady (he : s.pending.lookup (s.last + 1) = some e) :
    s.events ++ [e] <+: s.publishReady.events := by
  have hmem : s.last + 1 ∈ s.pending.keys := by
    rw [← AList.mem_keys, ← AList.lookup_isSome, he]
    rfl
  obtain ⟨fuel, hfuel⟩ := Nat.exists_eq_succ_of_ne_zero (length_pos_of_mem hmem).ne'
  rw [publishReady, hfuel, publishLoop, he]
  exact (publishLoop_advances fuel (s.publishNext e)).events_append

theorem insertEvent_exit_triple (exitCode : Int) (sandboxDenied : Option Bool)
    {E : SessionState → Prop} (hnext : s.pending.lookup (s.last + 1) = none) :
    Triple (· = s) (insertEvent (.exited (s.last + 1) exitCode sandboxDenied))
      (fun _ t => s.events ++ [.exited (s.last + 1) exitCode sandboxDenied] <+:
        t.publishReady.events) E := by
  have hnot : s.last + 1 ∉ s.pending := AList.lookup_eq_none.mp hnext
  refine get_bind ?_
  rintro t rfl
  rw [insertPending, OrderedSessionEvents.insertPending]
  simp only [ExecProcessEvent.seq, if_neg hnot, ExecProcessEvent.bytes]
  refine modify fun _ _ => ?_
  exact prefix_publishReady (s := { t with orderedEvents := { t.orderedEvents with
    pending := t.pending.insert (t.last + 1) _ } }) (AList.lookup_insert _)

theorem Sound.not_conflictsWithClose (hs : Sound h s) (hread : h.ReadOf n afterSeq response) :
    (response.closed && s.conflictsWithClose response n) = false := by
  by_contra hconflict
  simp only [Bool.not_eq_false, Bool.and_eq_true, conflictsWithClose, Bool.or_eq_true] at hconflict
  obtain ⟨hclosed, hpending | hchunk⟩ := hconflict
  · cases he : s.orderedEvents.pending.lookup n with
    | none =>
      rw [he] at hpending
      cases hpending
    | some e =>
      have hevent := (hs.pending_event n e he).2
      rw [hread.closed_spec hclosed] at hevent
      cases hevent
      rw [he] at hpending
      cases hpending
  · obtain ⟨chunk, hmem, hseq⟩ := any_eq_true.mp hchunk
    have hevent := (hread.chunk_spec chunk hmem).2.2
    rw [of_decide_eq_true hseq, hread.closed_spec hclosed] at hevent
    cases hevent

theorem recoverChunks_misplaced (hs : Settled h s) (hread : h.ReadOf n afterSeq response)
    (hafter : afterSeq ≤ s.last) (hmis : s.Misplaces h response) :
    ∃ exitCode, ∀ l, l = s.events ++
        [.exited (s.last + 1) exitCode (some response.sandboxDenied)] →
      Triple (· = s) (recoverChunks response n response.chunks false)
        (fun _ t => l <+: t.events) (l <+: ·.events) := by
  obtain ⟨hdone, hexited, -, -, hchunks, next, hevent, hgone⟩ := hmis
  rw [hread.target_eq] at hdone
  have hlast := lt_of_not_isDone hdone
  obtain ⟨m, hm, e, he, hexit⟩ := hread.exists_exit hexited
  obtain ⟨exitCode, hcode, -⟩ := hread.exit_spec m hm e he hexit
  refine ⟨exitCode, ?_⟩
  rintro l rfl
  obtain ⟨chunk, chunks, hcons⟩ := exists_cons_of_ne_nil hchunks
  have hmem : chunk ∈ response.chunks := by
    rw [hcons]
    exact mem_cons_self
  have hle := (hread.chunk_spec chunk hmem).2.1
  have hseq : next.seq = s.last + 1 := Option.some.inj (ProcessHistory.seq_of_event hevent)
  have hlt : s.last + 1 < chunk.seq := by
    rw [← hseq]
    exact hread.lt_of_dropped next (by rw [hseq]; exact hevent) (by omega) (by omega) hgone
      chunk hmem
  rw [hcons, recoverChunks, if_neg (not_lt.mpr hle)]
  refine bind ?_ fun known => (appends_recoverChunk chunk).bind
    (fun _ => appends_recoverChunks response n chunks known) _
  refine get_bind ?_
  rintro t rfl
  simp only [hexited, Bool.not_false, Bool.and_true, decide_eq_true hlt, if_true]
  rw [insertExit_eq _ hcode]
  refine bind (insertEvent_exit_triple exitCode _ hs.next_not_pending) fun _ => ?_
  exact bind (modify fun _ ht => ht) fun _ => pure fun _ ht => ht

theorem Settled.events_of_misplaces (hs : Settled h s) (hread : h.ReadOf n afterSeq response)
    (hafter : afterSeq ≤ s.last) (hmis : s.Misplaces h response) :
    ∃ exitCode, s.events ++ [.exited (s.last + 1) exitCode (some response.sandboxDenied)] <+:
      ((recoverEvents response).exec s).2.events := by
  obtain ⟨exitCode, htriple⟩ := recoverChunks_misplaced hs hread hafter hmis
  refine ⟨exitCode, ?_⟩
  obtain ⟨hdone, hexited, hpublished, hpending, -⟩ := hmis
  rw [hread.target_eq] at hdone hpending
  rw [exec_recoverEvents hread, if_neg (by rw [hdone]; exact Bool.false_ne_true)]
  refine state (P := (· = s)) (R := fun t => _ <+: t.events) ?_ rfl
  refine get_bind ?_
  rintro t rfl
  simp only [hpending, hpublished, Option.elim_none, hs.toSound.not_conflictsWithClose hread]
  refine bind (Q := fun _ u => u = t) (modify fun _ hu => hu) fun _ => ?_
  refine bind (htriple _ rfl) fun known => ?_
  refine ((appends_recoverClosed response n).bind fun _ => ?_) _
  exact (appends_recoverGap response n known).bind fun _ => appends_publishReady

theorem Settled.not_isPrefix_of_misplaces (hs : Settled h s)
    (hread : h.ReadOf n afterSeq response) (hafter : afterSeq ≤ s.last)
    (hmis : s.Misplaces h response) :
    ¬ ((recoverEvents response).exec s).2.sequenced <+: h.events := by
  intro hprefix
  obtain ⟨exitCode, hevents⟩ := hs.events_of_misplaces hread hafter hmis
  obtain ⟨-, -, -, -, -, next, hevent, -⟩ := hmis
  obtain ⟨rest, hrest⟩ := (hevents.filter fun e : ExecProcessEvent => e.seq.isSome).trans hprefix
  rw [filter_append] at hrest
  change s.sequenced ++ [.exited (s.last + 1) exitCode _] ++ rest = h.events at hrest
  rw [append_assoc] at hrest
  have hget : h.events[s.last]? =
      some (.exited (s.last + 1) exitCode (some response.sandboxDenied)) := by
    rw [← hrest, getElem?_append_right hs.toSound.length_sequenced.le,
      hs.toSound.length_sequenced, Nat.sub_self]
    rfl
  rw [ProcessHistory.getElem?_events, hevent] at hget
  cases hget

end SessionState

inductive SessionStep where
  /-- a notification with that number arrives -/
  | notify (seq : Nat)
  /-- `last_published_seq` is read for a reconnect -/
  | sample
  /-- a read after `n` events, of whose outputs the oldest are dropped -/
  | recover (afterSeq n dropped : Nat)
  | fail (message : Text)
  deriving DecidableEq, Repr

structure Client where
  session : SessionState
  /-- the values of `after_seq` that were sampled -/
  sampled : List Nat

namespace Client
open SessionState

def new : Client := ⟨.new, []⟩

variable (h : ProcessHistory)

def recovery (c : Client) (afterSeq n dropped : Nat) :
    Option (Except ExecServerError Unit × SessionState) :=
  if afterSeq ∈ c.sampled ∧ n ≤ h.events.length then
    some ((recoverEvents (h.execRead n dropped afterSeq)).exec c.session)
  else none

def step (c : Client) : SessionStep → Client
  | .notify seq => { c with session := (h.event seq).elim c.session c.session.handleNotification }
  | .sample => { c with sampled := c.session.last :: c.sampled }
  | .recover afterSeq n dropped =>
    { c with session := (c.recovery h afterSeq n dropped).elim c.session (·.2) }
  | .fail message => { c with session := c.session.setFailure message }

def CatchesUp (c : Client) : SessionStep → Prop
  | .recover afterSeq n dropped => ∀ s', c.recovery h afterSeq n dropped = some (.ok (), s') →
    c.session.orderedEvents.failure = none → n ≤ s'.sequenced.length
  | _ => True

/-- In every state of the run the events `1, 2, ..., m` are published, and every recovery that
succeeds catches up. -/
def Faithful (c : Client) : List SessionStep → Prop
  | [] => c.session.sequenced <+: h.events
  | step :: steps => c.session.sequenced <+: h.events ∧ c.CatchesUp h step ∧
    (c.step h step).Faithful steps

def Misplaced (c : Client) : SessionStep → Prop
  | .recover afterSeq n dropped => (afterSeq ∈ c.sampled ∧ n ≤ h.events.length) ∧
    c.session.Misplaces h (h.execRead n dropped afterSeq)
  | _ => False

def NeverMisplaced (c : Client) : List SessionStep → Prop
  | [] => True
  | step :: steps => ¬ c.Misplaced h step ∧ (c.step h step).NeverMisplaced steps

variable {h} {c : Client}

structure Sound (h : ProcessHistory) (c : Client) : Prop where
  settled : Settled h c.session
  sampled_le : ∀ afterSeq ∈ c.sampled, afterSeq ≤ c.session.last

theorem sound_new (h : ProcessHistory) : Sound h new :=
  ⟨settled_new h, fun _ hmem => nomatch hmem⟩

theorem Sound.advance (hc : Sound h c) {s : SessionState} (hs : Settled h s)
    (hle : c.session.last ≤ s.last) : Sound h { c with session := s } :=
  ⟨hs, fun afterSeq hmem => (hc.sampled_le afterSeq hmem).trans hle⟩

theorem Sound.step (hc : Sound h c) {step : SessionStep} (hkept : ¬ c.Misplaced h step) :
    Sound h (c.step h step) ∧ c.CatchesUp h step := by
  cases step with
  | notify seq =>
    refine ⟨?_, trivial⟩
    rw [Client.step]
    cases hevent : h.event seq with
    | none => exact hc
    | some e =>
      obtain ⟨hsettled, hle⟩ := hc.settled.handleNotification hevent
      exact hc.advance hsettled hle
  | sample =>
    refine ⟨⟨hc.settled, fun afterSeq hmem => ?_⟩, trivial⟩
    rcases mem_cons.mp hmem with rfl | hmem
    · exact le_rfl
    · exact hc.sampled_le afterSeq hmem
  | recover afterSeq n dropped =>
    rw [Client.step, CatchesUp, recovery]
    split
    · next hread =>
      obtain ⟨hresumed, hcaught⟩ := hc.settled.recoverEvents_spec
        (ProcessHistory.readOf_execRead hread.2 dropped afterSeq) (hc.sampled_le _ hread.1)
        fun hmis => hkept ⟨hread, hmis⟩
      refine ⟨hc.advance hresumed.toSettled hresumed.first_le, fun s' hok hfailure => ?_⟩
      have hexec := Option.some.inj hok
      rw [hexec] at hresumed hcaught
      rw [hresumed.toSound.length_sequenced]
      exact hcaught rfl hfailure
    · exact ⟨hc, fun s' hok => nomatch hok⟩
  | fail message =>
    exact ⟨hc.advance (hc.settled.setFailure message) (last_setFailure _ message).ge, trivial⟩

theorem Sound.not_faithful_of_misplaced (hc : Sound h c) {step : SessionStep}
    (hmis : c.Misplaced h step) (steps : List SessionStep) :
    ¬ (c.step h step).Faithful h steps := by
  cases step with
  | recover afterSeq n dropped =>
    obtain ⟨hread, hmis⟩ := hmis
    have hnot := hc.settled.not_isPrefix_of_misplaces
      (ProcessHistory.readOf_execRead hread.2 dropped afterSeq) (hc.sampled_le _ hread.1) hmis
    have hstep : (c.step h (.recover afterSeq n dropped)).session =
        ((recoverEvents (h.execRead n dropped afterSeq)).exec c.session).2 := by
      rw [Client.step, recovery, if_pos hread]
      rfl
    rw [← hstep] at hnot
    intro hfaithful
    cases steps with
    | nil => exact hnot hfaithful
    | cons step steps => exact hnot hfaithful.1
  | notify seq => exact hmis.elim
  | sample => exact hmis.elim
  | fail message => exact hmis.elim

theorem Sound.faithful_iff (hc : Sound h c) (steps : List SessionStep) :
    c.Faithful h steps ↔ c.NeverMisplaced h steps := by
  induction steps generalizing c with
  | nil => exact ⟨fun _ => trivial, fun _ => hc.settled.isPrefix_events⟩
  | cons step steps ih =>
    rw [Faithful, NeverMisplaced]
    constructor
    · rintro ⟨-, -, hrest⟩
      have hkept : ¬ c.Misplaced h step := fun hmis =>
        hc.not_faithful_of_misplaced hmis steps hrest
      exact ⟨hkept, (ih (hc.step hkept).1).mp hrest⟩
    · rintro ⟨hkept, hrest⟩
      obtain ⟨hsound, hcaught⟩ := hc.step hkept
      exact ⟨hc.settled.isPrefix_events, hcaught, (ih hsound).mpr hrest⟩

theorem published_events_are_server_events_iff (h : ProcessHistory) (steps : List SessionStep) :
    new.Faithful h steps ↔ new.NeverMisplaced h steps :=
  (sound_new h).faithful_iff steps

def shortHistory : ProcessHistory where
  steps := [.output .stdout [97], .output .stdout [98], .exited 0 false]
  exit_unique := by
    intro i j x y hi hj
    have hsteps : ∀ k z, (([.output .stdout [97], .output .stdout [98], .exited 0 false] :
        List ProcessStep)[k]?).bind ProcessStep.exit? = some z → k = 2 := by
      intro k z hk
      rcases k with _ | _ | _ | k <;> simp [ProcessStep.exit?] at hk ⊢
    rw [hsteps i x hi, hsteps j y hj]
  closed_last := by
    intro i hi
    rcases i with _ | _ | _ | i <;> simp at hi

/-- The first output is lost and dropped: the exit is published as the first event. -/
theorem dropped_output_is_published_as_exit :
    (([SessionStep.sample, .recover 0 3 1].foldl (step shortHistory) new).session.sequenced =
        [.exited 1 0 (some false), .output ⟨2, .stdout, [98]⟩]) ∧
      ¬ new.Faithful shortHistory [.sample, .recover 0 3 1] := by
  refine ⟨by decide +kernel, ?_⟩
  rintro ⟨-, -, -, -, hprefix⟩
  revert hprefix
  rw [Faithful]
  decide +kernel

end Client

end Codex.ExecServer

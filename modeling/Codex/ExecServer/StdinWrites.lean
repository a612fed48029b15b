import Mathlib.Data.Finset.Card
import Codex.Lib.Text

/-! `LocalProcess::exec_write` of `exec-server/src/local_process.rs`: calls that retry a write
interleave at their await points, and the accepted ids are kept in a bounded cache. -/

namespace Codex.ExecServer
open Codex.Lib List

def retainedStdinWriteIdsPerProcess : Nat := 4096

structure AcceptedStdinWriteIds where
  ids : Finset Text
  order : List Text

namespace AcceptedStdinWriteIds

def contains (accepted : AcceptedStdinWriteIds) (writeId : Text) : Bool := writeId ∈ accepted.ids

/-- The loop of `remember`. -/
def evict (ids : Finset Text) : List Text → AcceptedStdinWriteIds
  | [] => ⟨ids, []⟩
  | evicted :: order =>
    if retainedStdinWriteIdsPerProcess < order.length + 1 then evict (ids.erase evicted) order
    else ⟨ids, evicted :: order⟩

def remember (accepted : AcceptedStdinWriteIds) (writeId : Text) : AcceptedStdinWriteIds :=
  if writeId ∈ accepted.ids then accepted
  else evict (insert writeId accepted.ids) (accepted.order ++ [writeId])

variable {accepted : AcceptedStdinWriteIds} {ids : Finset Text} {order accepts : List Text}
  {w writeId : Text}

/-- The cache after the ids `accepts` were accepted holds the last of them. -/
structure Caches (accepted : AcceptedStdinWriteIds) (accepts : List Text) : Prop where
  isSuffix : accepted.order <:+ accepts
  full : accepted.order = accepts ∨ retainedStdinWriteIdsPerProcess ≤ accepted.order.length
  nodup : accepted.order.Nodup
  mem_ids : ∀ id, id ∈ accepted.ids ↔ id ∈ accepted.order

theorem caches_evict (hnodup : order.Nodup) (hids : ∀ id, id ∈ ids ↔ id ∈ order) :
    Caches (evict ids order) order := by
  induction order generalizing ids with
  | nil => exact ⟨suffix_rfl, .inl rfl, hnodup, hids⟩
  | cons evicted order ih =>
    obtain ⟨hnotMem, hrest⟩ := nodup_cons.mp hnodup
    rw [evict]
    split
    case isTrue hlong =>
      have hcaches := @ih (ids.erase evicted) hrest fun id => by grind
      refine ⟨hcaches.isSuffix.trans (suffix_cons evicted order), .inr ?_, hcaches.nodup,
        hcaches.mem_ids⟩
      rcases hcaches.full with hall | hfull
      · rw [hall]
        exact Nat.le_of_lt_succ hlong
      · exact hfull
    case isFalse => exact ⟨suffix_rfl, .inl rfl, hnodup, hids⟩

theorem Caches.remember (h : Caches accepted accepts) (hnew : writeId ∉ accepted.ids) :
    Caches (accepted.remember writeId) (accepts ++ [writeId]) := by
  have hnotMem : writeId ∉ accepted.order := fun hmem => hnew ((h.mem_ids writeId).mpr hmem)
  have hcaches := @caches_evict (insert writeId accepted.ids) (accepted.order ++ [writeId])
    (nodup_append.mpr ⟨h.nodup, nodup_singleton writeId, by grind⟩)
    (fun id => by rw [Finset.mem_insert, h.mem_ids, mem_append, mem_singleton, or_comm])
  rw [AcceptedStdinWriteIds.remember, if_neg hnew]
  obtain ⟨older, holder⟩ := h.isSuffix
  refine ⟨hcaches.isSuffix.trans ⟨older, by rw [← append_assoc, holder]⟩, ?_, hcaches.nodup,
    hcaches.mem_ids⟩
  have hlength := @length_append _ accepted.order [writeId]
  rcases hcaches.full with hall | hfull
  · rcases h.full with hbefore | hbefore
    · exact .inl (by rw [hall, hbefore])
    · exact .inr (by rw [hall]; omega)
  · exact .inr hfull

/-- How many other ids were accepted since `w` was for the first time. -/
def othersSince (w : Text) (accepts : List Text) : Nat :=
  ((accepts.dropWhile (· ≠ w)).filter (· ≠ w)).toFinset.card

/-- An id that left the cache was followed by as many others as the cache holds. -/
theorem Caches.mem_ids_of_mem (h : Caches accepted accepts) (hmem : w ∈ accepts)
    (hfew : othersSince w accepts < retainedStdinWriteIdsPerProcess) : w ∈ accepted.ids := by
  rw [h.mem_ids]
  by_contra hnot
  have hfull := h.full.resolve_left fun hall => hnot (hall ▸ hmem)
  obtain ⟨older, holder⟩ := h.isSuffix
  have hw : w ∈ older := (mem_append.mp (holder ▸ hmem)).resolve_right hnot
  have hsub : accepted.order.toFinset ⊆
      ((accepts.dropWhile (· ≠ w)).filter (· ≠ w)).toFinset := by
    intro id hid
    rw [mem_toFinset] at hid ⊢
    have hne : id ≠ w := fun heq => hnot (heq ▸ hid)
    have hdrop : (older.dropWhile (· ≠ w)).isEmpty = false := by simpa using hw
    rw [← holder, dropWhile_append, hdrop]
    simp [hid, hne]
  have hcard := Finset.card_le_card hsub
  rw [toFinset_card_of_nodup h.nodup] at hcard
  exact absurd (hfull.trans hcard) (Nat.not_le.mpr hfew)

end AcceptedStdinWriteIds

inductive WriteStatus where
  | accepted | unknownProcess | stdinClosed | starting
  deriving DecidableEq

inductive ProcessEntry where
  | starting
  | running (tty pipeStdin : Bool)

/-- Where a call of `exec_write` waits, or how it ended. -/
inductive CallPhase where
  | lookingUp | checking | reserving | sending | cancelled
  | returned (response : Except Text WriteStatus)
  deriving DecidableEq

def CallPhase.isReturned : CallPhase → Bool
  | .returned _ => true
  | _ => false

structure WriteCall where
  writeId : Text
  chunk : Bytes
  phase : CallPhase
  deriving DecidableEq

/-- `sent` lists what went to the child's stdin. -/
structure StdinState where
  calls : List WriteCall
  accepted : AcceptedStdinWriteIds
  sent : List (Text × Bytes)

/-- What one call does between two await points. The process map, and whether the receiver of the
stdin channel is still there, are as the step finds them. -/
inductive WriteStep where
  | call (writeId : Text) (chunk : Bytes)
  | lookUp (i : Nat) (process : Option ProcessEntry)
  | check (i : Nat)
  | reserve (i : Nat) (isOpen : Bool)
  | send (i : Nat)
  | cancel (i : Nat)

def ProcessEntry.phase : Option ProcessEntry → CallPhase
  | none => .returned (.ok .unknownProcess)
  | some .starting => .returned (.ok .starting)
  | some (.running tty pipeStdin) =>
    if !tty && !pipeStdin then .returned (.ok .stdinClosed) else .checking

namespace StdinState

def setPhase (state : StdinState) (i : Nat) (phase : CallPhase) : StdinState :=
  { state with calls := state.calls.modify i fun call => { call with phase := phase } }

/-- Lets the call at `i` go on if it waits where the step begins. -/
def onCall (state : StdinState) (i : Nat) (waits : CallPhase → Bool)
    (go : WriteCall → StdinState) : StdinState :=
  match state.calls[i]? with
  | some call => if waits call.phase then go call else state
  | none => state

def step (state : StdinState) : WriteStep → StdinState
  | .call writeId chunk =>
    { state with calls := state.calls ++ [⟨writeId, chunk, if writeId = [] then
      .returned (.error "writeId must not be empty".toList) else .lookingUp⟩] }
  | .lookUp i process =>
    state.onCall i (· = .lookingUp) fun _ => state.setPhase i (ProcessEntry.phase process)
  | .check i =>
    state.onCall i (· = .checking) fun call => state.setPhase i
      (if state.accepted.contains call.writeId then .returned (.ok .accepted) else .reserving)
  | .reserve i isOpen =>
    state.onCall i (· = .reserving) fun _ => state.setPhase i
      (if isOpen then .sending
        else .returned (.error "failed to write to process stdin".toList))
  | .send i =>
    state.onCall i (· = .sending) fun call =>
      if state.accepted.contains call.writeId then state.setPhase i (.returned (.ok .accepted))
      else
        { state with
          accepted := state.accepted.remember call.writeId
          sent := state.sent ++ [(call.writeId, call.chunk)] }.setPhase i
            (.returned (.ok .accepted))
  | .cancel i => state.onCall i (!·.isReturned) fun _ => state.setPhase i .cancelled

def run (steps : List WriteStep) : StdinState := steps.foldl step ⟨[], ⟨∅, []⟩, []⟩

variable {state : StdinState} {steps : List WriteStep} {w : Text} {bytes : Bytes}

/-- The bytes of `w` that went to the child's stdin, write by write. -/
def sentFor (state : StdinState) (w : Text) : List Bytes :=
  (state.sent.filter (·.1 = w)).map Prod.snd

def accepts (state : StdinState) : List Text := state.sent.map Prod.fst

theorem sentFor_ne_nil_iff : state.sentFor w ≠ [] ↔ w ∈ state.accepts := by
  simp [sentFor, accepts]

theorem mem_setPhase {call : WriteCall} {i : Nat} {phase : CallPhase}
    (h : call ∈ (state.setPhase i phase).calls) : call ∈ state.calls ∨
      ∃ old, state.calls[i]? = some old ∧ call = { old with phase := phase } := by
  obtain ⟨j, hj⟩ := mem_iff_getElem?.mp h
  rw [setPhase, getElem?_modify] at hj
  obtain ⟨old, hold, rfl⟩ := Option.map_eq_some_iff.mp hj
  by_cases hij : i = j
  · subst hij
    exact .inr ⟨old, hold, by simp⟩
  · exact .inl (by simpa [hij] using mem_of_getElem? hold)

/-- Only a chunk that goes to stdin changes the cache. -/
theorem step_accepted (state : StdinState) (st : WriteStep) :
    (state.step st).accepted = state.accepted ∧ (state.step st).sent = state.sent ∨
      ∃ writeId chunk, writeId ∉ state.accepted.ids ∧
        (state.step st).accepted = state.accepted.remember writeId ∧
        (state.step st).sent = state.sent ++ [(writeId, chunk)] := by
  cases st with
  | send i =>
    rw [StdinState.step, onCall]
    split
    case h_2 => exact .inl ⟨rfl, rfl⟩
    case h_1 =>
      split
      case isFalse => exact .inl ⟨rfl, rfl⟩
      split
      case isTrue => exact .inl ⟨rfl, rfl⟩
      case isFalse hnew =>
        exact .inr ⟨_, _, fun hmem => hnew (decide_eq_true hmem), rfl, rfl⟩
  | call => exact .inl ⟨rfl, rfl⟩
  | _ =>
    rw [StdinState.step, onCall]
    split
    case h_2 => exact .inl ⟨rfl, rfl⟩
    case h_1 => split <;> exact .inl ⟨rfl, rfl⟩

theorem length_order_evict_le (ids : Finset Text) (order : List Text) :
    (AcceptedStdinWriteIds.evict ids order).order.length ≤ retainedStdinWriteIdsPerProcess := by
  induction order generalizing ids with
  | nil => exact Nat.zero_le _
  | cons evicted order ih =>
    rw [AcceptedStdinWriteIds.evict]
    split
    case isTrue => exact ih _
    case isFalse hfits => exact not_lt.mp hfits

/-- The cache is bounded and holds the ids accepted last. -/
def Cached (state : StdinState) : Prop :=
  state.accepted.order.length ≤ retainedStdinWriteIdsPerProcess ∧
    state.accepted.Caches state.accepts

theorem Cached.foldl (h : state.Cached) (steps : List WriteStep) :
    (steps.foldl step state).Cached := by
  refine foldlRecOn steps _ h fun state h st _ => ?_
  obtain ⟨haccepted, hsent⟩ | ⟨_, _, hnew, haccepted, hsent⟩ := step_accepted state st
  · rw [Cached, accepts, haccepted, hsent]
    exact h
  · rw [Cached, accepts, haccepted, hsent, map_append]
    refine ⟨?_, h.2.remember hnew⟩
    rw [AcceptedStdinWriteIds.remember, if_neg hnew]
    exact length_order_evict_le _ _

theorem cached_run (steps : List WriteStep) : (run steps).Cached :=
  Cached.foldl ⟨Nat.zero_le _, suffix_rfl, .inl rfl, nodup_nil, fun _ => by simp⟩ steps

/-- What holds for the write `w` at every point of a run. -/
structure Delivers (w : Text) (bytes : Bytes) (state : StdinState) : Prop where
  chunk : ∀ call ∈ state.calls, call.writeId = w → call.chunk = bytes
  sent : state.sentFor w = [] ∨ state.sentFor w = [bytes]
  returned : ∀ call ∈ state.calls, call.writeId = w → call.phase = .returned (.ok .accepted) →
    w ∈ state.accepts

variable {i : Nat} {phase : CallPhase} {call : WriteCall}

theorem Delivers.onCall {waits : CallPhase → Bool} {go : WriteCall → StdinState}
    (h : Delivers w bytes state)
    (hgo : ∀ call, state.calls[i]? = some call → waits call.phase → Delivers w bytes (go call)) :
    Delivers w bytes (state.onCall i waits go) := by
  unfold StdinState.onCall
  split
  next call hcall =>
    split
    case isTrue hwaits => exact hgo call hcall hwaits
    case isFalse => exact h
  next => exact h

theorem Delivers.setPhase (h : Delivers w bytes state) (hcall : state.calls[i]? = some call)
    (hreturned : call.writeId = w → phase = .returned (.ok .accepted) → w ∈ state.accepts) :
    Delivers w bytes (state.setPhase i phase) := by
  refine ⟨?_, h.sent, ?_⟩
  · intro changed hchanged hw
    rcases mem_setPhase hchanged with hold | ⟨old, hold, rfl⟩
    · exact h.chunk changed hold hw
    · exact h.chunk old (mem_of_getElem? hold) hw
  · intro changed hchanged hw hphase
    rcases mem_setPhase hchanged with hold | ⟨old, hold, rfl⟩
    · exact h.returned changed hold hw hphase
    · rw [hcall, Option.some_inj] at hold
      exact hreturned (hold ▸ hw) hphase

/-- Sending keeps what holds for `w`: its bytes are not sent again while it is in the cache. -/
theorem Delivers.send (h : Delivers w bytes state) (hcached : state.Cached)
    (hcall : state.calls[i]? = some call) (hnew : call.writeId ∉ state.accepted.ids)
    (hfew : call.writeId = w →
      AcceptedStdinWriteIds.othersSince w state.accepts < retainedStdinWriteIdsPerProcess) :
    Delivers w bytes { state with
      accepted := state.accepted.remember call.writeId
      sent := state.sent ++ [(call.writeId, call.chunk)] } := by
  refine ⟨h.chunk, ?_, ?_⟩
  · by_cases hw : call.writeId = w
    · have hnot : state.sentFor w = [] := by
        by_contra hsent
        have hmem := hcached.2.mem_ids_of_mem (sentFor_ne_nil_iff.mp hsent) (hfew hw)
        exact hnew (hw ▸ hmem)
      rw [sentFor, map_eq_nil_iff] at hnot
      exact .inr (by simp [sentFor, hnot, hw, h.chunk call (mem_of_getElem? hcall) hw])
    · simpa [sentFor, hw] using h.sent
  · intro other hmem hw hphase
    rw [accepts, map_append]
    exact mem_append_left _ (h.returned other hmem hw hphase)

theorem Delivers.step {st : WriteStep} (h : Delivers w bytes state) (hcached : state.Cached)
    (hbytes : ∀ chunk, st = .call w chunk → chunk = bytes)
    (hfew : ∀ i call, st = .send i → state.calls[i]? = some call → call.writeId = w →
      call.phase = .sending →
      AcceptedStdinWriteIds.othersSince w state.accepts < retainedStdinWriteIdsPerProcess) :
    Delivers w bytes (state.step st) := by
  have haccepted : ∀ {writeId}, state.accepted.contains writeId → writeId = w →
      w ∈ state.accepts := by
    rintro writeId hmem rfl
    exact hcached.2.isSuffix.subset ((hcached.2.mem_ids writeId).mp (of_decide_eq_true hmem))
  cases st with
  | call writeId chunk =>
    refine ⟨?_, h.sent, ?_⟩
    · intro call hcall hw
      rcases mem_append.mp hcall with hold | hnew
      · exact h.chunk call hold hw
      · rw [mem_singleton.mp hnew] at hw ⊢
        exact hbytes chunk (by rw [← hw])
    · intro call hcall hw hphase
      rcases mem_append.mp hcall with hold | hnew
      · exact h.returned call hold hw hphase
      · rw [mem_singleton.mp hnew] at hphase
        dsimp only at hphase
        split at hphase <;> cases hphase
  | lookUp i process =>
    rw [StdinState.step]
    refine h.onCall fun call hcall _ => h.setPhase hcall fun _ hphase => ?_
    unfold ProcessEntry.phase at hphase
    split at hphase <;> grind
  | check i =>
    rw [StdinState.step]
    refine h.onCall fun call hcall _ => h.setPhase hcall fun hw hphase => ?_
    split at hphase
    case isTrue hmem => exact haccepted hmem hw
    case isFalse => cases hphase
  | reserve i isOpen =>
    rw [StdinState.step]
    refine h.onCall fun call hcall _ => h.setPhase hcall fun _ hphase => ?_
    cases isOpen <;> cases hphase
  | send i =>
    rw [StdinState.step]
    refine h.onCall fun call hcall hwaits => ?_
    split
    case isTrue hmem => exact h.setPhase hcall fun hw _ => haccepted hmem hw
    case isFalse hnew =>
      have hsent := h.send hcached hcall (fun hmem => hnew (decide_eq_true hmem)) fun hw =>
        hfew i call rfl hcall hw (of_decide_eq_true hwaits)
      refine hsent.setPhase hcall fun hw _ => ?_
      simp [accepts, hw]
  | cancel i =>
    rw [StdinState.step]
    exact h.onCall fun call hcall _ => h.setPhase hcall fun _ hphase => by cases hphase

/-- Fewer than `retainedStdinWriteIdsPerProcess` other ids are accepted between the first
acceptance of `w` and its last retry, until that looks for `w` under the lock. -/
def FewOthers (w : Text) (steps : List WriteStep) : Prop :=
  ∀ before i after call, steps = before ++ .send i :: after →
    (run before).calls[i]? = some call → call.writeId = w → call.phase = .sending →
    AcceptedStdinWriteIds.othersSince w (run before).accepts < retainedStdinWriteIdsPerProcess

theorem delivers_run (hbytes : ∀ chunk, .call w chunk ∈ steps → chunk = bytes)
    (hfew : FewOthers w steps) : Delivers w bytes (run steps) := by
  induction steps using List.reverseRecOn with
  | nil =>
    exact ⟨fun _ hcall => absurd hcall not_mem_nil, .inl rfl,
      fun _ hcall => absurd hcall not_mem_nil⟩
  | append_singleton steps st ih =>
    rw [run, foldl_append]
    refine (ih ?_ ?_).step (cached_run steps) ?_ ?_
    · exact fun chunk hchunk => hbytes chunk (mem_append_left _ hchunk)
    · intro before i after call hsteps
      exact hfew before i (after ++ [st]) call (by rw [hsteps, append_assoc]; rfl)
    · exact fun chunk hst => hbytes chunk (by rw [hst]; exact mem_concat_self)
    · exact fun i call hst => hfew steps i [] call (by rw [hst])

/-- However the calls interleave and wherever they are cancelled, the bytes of a write whose id
stays cached reach stdin at most once, and once if some call for it was accepted. -/
theorem retried_write_sent_once (steps : List WriteStep) (w : Text) (bytes : Bytes)
    (hbytes : ∀ chunk, .call w chunk ∈ steps → chunk = bytes) (hfew : FewOthers w steps) :
    ((run steps).sentFor w = [] ∨ (run steps).sentFor w = [bytes]) ∧
      ∀ call ∈ (run steps).calls, call.writeId = w → call.phase = .returned (.ok .accepted) →
        (run steps).sentFor w = [bytes] := by
  have h := delivers_run hbytes hfew
  refine ⟨h.sent, fun call hcall hw hphase => ?_⟩
  exact h.sent.resolve_left (sentFor_ne_nil_iff.mpr (h.returned call hcall hw hphase))

def concurrentRetry : List WriteStep :=
  [.call ['a'] [1], .call ['a'] [1], .lookUp 0 (some (.running true false)),
    .lookUp 1 (some (.running true false)), .check 0, .check 1, .reserve 0 true, .reserve 1 true,
    .send 0, .send 1]

theorem retried_write_sent_once_concurrent : (run concurrentRetry).sentFor ['a'] = [[1]] := by
  refine (retried_write_sent_once concurrentRetry ['a'] [1] ?_ ?_).2
    ⟨['a'], [1], .returned (.ok .accepted)⟩ (by decide) rfl rfl
  · simp [concurrentRetry]
  · intro before i after call hsteps _ _ _
    have hbefore : before = concurrentRetry.take before.length := by rw [hsteps, take_left]
    have hlength : before.length < 11 := by
      have hsum := congrArg List.length hsteps
      rw [length_append] at hsum
      exact Nat.lt_succ_of_le (Nat.le_of_add_right_le hsum.ge)
    rw [hbefore]
    generalize before.length = n at hlength ⊢
    revert n
    decide

/-- At every point of every run the cache is bounded and holds the ids accepted last. -/
theorem cached_ids_bounded (steps : List WriteStep) :
    (run steps).accepted.order.length ≤ retainedStdinWriteIdsPerProcess ∧
      (run steps).accepted.Caches (run steps).accepts := cached_run steps

/-- A write that no other call interleaves with. -/
def freshWrite (i : Nat) (writeId : Text) : List WriteStep :=
  [.call writeId [], .lookUp i (some (.running true false)), .check i, .reserve i true, .send i]

theorem foldl_freshWrite {writeId : Text} (hempty : writeId ≠ [])
    (hnew : writeId ∉ state.accepted.ids) :
    (freshWrite state.calls.length writeId).foldl step state =
      ⟨state.calls ++ [⟨writeId, [], .returned (.ok .accepted)⟩],
        state.accepted.remember writeId, state.sent ++ [(writeId, [])]⟩ := by
  have hmodify (call : WriteCall) (f : WriteCall → WriteCall) :
      (state.calls ++ [call]).modify state.calls.length f = state.calls ++ [f call] := by
    rw [modify_eq_take_cons_drop (by simp)]
    simp
  simp [freshWrite, step, onCall, setPhase, ProcessEntry.phase, hempty, hnew,
    AcceptedStdinWriteIds.contains, hmodify]

def otherWrites : Nat → List Text → List WriteStep
  | _, [] => []
  | i, writeId :: ids => freshWrite i writeId ++ otherWrites (i + 1) ids

theorem foldl_otherWrites {ids : List Text} (hempty : [] ∉ ids) (hnodup : ids.Nodup)
    (hcached : state.Cached) (hnew : ∀ id ∈ ids, id ∉ state.accepts) :
    let final := (otherWrites state.calls.length ids).foldl step state
    state.calls <+: final.calls ∧ final.sent = state.sent ++ ids.map (·, []) := by
  induction ids generalizing state with
  | nil => exact ⟨prefix_rfl, (append_nil _).symm⟩
  | cons writeId ids ih =>
    obtain ⟨hne, hempty⟩ := not_or.mp (mem_cons.not.mp hempty)
    obtain ⟨hnotMem, hnodup⟩ := nodup_cons.mp hnodup
    have hfresh : writeId ∉ state.accepted.ids := fun hmem =>
      hnew writeId mem_cons_self (hcached.2.isSuffix.subset ((hcached.2.mem_ids writeId).mp hmem))
    have hnext := hcached.foldl (freshWrite state.calls.length writeId)
    rw [foldl_freshWrite (Ne.symm hne) hfresh] at hnext
    rw [otherWrites, foldl_append, foldl_freshWrite (Ne.symm hne) hfresh]
    obtain ⟨hcalls, hsent⟩ := ih hempty hnodup hnext fun id hid => by
      simp only [accepts, map_append, map_cons, map_nil, mem_append, mem_singleton, not_or]
      exact ⟨hnew id (mem_cons_of_mem _ hid), fun heq => hnotMem (heq ▸ hid)⟩
    rw [length_append, length_singleton] at hcalls hsent
    refine ⟨(prefix_append _ _).trans hcalls, hsent.trans ?_⟩
    rw [append_assoc, map_cons, singleton_append]

/-- A write and its retry that both pass the check before one of them sends. -/
def retryAdmitted : List WriteStep :=
  [.call ['a'] [1], .call ['a'] [1], .lookUp 0 (some (.running true false)),
    .lookUp 1 (some (.running true false)), .check 0, .check 1, .reserve 0 true, .send 0]

/-- The retry gets its permit after the other writes. -/
def waitingRetry (ids : List Text) : List WriteStep :=
  retryAdmitted ++ otherWrites 2 ids ++ [.reserve 1 true, .send 1]

theorem sentFor_waitingRetry {ids : List Text} (hempty : [] ∉ ids) (hnodup : ids.Nodup)
    (hother : ['a'] ∉ ids) (hmany : retainedStdinWriteIdsPerProcess ≤ ids.length) :
    (run (waitingRetry ids)).sentFor ['a'] = [[1], [1]] := by
  have hadmitted : (run retryAdmitted).calls =
      [⟨['a'], [1], .returned (.ok .accepted)⟩, ⟨['a'], [1], .reserving⟩] := by decide
  have hfirst : (run retryAdmitted).sent = [(['a'], [1])] := by decide
  obtain ⟨hcalls, hsent⟩ := foldl_otherWrites hempty hnodup (cached_run retryAdmitted)
    fun id hid hmem => by
      rw [accepts, hfirst, map_singleton, mem_singleton] at hmem
      rw [hmem] at hid
      exact hother hid
  have hcached := (cached_run retryAdmitted).foldl
    (otherWrites (run retryAdmitted).calls.length ids)
  rw [run, waitingRetry, foldl_append, foldl_append, ← run]
  rw [hadmitted] at hcalls hsent hcached
  rw [hfirst] at hsent
  simp only [length_cons, length_nil, Nat.zero_add, Nat.reduceAdd] at hcalls hsent hcached
  generalize (otherWrites 2 ids).foldl step (run retryAdmitted) = state at hcalls hsent hcached
  -- the cache holds the last of the other ids only
  have hgone : ['a'] ∉ state.accepted.ids := by
    have haccepts : state.accepts = ['a'] :: ids := by simp [accepts, hsent, Function.comp_def]
    obtain ⟨hlength, hcaches⟩ := hcached
    have hsuffix := hcaches.isSuffix
    rw [haccepts] at hsuffix
    rw [hcaches.mem_ids]
    exact fun hmem => hother ((suffix_of_suffix_length_le hsuffix (suffix_cons _ ids)
      (hlength.trans hmany)).subset hmem)
  have hcall : state.calls[1]? = some ⟨['a'], [1], .reserving⟩ := by
    obtain ⟨newer, hnewer⟩ := hcalls
    rw [← hnewer]
    rfl
  have hothers : ∀ id ∈ ids, id ≠ ['a'] := fun id hid heq => hother (heq ▸ hid)
  simpa [step, onCall, setPhase, hcall, hgone, AcceptedStdinWriteIds.contains, sentFor, hsent]
    using hothers

theorem mem_of_call_mem_otherWrites {ids : List Text} {chunk : Bytes}
    (h : .call w chunk ∈ otherWrites i ids) : w ∈ ids := by
  induction ids generalizing i with
  | nil => exact absurd h not_mem_nil
  | cons writeId ids ih =>
    rcases mem_append.mp h with hfirst | hlater
    · simp only [freshWrite, mem_cons, reduceCtorEq, WriteStep.call.injEq, not_mem_nil, or_false]
        at hfirst
      rw [hfirst.1]
      exact mem_cons_self
    · exact mem_cons_of_mem _ (ih hlater)

def otherIds : List Text :=
  (range retainedStdinWriteIdsPerProcess).map fun n => replicate (n + 1) 'b'

/-- No other id is accepted before the last retry is made, and its bytes are sent twice. -/
theorem waiting_retry_sent_twice :
    (∀ before chunk after, waitingRetry otherIds = before ++ .call ['a'] chunk :: after →
      chunk = [1] ∧ AcceptedStdinWriteIds.othersSince ['a'] (run before).accepts = 0) ∧
    (run (waitingRetry otherIds)).sentFor ['a'] = [[1], [1]] := by
  have hother : ['a'] ∉ otherIds := by simp [otherIds, replicate_succ]
  constructor
  · intro before chunk after hsplit
    rcases before with _ | ⟨st, _ | ⟨st', before⟩⟩
    · simp only [waitingRetry, retryAdmitted, cons_append, nil_append, cons.injEq,
        WriteStep.call.injEq, true_and] at hsplit
      exact ⟨hsplit.1.symm, by simp [run, accepts, AcceptedStdinWriteIds.othersSince]⟩
    · simp only [waitingRetry, retryAdmitted, cons_append, nil_append, cons.injEq,
        WriteStep.call.injEq, true_and] at hsplit
      obtain ⟨rfl, rfl, _⟩ := hsplit
      exact ⟨rfl, by decide⟩
    · exfalso
      have hmem : WriteStep.call ['a'] chunk ∈ (waitingRetry otherIds).drop 2 := by
        rw [hsplit]
        simp
      simp [waitingRetry, retryAdmitted] at hmem
      exact hother (mem_of_call_mem_otherWrites hmem)
  · refine sentFor_waitingRetry ?_ ?_ hother ?_
    · simp [otherIds]
    · refine Nodup.map ?_ nodup_range
      intro m n h
      simpa using congrArg List.length h
    · simp [otherIds]

end StdinState
end Codex.ExecServer

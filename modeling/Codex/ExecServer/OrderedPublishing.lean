import Codex.ExecServer.ProcessHistory

/-! The published events are a prefix of the history, and every pending event is the event with its
number. Publishing what is ready stops at the first number that is not pending. -/

namespace Codex.ExecServer
open Codex.Lib List ProcessHistory

def ProcessHistory.Happened (h : ProcessHistory) (p : ExecProcessEvent → Bool) (n : Nat) : Prop :=
  ∃ m ≤ n, ∃ e, h.event m = some e ∧ p e = true

theorem ProcessHistory.happened_succ {h : ProcessHistory} {p : ExecProcessEvent → Bool} {n : Nat}
    {e : ExecProcessEvent} (he : h.event (n + 1) = some e) :
    h.Happened p (n + 1) ↔ h.Happened p n ∨ p e := by
  constructor
  · rintro ⟨m, hm, d, hd, hp⟩
    rcases Nat.le_succ_iff.mp hm with hle | rfl
    · exact .inl ⟨m, hle, d, hd, hp⟩
    · rw [he] at hd
      cases hd
      exact .inr hp
  · rintro (⟨m, hm, d, hd, hp⟩ | hp)
    · exact ⟨m, by omega, d, hd, hp⟩
    · exact ⟨n + 1, le_rfl, e, he, hp⟩

namespace SessionState

def sequenced (s : SessionState) : List ExecProcessEvent := s.events.filter (·.seq.isSome)

abbrev last (s : SessionState) : Nat := s.orderedEvents.lastPublishedSeq

abbrev pending (s : SessionState) : AList fun _ : Nat => ExecProcessEvent :=
  s.orderedEvents.pending

structure Sound (h : ProcessHistory) (s : SessionState) : Prop where
  le_length : s.last ≤ h.events.length
  sequenced_eq : s.sequenced = h.events.take s.last
  pending_event : ∀ n e, s.pending.lookup n = some e → s.last < n ∧ h.event n = some e
  exitPublished_iff : s.orderedEvents.exitPublished = true ↔
    h.Happened ExecProcessEvent.isExited s.last
  closedPublished_iff : s.orderedEvents.closedPublished = true ↔
    h.Happened ExecProcessEvent.isClosed s.last

structure Settled (h : ProcessHistory) (s : SessionState) : Prop extends Sound h s where
  next_not_pending : s.pending.lookup (s.last + 1) = none

structure Advances (s s' : SessionState) : Prop where
  le_last : s.last ≤ s'.last
  was_pending : ∀ n, s.last < n → n ≤ s'.last → (s.pending.lookup n).isSome = true
  lookup_eq : ∀ n, s'.last < n → s'.pending.lookup n = s.pending.lookup n
  events_append : s.events <+: s'.events

variable {h : ProcessHistory} {s s' : SessionState} {e : ExecProcessEvent}

theorem settled_new (h : ProcessHistory) : Settled h new := by
  have hnone : ∀ p, ¬ h.Happened p 0 := by
    rintro p ⟨m, hm, e, he, -⟩
    obtain rfl : m = 0 := by omega
    cases he
  exact
    { le_length := Nat.zero_le _
      sequenced_eq := rfl
      pending_event := fun n e he => nomatch he
      exitPublished_iff := ⟨fun hp => (nomatch hp), fun hp => absurd hp (hnone _)⟩
      closedPublished_iff := ⟨fun hp => (nomatch hp), fun hp => absurd hp (hnone _)⟩
      next_not_pending := rfl }

theorem Sound.isPrefix_events (hs : Sound h s) : s.sequenced <+: h.events := by
  rw [hs.sequenced_eq]
  exact List.take_prefix _ _

theorem Sound.length_sequenced (hs : Sound h s) : s.sequenced.length = s.last := by
  rw [hs.sequenced_eq, length_take, min_eq_left hs.le_length]

theorem Sound.withPending (hs : Sound h s) {pending : AList fun _ : Nat => ExecProcessEvent}
    {pendingBytes : Nat}
    (hpending : ∀ n e, pending.lookup n = some e → s.last < n ∧ h.event n = some e) :
    Sound h { s with orderedEvents := { s.orderedEvents with pending, pendingBytes } } :=
  ⟨hs.le_length, hs.sequenced_eq, hpending, hs.exitPublished_iff, hs.closedPublished_iff⟩

theorem Sound.publishNext (hs : Sound h s) (he : s.pending.lookup (s.last + 1) = some e) :
    Sound h (s.publishNext e) := by
  have hevent := (hs.pending_event _ e he).2
  have hseq : e.seq.isSome := by
    rw [seq_of_event hevent]
    rfl
  exact
    { le_length := le_length_of_event hevent
      sequenced_eq := by
        change (s.events ++ [e]).filter _ = h.events.take (s.last + 1)
        rw [filter_append, take_succ_events hevent, ← hs.sequenced_eq]
        exact congrArg (s.sequenced ++ ·)
          (filter_cons_of_pos (p := fun e : ExecProcessEvent => e.seq.isSome) hseq)
      pending_event := by
        intro n d hd
        change (s.pending.erase (s.last + 1)).lookup n = some d at hd
        have hne : n ≠ s.last + 1 := by
          rintro rfl
          rw [AList.lookup_erase] at hd
          cases hd
        rw [AList.lookup_erase_ne hne] at hd
        obtain ⟨hlt, hevent⟩ := hs.pending_event n d hd
        exact ⟨lt_of_le_of_ne hlt hne.symm, hevent⟩
      exitPublished_iff := by
        rw [show (s.publishNext e).last = s.last + 1 from rfl,
          happened_succ hevent, ← hs.exitPublished_iff]
        exact Bool.or_eq_true _ _ ▸ Iff.rfl
      closedPublished_iff := by
        rw [show (s.publishNext e).last = s.last + 1 from rfl,
          happened_succ hevent, ← hs.closedPublished_iff]
        exact Bool.or_eq_true _ _ ▸ Iff.rfl }

theorem Advances.refl (s : SessionState) : Advances s s :=
  ⟨le_rfl, fun _ hlt hle => absurd hlt (not_lt.mpr hle), fun _ _ => rfl, prefix_rfl⟩

theorem Advances.publishNext_trans (he : s.pending.lookup (s.last + 1) = some e)
    (hrest : Advances (s.publishNext e) s') : Advances s s' := by
  have hle : s.last + 1 ≤ s'.last := hrest.le_last
  have herase : ∀ n, n ≠ s.last + 1 →
      (s.publishNext e).pending.lookup n = s.pending.lookup n :=
    fun n hne => AList.lookup_erase_ne hne
  refine ⟨by omega, fun n hlt hn => ?_, fun n hlt => ?_, ?_⟩
  · by_cases hnext : n = s.last + 1
    · rw [hnext, he]
      rfl
    · rw [← herase n hnext]
      exact hrest.was_pending n (lt_of_le_of_ne hlt (Ne.symm hnext)) hn
  · rw [hrest.lookup_eq n hlt]
    exact herase n (by omega)
  · exact (prefix_append _ _).trans hrest.events_append

theorem publishLoop_advances (fuel : Nat) (s : SessionState) : Advances s (publishLoop fuel s) := by
  induction fuel generalizing s with
  | zero => exact Advances.refl s
  | succ fuel ih =>
    rw [publishLoop]
    cases he : s.orderedEvents.pending.lookup (s.orderedEvents.lastPublishedSeq + 1) with
    | none => exact Advances.refl s
    | some e => exact Advances.publishNext_trans he (ih _)

theorem Sound.publishLoop (hs : Sound h s) (fuel : Nat) : Sound h (publishLoop fuel s) := by
  induction fuel generalizing s with
  | zero => exact hs
  | succ fuel ih =>
    rw [SessionState.publishLoop]
    cases he : s.orderedEvents.pending.lookup (s.orderedEvents.lastPublishedSeq + 1) with
    | none => exact hs
    | some e => exact ih (hs.publishNext he)

theorem publishLoop_next (fuel : Nat) (s : SessionState) (hfuel : s.pending.keys.length ≤ fuel) :
    (publishLoop fuel s).pending.lookup ((publishLoop fuel s).last + 1) = none := by
  induction fuel generalizing s with
  | zero =>
    rw [AList.lookup_eq_none, AList.mem_keys]
    change s.last + 1 ∉ s.pending.keys
    rw [eq_nil_of_length_eq_zero (Nat.le_zero.mp hfuel)]
    exact not_mem_nil
  | succ fuel ih =>
    rw [publishLoop]
    cases he : s.orderedEvents.pending.lookup (s.orderedEvents.lastPublishedSeq + 1) with
    | none => exact he
    | some e =>
      refine ih _ ?_
      have hmem : s.last + 1 ∈ s.pending.keys := by
        rw [← AList.mem_keys, ← AList.lookup_isSome, he]
        rfl
      change (s.pending.erase (s.last + 1)).keys.length ≤ fuel
      rw [AList.keys_erase, length_erase_of_mem hmem]
      omega

theorem publishReady_advances (s : SessionState) : Advances s s.publishReady :=
  publishLoop_advances _ s

theorem Sound.publishReady (hs : Sound h s) : Settled h s.publishReady :=
  ⟨hs.publishLoop _, publishLoop_next _ s le_rfl⟩

def Reached (s : SessionState) (n : Nat) : Prop :=
  n ≤ s.last ∨ (s.pending.lookup n).isSome = true

theorem Settled.not_reached (hs : Settled h s) : ¬ s.Reached (s.last + 1) := by
  rintro (hle | hsome)
  · omega
  · rw [hs.next_not_pending] at hsome
    cases hsome

theorem Sound.reached_publishReady (hs : Sound h s) {n : Nat} :
    s.publishReady.Reached n ↔ s.Reached n := by
  have hadvances := publishReady_advances s
  have hle := hadvances.le_last
  constructor
  · rintro (hn | hsome)
    · by_cases hlt : s.last < n
      · exact .inr (hadvances.was_pending n hlt hn)
      · exact .inl (by omega)
    · obtain ⟨e, he⟩ := Option.isSome_iff_exists.mp hsome
      have hlt := (hs.publishReady.pending_event n e he).1
      rw [hadvances.lookup_eq n hlt] at hsome
      exact .inr hsome
  · rintro (hn | hsome)
    · exact .inl (by omega)
    · by_cases hlt : s.publishReady.last < n
      · rw [← hadvances.lookup_eq n hlt] at hsome
        exact .inr hsome
      · exact .inl (by omega)

theorem Sound.le_publishReady (hs : Sound h s) {n : Nat} (hreached : ∀ m ≤ n, s.Reached m) :
    n ≤ s.publishReady.last := by
  by_contra hlt
  exact hs.publishReady.not_reached (hs.reached_publishReady.mpr (hreached _ (by omega)))

theorem insertPending_eq_ok {n : Nat} (hok : s.insertPending e = .ok s') (hseq : e.seq = some n)
    (hsame : ∀ d, s.pending.lookup n = some d → d = e) :
    ∃ pending pendingBytes,
      s' = { s with orderedEvents := { s.orderedEvents with pending, pendingBytes } } ∧
      ∀ m, pending.lookup m = if m = n then some e else s.pending.lookup m := by
  rw [insertPending, OrderedSessionEvents.insertPending, hseq] at hok
  simp only at hok
  split_ifs at hok with hmem
  · cases hok
    refine ⟨s.pending, s.orderedEvents.pendingBytes, rfl, fun m => ?_⟩
    obtain ⟨d, hd⟩ := Option.isSome_iff_exists.mp (AList.lookup_isSome.mpr hmem)
    split_ifs with hm
    · rw [hm, hd, hsame d hd]
    · rfl
  all_goals cases hok
  refine ⟨_, _, rfl, fun m => ?_⟩
  split_ifs with hm
  · rw [hm, AList.lookup_insert]
  · exact AList.lookup_insert_ne hm

theorem Sound.insert {n : Nat} (hs : Sound h s) (hevent : h.event n = some e) (hlt : s.last < n)
    (hok : s.insertPending e = .ok s') :
    Sound h s' ∧ s'.last = s.last ∧ s'.events = s.events ∧
      s'.orderedEvents.failure = s.orderedEvents.failure ∧
      ∀ m, s'.pending.lookup m = if m = n then some e else s.pending.lookup m := by
  have hsame : ∀ d, s.pending.lookup n = some d → d = e := by
    intro d hd
    have hd' := (hs.pending_event n d hd).2
    rw [hevent] at hd'
    exact (Option.some.inj hd').symm
  obtain ⟨pending, pendingBytes, rfl, hlookup⟩ :=
    insertPending_eq_ok hok (seq_of_event hevent) hsame
  refine ⟨hs.withPending fun m d hd => ?_, rfl, rfl, rfl, hlookup⟩
  rw [hlookup] at hd
  split_ifs at hd with hm
  · cases hd
    rw [hm]
    exact ⟨hlt, hevent⟩
  · exact hs.pending_event m d hd

theorem Sound.reached_insert {n m : Nat} (hs : Sound h s) (hevent : h.event n = some e)
    (hlt : s.last < n) (hok : s.insertPending e = .ok s') :
    s'.Reached m ↔ m = n ∨ s.Reached m := by
  obtain ⟨-, hlast, -, -, hlookup⟩ := hs.insert hevent hlt hok
  rw [Reached, Reached, hlast, hlookup]
  split_ifs with hm
  · simp [hm]
  · simp [hm]

theorem lt_of_not_isDone {n : Nat} (hdone : s.isDone n = false) : s.last < n := by
  rw [isDone, Bool.or_eq_false_iff, decide_eq_false_iff_not, not_le] at hdone
  exact hdone.2

theorem last_setFailure (s : SessionState) (message : Text) :
    (s.setFailure message).last = s.last := by
  rw [setFailure]
  split <;> rfl

theorem Settled.setFailure (hs : Settled h s) (message : Text) :
    Settled h (s.setFailure message) := by
  rw [SessionState.setFailure]
  split
  · exact hs
  · have hsequenced : (s.events ++ [ExecProcessEvent.failed message]).filter (·.seq.isSome) =
        s.sequenced := by
      rw [filter_append]
      exact append_nil _
    exact
      { le_length := hs.le_length
        sequenced_eq := hsequenced.trans hs.sequenced_eq
        pending_event := fun n e he => nomatch he
        exitPublished_iff := hs.exitPublished_iff
        closedPublished_iff := hs.closedPublished_iff
        next_not_pending := rfl }

theorem Settled.handleNotification {n : Nat} (hs : Settled h s) (hevent : h.event n = some e) :
    Settled h (s.handleNotification e) ∧ s.last ≤ (s.handleNotification e).last := by
  rw [SessionState.handleNotification, publishOrderedEvent, seq_of_event hevent]
  simp only
  by_cases hdone : s.isDone n
  · rw [if_pos hdone]
    exact ⟨hs, le_rfl⟩
  · rw [if_neg hdone]
    have hlt := lt_of_not_isDone (eq_false_of_ne_true hdone)
    cases hinsert : s.insertPending e with
    | error message => exact ⟨hs.setFailure message, (last_setFailure s message).ge⟩
    | ok s' =>
      obtain ⟨hsound, hlast, -⟩ := hs.toSound.insert hevent hlt hinsert
      exact ⟨hsound.publishReady, hlast.symm.le.trans (publishReady_advances s').le_last⟩

end SessionState

end Codex.ExecServer

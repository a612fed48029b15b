import Codex.ExecServer.OrderedPublishing
import Mathlib.Data.Finset.Card

/-! A read does not tell the number of the exit event, which is inferred from the gaps; that is
right as long as the event after the last published one is not an output that is no longer retained.
-/

namespace Codex.ExecServer
open Codex.Lib List OrderedSessionEvents
open Codex.NoiseRelay (ExecServerError)

namespace OrderedSessionEvents

variable {o : OrderedSessionEvents} {first last seq : Nat}

theorem mem_pendingRange :
    seq ∈ o.pendingRange first last ↔ seq ∈ o.pending ∧ first ≤ seq ∧ seq ≤ last := by
  rw [pendingRange, mem_insertionSort, mem_filter, decide_eq_true_eq, AList.mem_keys]

theorem nodup_pendingRange : (o.pendingRange first last).Nodup :=
  (perm_insertionSort _ _).nodup_iff.mpr (o.pending.nodupKeys.filter _)

theorem pairwise_pendingRange : (o.pendingRange first last).Pairwise (· < ·) :=
  ((pairwise_insertionSort (· ≤ ·) _).and nodup_pendingRange).imp fun hab =>
    lt_of_le_of_ne hab.1 hab.2

theorem pendingExit_eq_some (hexit : o.pendingExit last = some seq) :
    seq ≤ last ∧ ∃ e, o.pending.lookup seq = some e ∧ e.isExited := by
  have hmem := mem_pendingRange.mp (mem_of_find?_eq_some hexit)
  refine ⟨hmem.2.2, ?_⟩
  have hany := find?_some hexit
  simpa only [Option.any_eq_true] using hany

theorem not_exited_of_pendingExit (hexit : o.pendingExit last = none) {e : ExecProcessEvent}
    (hle : seq ≤ last) (he : o.pending.lookup seq = some e) : e.isExited ≠ true := by
  have hmem : seq ∈ o.pending := AList.lookup_isSome.mp (by rw [he]; rfl)
  have hnot := find?_eq_none.mp hexit seq (mem_pendingRange.mpr ⟨hmem, Nat.zero_le _, hle⟩)
  rw [he] at hnot
  exact hnot

end OrderedSessionEvents

namespace SessionState

variable {h : ProcessHistory} {s s' : SessionState} {e : ExecProcessEvent}
  {n dropped afterSeq : Nat}

def missing (s : SessionState) (n : Nat) : Finset Nat :=
  {m ∈ Finset.Ioc s.last n | (s.pending.lookup m).isSome = false}

theorem mem_missing {m : Nat} : m ∈ s.missing n ↔ m ≤ n ∧ ¬ s.Reached m := by
  rw [missing, Finset.mem_filter, Finset.mem_Ioc, Reached, not_or, not_le, Bool.not_eq_true]
  tauto

theorem missingCount_eq (s : SessionState) (n : Nat) : s.missingCount n = (s.missing n).card := by
  have hretained : (s.orderedEvents.pendingRange (s.last + 1) n).length =
      ({m ∈ Finset.Ioc s.last n | ¬ (s.pending.lookup m).isSome = false} : Finset Nat).card := by
    rw [← toFinset_card_of_nodup nodup_pendingRange]
    congr 1
    ext m
    rw [mem_toFinset, mem_pendingRange, Finset.mem_filter,
      Finset.mem_Ioc, Bool.not_eq_false, AList.lookup_isSome]
    exact and_comm
  have hsplit := Finset.card_filter_add_card_filter_not (s := Finset.Ioc s.last n)
    (fun m => (s.pending.lookup m).isSome = false)
  rw [Nat.card_Ioc, ← hretained] at hsplit
  change _ - s.last - _ = _
  split_ifs with hle
  · change _ - s.last - (s.orderedEvents.pendingRange (s.last + 1) n).length = _
    rw [missing]
    omega
  · have hle : ¬ s.last + 1 ≤ n := hle
    rw [missing]
    omega

theorem firstMissingSeq_mem {m : Nat} (hm : m ∈ s.missing n) :
    firstMissingSeq s.orderedEvents n ∈ s.missing n := by
  obtain ⟨hfirst, hnot, hbelow⟩ := firstGap_spec
    (@pairwise_pendingRange s.orderedEvents (s.last + 1) n)
    fun k hk => (mem_pendingRange.mp hk).2.1
  change _ ≤ firstMissingSeq s.orderedEvents n at hfirst
  change firstMissingSeq s.orderedEvents n ∉ _ at hnot
  change ∀ k, _ → k < firstMissingSeq s.orderedEvents n → _ at hbelow
  obtain ⟨hle, hunreached⟩ := mem_missing.mp hm
  have hle' : firstMissingSeq s.orderedEvents n ≤ n := by
    by_contra hlt
    have hlast : s.last < m := not_le.mp fun hm => hunreached (.inl hm)
    have hmem := hbelow m hlast (by omega)
    exact hunreached (.inr (AList.lookup_isSome.mpr (mem_pendingRange.mp hmem).1))
  refine mem_missing.mpr ⟨hle', ?_⟩
  rintro (hpublished | hpending)
  · exact absurd hfirst (not_le.mpr (Nat.lt_succ_of_le hpublished))
  · exact hnot (mem_pendingRange.mpr ⟨AList.lookup_isSome.mp hpending, hfirst, hle'⟩)

def ExitMissing (h : ProcessHistory) (s : SessionState) : Prop :=
  ∀ m e, h.event m = some e → e.isExited = true → ¬ s.Reached m

structure Resumed (h : ProcessHistory) (first : Nat) (s : SessionState) : Prop extends
    Settled h s where
  first_le : first ≤ s.last

/-- The loop over the chunks, of which `done` are behind it. As long as the exit is not known, the
first event that was missing can only have come from a chunk. -/
structure Recovering (h : ProcessHistory) (first : Nat) (response : ReadResponse)
    (done : List ProcessOutputChunk) (exitKnown : Bool) (s : SessionState) : Prop extends
    Resumed h first s where
  done_reached : ∀ chunk ∈ done, s.Reached chunk.seq
  exit_missing : response.exited = true → exitKnown = false → ExitMissing h s
  first_reached : exitKnown = false → s.Reached (first + 1) → ∃ chunk ∈ done, chunk.seq = first + 1
  first_retained : response.exited = true → exitKnown = false → response.chunks ≠ [] →
    ∀ chunk, h.event (first + 1) = some (.output chunk) → chunk ∈ response.chunks

theorem Resumed.insert {first m : Nat} (hs : Resumed h first s) (hevent : h.event m = some e)
    (hlt : s.last < m) (hok : s.insertPending e = .ok s') :
    Resumed h first s'.publishReady ∧ ∀ k, s'.publishReady.Reached k ↔ k = m ∨ s.Reached k := by
  obtain ⟨hsound, hlast, -⟩ := hs.toSound.insert hevent hlt hok
  have hle := (publishReady_advances s').le_last
  refine ⟨⟨hsound.publishReady, ?_⟩, fun k => ?_⟩
  · rw [hlast] at hle
    exact hs.first_le.trans hle
  · exact hsound.reached_publishReady.trans (hs.toSound.reached_insert hevent hlt hok)

open Fallible

theorem insertEvent_triple {P E : SessionState → Prop} {Q : Unit → SessionState → Prop}
    (hok : ∀ s s', P s → s.insertPending e = .ok s' → Q () s') (herror : ∀ s, P s → E s) :
    Triple P (insertEvent e) Q E := by
  refine Triple.get_bind fun s hs => ?_
  cases hinsert : s.insertPending e with
  | ok s' => exact Triple.modify fun _ _ => hok s s' hs hinsert
  | error message => exact Triple.throw fun t ht => ht ▸ herror s hs

theorem insertExit_eq {response : ReadResponse} {exitCode : Int} (seq : Nat)
    (hcode : response.exitCode = some exitCode) :
    insertExit response seq = insertEvent (.exited seq exitCode (some response.sandboxDenied)) := by
  rw [insertExit, exitEvent, hcode]

section Read
variable {first : Nat} {response : ReadResponse} {done rest : List ProcessOutputChunk}
  {chunk : ProcessOutputChunk} {exitKnown : Bool}

/-- A gap before a chunk is where the exit is, as long as the exit is not known. -/
theorem Recovering.exit_of_gap (hr : Recovering h first response done false s)
    (hread : h.ReadOf n afterSeq response) (hafter : afterSeq ≤ first)
    (hexited : response.exited) (hchunks : response.chunks = done ++ chunk :: rest)
    (hgap : s.last + 1 < chunk.seq) :
    ∃ exitCode, response.exitCode = some exitCode ∧
      h.event (s.last + 1) =
        some (.exited (s.last + 1) exitCode (some response.sandboxDenied)) := by
  have hmem : chunk ∈ response.chunks := by
    rw [hchunks]
    exact mem_append_right done mem_cons_self
  have hle := (hread.chunk_spec chunk hmem).2.1
  have hlength := hread.le_length
  have hfirst := hr.first_le
  obtain ⟨e, he⟩ := ProcessHistory.exists_event (h := h) (Nat.succ_pos s.last) (by omega)
  cases e with
  | output next =>
    have hseq : next.seq = s.last + 1 := Option.some.inj (ProcessHistory.seq_of_event he)
    exfalso
    by_cases hretained : next ∈ response.chunks
    · -- a retained output before the chunk was met earlier in the loop
      have hpairs := hread.pairwise_chunks
      rw [hchunks] at hretained hpairs
      rcases mem_append.mp hretained with hdone | hrest
      · have hreached := hr.done_reached next hdone
        rw [hseq] at hreached
        exact hr.not_reached hreached
      · have hle : chunk.seq ≤ next.seq := by
          rcases mem_cons.mp hrest with rfl | hrest
          · exact le_rfl
          · exact ((pairwise_cons.mp (pairwise_append.mp hpairs).2.1).1 next hrest).le
        omega
    · -- all chunks are after an output that is gone
      have hlater := hread.lt_of_dropped next (by rw [hseq]; exact he) (by omega) (by omega)
        hretained
      by_cases hsame : s.last = first
      · rw [hsame] at he
        exact hretained (hr.first_retained hexited rfl (ne_nil_of_mem hmem) next he)
      · obtain ⟨other, hother, hother'⟩ := hr.first_reached rfl (.inl (by omega))
        have hlt := hlater other (by rw [hchunks]; exact mem_append_left _ hother)
        omega
  | exited seq exitCode sandboxDenied =>
    obtain ⟨exitCode, hcode, hexit⟩ := hread.exit_spec (s.last + 1) (by omega) _ he rfl
    exact ⟨exitCode, hcode, he.trans (congrArg some hexit)⟩
  | closed seq =>
    have hlast := (ProcessHistory.closed_spec he rfl).1
    omega
  | failed message => cases ProcessHistory.seq_of_event he

section
variable (hr : Recovering h first response done exitKnown s)
include hr

theorem Recovering.insertExit (hevent : h.event (s.last + 1) = some e)
    (hok : s.insertPending e = .ok s') : Recovering h first response done true s'.publishReady := by
  obtain ⟨hresumed, hreached⟩ := hr.toResumed.insert hevent (Nat.lt_succ_self _) hok
  exact
    { toResumed := hresumed
      done_reached := fun chunk hchunk => (hreached _).mpr (.inr (hr.done_reached chunk hchunk))
      exit_missing := fun _ hknown => nomatch hknown
      first_reached := fun hknown => nomatch hknown
      first_retained := fun _ hknown => nomatch hknown }

theorem Recovering.insertChunk (hevent : h.event chunk.seq = some (.output chunk))
    (hlt : s.last < chunk.seq) (hok : s.insertPending (.output chunk) = .ok s') :
    Recovering h first response (done ++ [chunk]) exitKnown s'.publishReady := by
  obtain ⟨hresumed, hreached⟩ := hr.toResumed.insert hevent hlt hok
  refine
    { toResumed := hresumed
      done_reached := fun other hother => (hreached _).mpr ?_
      exit_missing := fun hexited hknown m d hd hexit hm => ?_
      first_reached := fun hknown hfirst => ?_
      first_retained := hr.first_retained }
  · rcases mem_append.mp hother with hdone | hchunk
    · exact .inr (hr.done_reached other hdone)
    · rw [mem_singleton.mp hchunk]
      exact .inl rfl
  · rcases (hreached m).mp hm with rfl | hm
    · rw [hevent] at hd
      cases hd
      cases hexit
    · exact hr.exit_missing hexited hknown m d hd hexit hm
  · rcases (hreached _).mp hfirst with hseq | hfirst
    · exact ⟨chunk, mem_append_right _ mem_cons_self, hseq.symm⟩
    · obtain ⟨other, hother, hseq⟩ := hr.first_reached hknown hfirst
      exact ⟨other, mem_append_left _ hother, hseq⟩

theorem Recovering.skipChunk (hle : chunk.seq ≤ s.last) :
    Recovering h first response (done ++ [chunk]) exitKnown s := by
  refine { hr with
    done_reached := fun other hother => ?_
    first_reached := fun hknown hfirst => ?_ }
  · rcases mem_append.mp hother with hdone | hchunk
    · exact hr.done_reached other hdone
    · rw [mem_singleton.mp hchunk]
      exact .inl hle
  · obtain ⟨other, hother, hseq⟩ := hr.first_reached hknown hfirst
    exact ⟨other, mem_append_left _ hother, hseq⟩

end

theorem recoverExit_triple (hread : h.ReadOf n afterSeq response) (hafter : afterSeq ≤ first)
    (hchunks : response.chunks = done ++ chunk :: rest) :
    Triple (Recovering h first response done exitKnown) (recoverExit response exitKnown chunk)
      (fun known => Recovering h first response done known) (Resumed h first) := by
  refine Triple.get_bind fun s hr => ?_
  simp only
  split
  · next hcond =>
    simp only [Bool.and_eq_true, Bool.not_eq_true', decide_eq_true_eq] at hcond
    obtain ⟨⟨hexited, rfl⟩, hgap⟩ := hcond
    obtain ⟨exitCode, hcode, hevent⟩ := hr.exit_of_gap hread hafter hexited hchunks hgap
    rw [insertExit_eq _ hcode]
    refine Triple.bind (Q := fun _ t => Recovering h first response done true t.publishReady)
      (insertEvent_triple ?_ ?_) fun _ => ?_
    · rintro t s' rfl hok
      exact hr.insertExit hevent hok
    · rintro t rfl
      exact hr.toResumed
    · exact Triple.bind (Triple.modify fun t ht => ht) fun _ => Triple.pure fun t ht => ht
  · exact Triple.pure fun t ht => ht ▸ hr

theorem recoverChunk_triple (hread : h.ReadOf n afterSeq response)
    (hchunk : chunk ∈ response.chunks) :
    Triple (Recovering h first response done exitKnown) (recoverChunk chunk)
      (fun _ => Recovering h first response (done ++ [chunk]) exitKnown) (Resumed h first) := by
  refine Triple.get_bind fun s hr => ?_
  split
  · next hlt =>
    refine Triple.bind
      (Q := fun _ t => Recovering h first response (done ++ [chunk]) exitKnown t.publishReady)
      (insertEvent_triple ?_ ?_) fun _ => Triple.modify fun t ht => ht
    · rintro t s' rfl hok
      exact hr.insertChunk (hread.chunk_spec chunk hchunk).2.2 hlt hok
    · rintro t rfl
      exact hr.toResumed
  · next hle => exact Triple.pure fun t ht => ht ▸ hr.skipChunk (not_lt.mp hle)

theorem recoverChunks_triple (hread : h.ReadOf n afterSeq response) (hafter : afterSeq ≤ first)
    (chunks : List ProcessOutputChunk) :
    ∀ done exitKnown, response.chunks = done ++ chunks →
      Triple (Recovering h first response done exitKnown)
        (recoverChunks response n chunks exitKnown)
        (fun known => Recovering h first response response.chunks known) (Resumed h first) := by
  induction chunks with
  | nil =>
    intro done exitKnown hchunks
    rw [append_nil] at hchunks
    rw [hchunks]
    exact Triple.pure fun t ht => ht
  | cons chunk chunks ih =>
    intro done exitKnown hchunks
    rw [recoverChunks]
    split
    · exact Triple.throw fun t ht => ht.toResumed
    · have hmem : chunk ∈ response.chunks := by
        rw [hchunks]
        exact mem_append_right done mem_cons_self
      refine Triple.bind (recoverExit_triple hread hafter hchunks) fun known => ?_
      refine Triple.bind (recoverChunk_triple hread hmem) fun _ => ?_
      exact ih (done ++ [chunk]) known (by rw [hchunks, append_assoc]; rfl)

structure Collected (h : ProcessHistory) (n first : Nat) (response : ReadResponse)
    (exitKnown : Bool) (s : SessionState) : Prop extends Sound h s where
  first_le : first ≤ s.last
  next_eq : s.Reached (s.last + 1) → s.last + 1 = n
  exit_missing : response.exited = true → exitKnown = false → ExitMissing h s

theorem Collected.resumed (hc : Collected h n first response exitKnown s)
    (hnext : ¬ s.Reached (s.last + 1)) : Resumed h first s := by
  refine ⟨⟨hc.toSound, ?_⟩, hc.first_le⟩
  rw [← Option.not_isSome_iff_eq_none]
  exact fun hsome => hnext (.inr hsome)

theorem Collected.resumed_of_missing (hc : Collected h n first response exitKnown s) {m : Nat}
    (hm : m ∈ s.missing n) : Resumed h first s := by
  refine hc.resumed fun hnext => ?_
  obtain ⟨hle, hunreached⟩ := mem_missing.mp hm
  have hn := hc.next_eq hnext
  have hlt : s.last < m := not_le.mp fun hle => hunreached (.inl hle)
  obtain rfl : m = s.last + 1 := by omega
  exact hunreached hnext

theorem Collected.insertClosed (hr : Resumed h first s)
    (hexit : response.exited → exitKnown = false → ExitMissing h s)
    (hevent : h.event n = some (.closed n)) (hlt : s.last < n)
    (hok : s.insertPending (.closed n) = .ok s') :
    Collected h n first response exitKnown s' := by
  obtain ⟨hsound, hlast, -⟩ := hr.toSound.insert hevent hlt hok
  have hreached := fun m => hr.toSound.reached_insert (m := m) hevent hlt hok
  refine ⟨hsound, hlast ▸ hr.first_le, fun hnext => ?_, fun hexited hknown m d hd hdexit hm => ?_⟩
  · rw [hlast] at hnext ⊢
    exact ((hreached _).mp hnext).resolve_right hr.not_reached
  · rcases (hreached m).mp hm with rfl | hm
    · rw [hevent] at hd
      cases hd
      cases hdexit
    · exact hexit hexited hknown m d hd hdexit hm

theorem recoverClosed_triple (hread : h.ReadOf n afterSeq response) :
    Triple (Recovering h first response response.chunks exitKnown) (recoverClosed response n)
      (fun _ => Collected h n first response exitKnown) (Resumed h first) := by
  refine Triple.get_bind fun s hr => ?_
  split
  · next hcond =>
    simp only [Bool.and_eq_true, Bool.not_eq_true'] at hcond
    have hevent := hread.closed_spec hcond.1.1
    have hlt : s.last < n := by
      by_contra hle
      have hclosed := hr.closedPublished_iff.mpr ⟨n, not_lt.mp hle, _, hevent, rfl⟩
      rw [hcond.1.2] at hclosed
      cases hclosed
    refine insertEvent_triple ?_ ?_
    · rintro t s' rfl hok
      exact Collected.insertClosed hr.toResumed hr.exit_missing hevent hlt hok
    · rintro t rfl
      exact hr.toResumed
  · refine Triple.pure fun t ht => ht ▸ ?_
    exact ⟨hr.toSound, hr.first_le, fun hnext => absurd hnext hr.not_reached, hr.exit_missing⟩

theorem Collected.exit_mem_missing (hc : Collected h n first response false s)
    (hread : h.ReadOf n afterSeq response) (hexited : response.exited) :
    ∃ m ∈ s.missing n, ∃ e, h.event m = some e ∧ e.isExited := by
  obtain ⟨m, hm, e, he, hexit⟩ := hread.exists_exit hexited
  exact ⟨m, mem_missing.mpr ⟨hm, hc.exit_missing hexited rfl m e he hexit⟩, e, he, hexit⟩

theorem Collected.insertExit (hc : Collected h n first response false s)
    (hread : h.ReadOf n afterSeq response) (hexited : response.exited)
    (hcount : (s.missing n).card = 1) :
    ∃ exitCode, response.exitCode = some exitCode ∧
      s.missing n = {firstMissingSeq s.orderedEvents n} ∧
      h.event (firstMissingSeq s.orderedEvents n) =
        some (.exited (firstMissingSeq s.orderedEvents n) exitCode
          (some response.sandboxDenied)) := by
  obtain ⟨m, hmem, e, he, hexit⟩ := hc.exit_mem_missing hread hexited
  have hm := (mem_missing.mp hmem).1
  obtain ⟨k, hk⟩ := Finset.card_eq_one.mp hcount
  have hfirst := firstMissingSeq_mem hmem
  rw [hk, Finset.mem_singleton] at hmem hfirst
  subst hmem
  obtain ⟨exitCode, hcode, rfl⟩ := hread.exit_spec m hm e he hexit
  rw [hfirst]
  exact ⟨exitCode, hcode, hk, he⟩

structure Complete (h : ProcessHistory) (n first : Nat) (s : SessionState) : Prop extends
    Sound h s where
  first_le : first ≤ s.last
  reached : ∀ m ≤ n, s.Reached m

theorem Collected.complete_of_insert (hc : Collected h n first response exitKnown s) {m : Nat}
    (hmissing : s.missing n = {m}) (hevent : h.event m = some e)
    (hok : s.insertPending e = .ok s') : Complete h n first s' := by
  have hmem : m ∈ s.missing n := by
    rw [hmissing]
    exact Finset.mem_singleton_self m
  have hlt : s.last < m := not_le.mp fun hle => (mem_missing.mp hmem).2 (.inl hle)
  obtain ⟨hsound, hlast, -⟩ := hc.toSound.insert hevent hlt hok
  refine ⟨hsound, hlast ▸ hc.first_le, fun k hk => ?_⟩
  rw [hc.toSound.reached_insert hevent hlt hok]
  by_contra hnot
  rw [not_or] at hnot
  have hk' := mem_missing.mpr ⟨hk, hnot.2⟩
  rw [hmissing, Finset.mem_singleton] at hk'
  exact hnot.1 hk'

theorem recoverGap_triple (hread : h.ReadOf n afterSeq response) :
    Triple (Collected h n first response exitKnown) (recoverGap response n exitKnown)
      (fun _ => Complete h n first) (Resumed h first) := by
  refine Triple.get_bind fun s hc => ?_
  rw [missingCount_eq]
  split
  · next hcond =>
    simp only [Bool.and_eq_true, Bool.not_eq_true'] at hcond
    obtain ⟨hexited, rfl⟩ := hcond
    obtain ⟨m, hmem, -⟩ := hc.exit_mem_missing hread hexited
    have hresumed := hc.resumed_of_missing hmem
    split
    · exact Triple.throw fun t ht => ht ▸ hresumed
    · next hcount =>
      obtain ⟨exitCode, hcode, hmissing, hevent⟩ := hc.insertExit hread hexited (not_not.mp hcount)
      rw [insertExit_eq _ hcode]
      refine insertEvent_triple ?_ ?_
      · rintro t s' rfl hok
        exact hc.complete_of_insert hmissing hevent hok
      · rintro t rfl
        exact hresumed
  · split
    · next hcount =>
      obtain ⟨m, hmem⟩ := Finset.card_ne_zero.mp hcount
      exact Triple.throw fun t ht => ht ▸ hc.resumed_of_missing hmem
    · next hcount =>
      refine Triple.pure fun t ht => ht ▸ ⟨hc.toSound, hc.first_le, fun m hm => ?_⟩
      by_contra hunreached
      exact hcount (Finset.card_ne_zero_of_mem (mem_missing.mpr ⟨hm, hunreached⟩))

/-- The exit would be taken for the event after the last published one, which is an output that the
read no longer has. -/
def Misplaces (h : ProcessHistory) (s : SessionState) (response : ReadResponse) : Prop :=
  s.isDone (response.nextSeq - 1) = false ∧ response.exited = true ∧
    s.orderedEvents.exitPublished = false ∧
    s.orderedEvents.pendingExit (response.nextSeq - 1) = none ∧ response.chunks ≠ [] ∧
    ∃ chunk, h.event (s.last + 1) = some (.output chunk) ∧ chunk ∉ response.chunks

theorem Sound.lookup_noteSandboxDenied (hs : Sound h s) (hread : h.ReadOf n afterSeq response)
    {seq : Nat} (hexit : s.orderedEvents.pendingExit n = some seq) :
    ∃ pending, s.noteSandboxDenied response.sandboxDenied seq =
        { s with orderedEvents := { s.orderedEvents with pending } } ∧
      ∀ m, pending.lookup m = s.pending.lookup m := by
  obtain ⟨hle, e, he, hexited⟩ := pendingExit_eq_some hexit
  obtain ⟨exitCode, -, rfl⟩ := hread.exit_spec seq hle e (hs.pending_event seq e he).2 hexited
  rw [noteSandboxDenied, he]
  refine ⟨_, rfl, fun m => ?_⟩
  by_cases hm : m = seq
  · rw [hm, AList.lookup_insert, he]
    simp [ExecProcessEvent.noteSandboxDenied]
  · exact AList.lookup_insert_ne hm

theorem Settled.recovering (hs : Settled h s) (hread : h.ReadOf n afterSeq response)
    (hdone : s.isDone n = false) (hkept : ¬ s.Misplaces h response) :
    Recovering h s.last response []
      (s.orderedEvents.exitPublished || (s.orderedEvents.pendingExit n).isSome) s := by
  refine
    { hs with
      first_le := le_rfl
      done_reached := fun chunk hchunk => nomatch hchunk
      exit_missing := fun hexited hknown m e he hexit => ?_
      first_reached := fun hknown hreached => absurd hreached hs.not_reached
      first_retained := fun hexited hknown hchunks chunk hevent => ?_ }
  all_goals
    rw [Bool.or_eq_false_iff, Option.isSome_eq_false_iff, Option.isNone_iff_eq_none] at hknown
  · obtain ⟨m', hm', e', he', hexit'⟩ := hread.exists_exit hexited
    obtain rfl := ProcessHistory.exit_eq he he' hexit hexit'
    rintro (hle | hsome)
    · have hpublished := hs.exitPublished_iff.mpr ⟨m, hle, e, he, hexit⟩
      rw [hknown.1] at hpublished
      cases hpublished
    · obtain ⟨d, hd⟩ := Option.isSome_iff_exists.mp hsome
      have hd' := (hs.pending_event m d hd).2
      rw [he] at hd'
      cases hd'
      exact not_exited_of_pendingExit hknown.2 hm' hd hexit
  · by_contra hgone
    refine hkept ⟨?_, hexited, hknown.1, ?_, hchunks, chunk, hevent, hgone⟩
    · rw [hread.target_eq]
      exact hdone
    · rw [hread.target_eq]
      exact hknown.2

theorem Recovering.withPending (hr : Recovering h first response done exitKnown s)
    {pending : AList fun _ : Nat => ExecProcessEvent}
    (hlookup : ∀ m, pending.lookup m = s.pending.lookup m) :
    Recovering h first response done exitKnown
      { s with orderedEvents := { s.orderedEvents with pending } } := by
  have hreached : ∀ m, Reached { s with orderedEvents := { s.orderedEvents with pending } } m ↔
      s.Reached m := fun m => or_congr Iff.rfl (by rw [← hlookup m])
  have hsound := @Sound.withPending h s hr.toSound pending s.orderedEvents.pendingBytes
    fun m e he => hr.pending_event m e ((hlookup m).symm.trans he)
  exact
    { toSound := hsound
      next_not_pending := (hlookup _).trans hr.next_not_pending
      first_le := hr.first_le
      done_reached := fun chunk hchunk => (hreached _).mpr (hr.done_reached chunk hchunk)
      exit_missing := fun hexited hknown m e he hexit hm =>
        hr.exit_missing hexited hknown m e he hexit ((hreached m).mp hm)
      first_reached := fun hknown hfirst => hr.first_reached hknown ((hreached _).mp hfirst)
      first_retained := hr.first_retained }

theorem recoverPending_triple (hs : Settled h s) (hread : h.ReadOf n afterSeq response)
    (hafter : afterSeq ≤ s.last) (hdone : s.isDone n = false)
    (hkept : ¬ s.Misplaces h response) :
    Triple (· = s) (recoverPending response n)
      (fun _ s' => Resumed h s.last s' ∧ n ≤ s'.last) (Resumed h s.last) := by
  have hr := hs.recovering hread hdone hkept
  refine Triple.get_bind ?_
  rintro t rfl
  refine Triple.bind (Q := fun _ => Recovering h t.last response []
    (t.orderedEvents.exitPublished || (t.orderedEvents.pendingExit n).isSome))
    (Triple.modify ?_) fun _ => ?_
  · rintro t' rfl
    cases hexit : t'.orderedEvents.pendingExit n with
    | none => rwa [hexit] at hr
    | some seq =>
      rw [hexit] at hr
      obtain ⟨pending, heq, hlookup⟩ := hs.toSound.lookup_noteSandboxDenied hread hexit
      rw [Option.elim_some, heq]
      exact hr.withPending hlookup
  · split
    · exact Triple.throw fun _ hr => hr.toResumed
    · refine Triple.bind (recoverChunks_triple hread hafter response.chunks [] _ rfl)
        fun known => ?_
      refine Triple.bind (recoverClosed_triple hread) fun _ => ?_
      refine Triple.bind (recoverGap_triple hread) fun _ => Triple.modify fun u hu => ?_
      have hle := (publishReady_advances u).le_last
      exact ⟨⟨hu.toSound.publishReady, hu.first_le.trans hle⟩,
        hu.toSound.le_publishReady hu.reached⟩

theorem exec_recoverEvents (hread : h.ReadOf n afterSeq response) (s : SessionState) :
    (recoverEvents response).exec s =
      if s.isDone n then (.ok (), s) else (recoverPending response n).exec s := by
  rw [recoverEvents, hread.failure_eq, hread.target_eq]
  change Fallible.exec (get >>= _) s = _
  rw [exec_bind, exec_get]
  simp only
  split <;> rfl

theorem Settled.recoverEvents_spec (hs : Settled h s) (hread : h.ReadOf n afterSeq response)
    (hafter : afterSeq ≤ s.last) (hkept : ¬ s.Misplaces h response) :
    Resumed h s.last ((recoverEvents response).exec s).2 ∧
      (((recoverEvents response).exec s).1 = .ok () → s.orderedEvents.failure = none →
        n ≤ ((recoverEvents response).exec s).2.last) := by
  rw [exec_recoverEvents hread]
  split
  · next hdone =>
    refine ⟨⟨hs, le_rfl⟩, fun _ hfailure => ?_⟩
    rw [isDone, hfailure, Option.isSome_none, Bool.false_or, Bool.or_eq_true,
      decide_eq_true_eq, hs.closedPublished_iff] at hdone
    rcases hdone with ⟨m, hm, e, he, hclosed⟩ | hle
    · have hlast := (ProcessHistory.closed_spec he hclosed).1
      exact hread.le_length.trans (hlast.symm.le.trans hm)
    · exact hle
  · next hdone =>
    have hspec := recoverPending_triple hs hread hafter (eq_false_of_ne_true hdone) hkept s rfl
    rcases hexec : (recoverPending response n).exec s with ⟨result, s'⟩
    rw [hexec] at hspec
    cases result with
    | ok _ => exact ⟨hspec.1, fun _ _ => hspec.2⟩
    | error e => exact ⟨hspec, fun hok => by cases hok⟩

end Read

end SessionState

end Codex.ExecServer

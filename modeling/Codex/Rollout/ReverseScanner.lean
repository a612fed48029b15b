import Codex.Lib.Text
import Codex.Lib.Split

/-! `ReverseJsonlScanner` of `rollout/src/reverse_jsonl_scanner.rs`. A record is put together in
reverse, the last piece first; one that gets too long is let go at once, and what is left of it is
skipped. Reads of the file do not fail. -/

namespace Codex.Rollout
open Codex.Lib List

def readChunkSize : Nat := 64 * 1024

def newline : UInt8 := 10

def isAsciiWhitespace (b : UInt8) : Bool := b = 32 || b = 9 || b = 10 || b = 12 || b = 13

def memrchr (needle : UInt8) (haystack : Bytes) : Option Nat :=
  (haystack.reverse.findIdx? (· = needle)).map (haystack.length - 1 - ·)

theorem memrchr_eq_none {needle : UInt8} {haystack : Bytes} (h : memrchr needle haystack = none) :
    needle ∉ haystack := by
  rw [memrchr, Option.map_eq_none_iff, findIdx?_eq_none_iff] at h
  intro hmem
  simpa using h needle (mem_reverse.mpr hmem)

theorem memrchr_eq_some {needle : UInt8} {haystack : Bytes} {i : Nat}
    (h : memrchr needle haystack = some i) :
    ∃ before after, haystack = before ++ needle :: after ∧ needle ∉ after ∧ before.length = i := by
  rw [memrchr, Option.map_eq_some_iff] at h
  obtain ⟨j, hj, rfl⟩ := h
  rw [findIdx?_eq_some_iff_getElem] at hj
  obtain ⟨hlt, hat, hbefore⟩ := hj
  have hsplit : haystack.reverse =
      haystack.reverse.take j ++ needle :: haystack.reverse.drop (j + 1) := by
    rw [← of_decide_eq_true hat, ← drop_eq_getElem_cons hlt, take_append_drop]
  refine ⟨(haystack.reverse.drop (j + 1)).reverse, (haystack.reverse.take j).reverse, ?_, ?_, ?_⟩
  · have hreversed := congrArg List.reverse hsplit
    simpa using hreversed
  · rw [mem_reverse, mem_take_iff_getElem]
    rintro ⟨k, hk, heq⟩
    exact absurd heq (by simpa using hbefore k (by omega))
  · rw [length_reverse, length_drop, length_reverse]
    omega

structure ReverseJsonlScanner where
  reader : Bytes
  nextChunkEnd : Nat
  chunkPosition : Nat
  chunk : Bytes
  recordReversed : Bytes
  maxRecordBytes : Option Nat
  discardingOversizedRecord : Bool

namespace ReverseJsonlScanner

def newAt (reader : Bytes) (endByteOffset : Nat) : Except Text ReverseJsonlScanner :=
  if endByteOffset > reader.length then .error "reverse JSONL scan end is past the file".toList
  else .ok ⟨reader, endByteOffset, 0, List.replicate readChunkSize 0, [], none, false⟩

def withMaxRecordBytes (self : ReverseJsonlScanner) (maxRecordBytes : Nat) :
    ReverseJsonlScanner :=
  { self with maxRecordBytes := some maxRecordBytes }

def refill (self : ReverseJsonlScanner) : ReverseJsonlScanner :=
  let readSize := min self.nextChunkEnd readChunkSize
  let nextChunkEnd := self.nextChunkEnd - readSize
  { self with
    nextChunkEnd
    chunk := (self.reader.drop nextChunkEnd).take readSize ++ self.chunk.drop readSize
    chunkPosition := readSize }

def load (self : ReverseJsonlScanner) : ReverseJsonlScanner :=
  if self.chunkPosition = 0 then self.refill else self

def store (self : ReverseJsonlScanner) (fragment : Bytes) : ReverseJsonlScanner :=
  if self.discardingOversizedRecord then self
  else if self.maxRecordBytes.any (self.recordReversed.length + fragment.length > ·) then
    { self with recordReversed := [], discardingOversizedRecord := true }
  else { self with recordReversed := self.recordReversed ++ fragment.reverse }

variable {α : Type}

/-- `parse` is `serde_json::from_slice` with its two outcomes. -/
def finishRecord (parse : Bytes → α) (self : ReverseJsonlScanner) :
    Option α × ReverseJsonlScanner :=
  let record := self.recordReversed.reverse
  (if record.all isAsciiWhitespace then none else some (parse record),
    { self with recordReversed := [] })

/-- Where the loop of `scan_next` is: at its head, or behind the newline before a record. -/
inductive Point where
  | head
  | record
  deriving DecidableEq

inductive Progress (α : Type) where
  | running (point : Point) (self : ReverseJsonlScanner)
  | returned (outcome : Option α) (self : ReverseJsonlScanner)

def step (parse : Bytes → α) : Point → ReverseJsonlScanner → Progress α
  | .head, self =>
    if self.chunkPosition = 0 ∧ self.nextChunkEnd = 0 then
      if self.discardingOversizedRecord then
        .returned none { self with discardingOversizedRecord := false }
      else
        let (outcome, self) := self.finishRecord parse
        .returned outcome self
    else
      let self := self.load
      let chunk := self.chunk.take self.chunkPosition
      match memrchr newline chunk with
      | some newlinePosition =>
        let self := self.store (chunk.drop (newlinePosition + 1))
        .running .record { self with chunkPosition := newlinePosition }
      | none => .running .head { self.store chunk with chunkPosition := 0 }
  | .record, self =>
    if self.discardingOversizedRecord then
      .running .head { self with discardingOversizedRecord := false }
    else
      match self.finishRecord parse with
      | (some outcome, self) => .returned (some outcome) self
      | (none, self) => .running .head self

def run (parse : Bytes → α) : Nat → Point → ReverseJsonlScanner → Option α × ReverseJsonlScanner
  | 0, _, self => (none, self)
  | fuel + 1, point, self =>
    match step parse point self with
    | .running point self => run parse fuel point self
    | .returned outcome self => (outcome, self)

/-- Every second step at least goes back in the file. -/
def scanNext (parse : Bytes → α) (self : ReverseJsonlScanner) : Option α × ReverseJsonlScanner :=
  run parse (2 * (self.nextChunkEnd + self.chunkPosition) + 1) .head self

def scanned (parse : Nat → Bytes → α) (self : ReverseJsonlScanner) : Nat → ReverseJsonlScanner
  | 0 => self
  | n + 1 => (scanNext (parse n) (scanned parse self n)).2

inductive Reached (start : ReverseJsonlScanner) : Point → ReverseJsonlScanner → Prop
  | start : Reached start .head start
  | running {α : Type} {parse : Bytes → α} {point point' : Point} {s s' : ReverseJsonlScanner}
      (h : Reached start point s) (hstep : step parse point s = .running point' s') :
      Reached start point' s'
  | returned {α : Type} {parse : Bytes → α} {point : Point} {s s' : ReverseJsonlScanner}
      {outcome : Option α} (h : Reached start point s)
      (hstep : step parse point s = .returned outcome s') : Reached start .head s'

def unread (s : ReverseJsonlScanner) : Bytes := s.reader.take (s.nextChunkEnd + s.chunkPosition)

def isReported (maxRecordBytes : Option Nat) (record : Bytes) : Bool :=
  !record.all isAsciiWhitespace && maxRecordBytes.all (record.length ≤ ·)

def recordsBackwards (text : Bytes) : List Bytes := (text.splitOn newline).reverse

/-- The records that later calls report. The end of the record at hand is in `recordReversed`. -/
def pending (s : ReverseJsonlScanner) : List Bytes :=
  let records := recordsBackwards (s.unread ++ s.recordReversed.reverse)
  (if s.discardingOversizedRecord then records.tail else records).filter
    (isReported s.maxRecordBytes)

structure Sound (s : ReverseJsonlScanner) : Prop where
  inFile : s.nextChunkEnd + s.chunkPosition ≤ s.reader.length
  chunkIsRead : s.unread = s.reader.take s.nextChunkEnd ++ s.chunk.take s.chunkPosition
  noNewline : newline ∉ s.recordReversed
  withinLimit : ∀ limit ∈ s.maxRecordBytes, s.recordReversed.length ≤ limit
  discarded : s.discardingOversizedRecord = true → s.recordReversed = []

/-- At the end of a record it is complete, and the newline before it is gone. -/
def pendingAt : Point → ReverseJsonlScanner → List Bytes
  | .head, s => s.pending
  | .record, s =>
    ((if s.discardingOversizedRecord then [] else [s.recordReversed.reverse]) ++
      recordsBackwards s.unread).filter (isReported s.maxRecordBytes)

theorem recordsBackwards_of_notMem {text : Bytes} (h : newline ∉ text) :
    recordsBackwards text = [text] := by
  rw [recordsBackwards, splitOn_eq_singleton h]
  rfl

theorem recordsBackwards_append_cons {before after : Bytes} (h : newline ∉ after) :
    recordsBackwards (before ++ newline :: after) = after :: recordsBackwards before := by
  rw [recordsBackwards, splitOn_append_cons_self, splitOn_eq_singleton h, reverse_append]
  rfl

theorem recordsBackwards_append (text : Bytes) :
    ∃ last earlier, ∀ piece, newline ∉ piece →
      recordsBackwards (text ++ piece) = (last ++ piece) :: earlier := by
  cases h : memrchr newline text with
  | none =>
    refine ⟨text, [], fun piece hpiece => recordsBackwards_of_notMem ?_⟩
    simp [memrchr_eq_none h, hpiece]
  | some i =>
    obtain ⟨before, after, rfl, hafter, -⟩ := memrchr_eq_some h
    refine ⟨after, recordsBackwards before, fun piece hpiece => ?_⟩
    rw [append_assoc, cons_append, recordsBackwards_append_cons]
    simp [hafter, hpiece]

variable {s s' : ReverseJsonlScanner} {point point' : Point} {parse : Bytes → α}

theorem Sound.newAt {reader : Bytes} {endByteOffset : Nat} (limit : Option Nat)
    (h : newAt reader endByteOffset = .ok s) : Sound { s with maxRecordBytes := limit } := by
  rw [ReverseJsonlScanner.newAt] at h
  split at h
  · cases h
  case isFalse hle =>
    cases h
    exact ⟨by dsimp only; omega, by simp [unread], not_mem_nil, by simp, fun _ => rfl⟩

theorem unread_refill (h : s.chunkPosition = 0) : s.refill.unread = s.unread := by
  simp only [unread, refill, h]
  congr 1
  omega

theorem pending_refill (h : s.chunkPosition = 0) : s.refill.pending = s.pending := by
  rw [pending, unread_refill h]
  rfl

theorem Sound.refill (h : Sound s) (hposition : s.chunkPosition = 0) : Sound s.refill where
  inFile := by
    have hin := h.inFile
    simp only [ReverseJsonlScanner.refill]
    omega
  chunkIsRead := by
    have hin := h.inFile
    rw [unread_refill hposition, unread, hposition]
    simp only [ReverseJsonlScanner.refill]
    generalize hsize : min s.nextChunkEnd readChunkSize = readSize
    have hle : readSize ≤ s.nextChunkEnd := by omega
    have hread : ((s.reader.drop (s.nextChunkEnd - readSize)).take readSize).length = readSize := by
      rw [length_take, length_drop]
      omega
    rw [take_append_of_le_length hread.ge, take_take, Nat.min_self, ← take_add]
    congr 1
    omega
  noNewline := h.noNewline
  withinLimit := h.withinLimit
  discarded := h.discarded

theorem Sound.load (h : Sound s) : Sound s.load := by
  rw [ReverseJsonlScanner.load]
  split
  case isTrue hposition => exact h.refill hposition
  case isFalse => exact h

theorem pending_load (s : ReverseJsonlScanner) : s.load.pending = s.pending := by
  rw [load]
  split
  case isTrue hposition => exact pending_refill hposition
  case isFalse => rfl

theorem place_load (s : ReverseJsonlScanner) :
    s.load.nextChunkEnd + s.load.chunkPosition = s.nextChunkEnd + s.chunkPosition := by
  rw [load]
  split
  case isTrue hposition =>
    simp only [refill, hposition]
    omega
  case isFalse => rfl

theorem chunkPosition_load_pos (h : ¬ (s.chunkPosition = 0 ∧ s.nextChunkEnd = 0)) :
    0 < s.load.chunkPosition := by
  rw [load]
  split
  case isTrue hposition =>
    simp only [refill, readChunkSize]
    omega
  case isFalse => omega

theorem maxRecordBytes_load (s : ReverseJsonlScanner) :
    s.load.maxRecordBytes = s.maxRecordBytes := by
  rw [load]
  split <;> rfl

theorem store_cases (s : ReverseJsonlScanner) (fragment : Bytes) :
    (s.discardingOversizedRecord ∧ s.store fragment = s) ∨
    (s.discardingOversizedRecord = false ∧
      (∃ limit ∈ s.maxRecordBytes, limit < s.recordReversed.length + fragment.length) ∧
      s.store fragment = { s with recordReversed := [], discardingOversizedRecord := true }) ∨
    (s.discardingOversizedRecord = false ∧
      (∀ limit ∈ s.maxRecordBytes, s.recordReversed.length + fragment.length ≤ limit) ∧
      s.store fragment = { s with recordReversed := s.recordReversed ++ fragment.reverse }) := by
  rw [store]
  cases hdiscarding : s.discardingOversizedRecord with
  | true => exact .inl ⟨rfl, rfl⟩
  | false =>
    refine .inr ?_
    cases hlimit : s.maxRecordBytes with
    | none => exact .inr ⟨rfl, by simp, rfl⟩
    | some limit =>
      by_cases hlong : limit < s.recordReversed.length + fragment.length
      · exact .inl ⟨rfl, ⟨limit, rfl, hlong⟩, by simp [hlong]⟩
      · refine .inr ⟨rfl, ?_, by simp [hlong]⟩
        rintro _ ⟨⟩
        omega

theorem Sound.place (h : Sound s) {i : Nat} (hi : i ≤ s.chunkPosition) :
    Sound { s with chunkPosition := i } where
  inFile := (Nat.add_le_add_left hi _).trans h.inFile
  chunkIsRead := by
    have hfile : (s.reader.take s.nextChunkEnd).length = s.nextChunkEnd := by
      rw [length_take]
      have hin := h.inFile
      omega
    have hread := congrArg (List.take (s.nextChunkEnd + i)) h.chunkIsRead
    rw [unread, take_take, Nat.min_eq_left (Nat.add_le_add_left hi _), take_append, hfile,
      Nat.add_sub_cancel_left, take_take, take_take, Nat.min_eq_left hi,
      Nat.min_eq_right (Nat.le_add_right _ _)] at hread
    exact hread
  noNewline := h.noNewline
  withinLimit := h.withinLimit
  discarded := h.discarded

theorem Sound.store (h : Sound s) {fragment : Bytes} (hfragment : newline ∉ fragment) :
    Sound (s.store fragment) := by
  obtain ⟨-, hstore⟩ | ⟨-, -, hstore⟩ | ⟨hdiscarding, hfits, hstore⟩ := s.store_cases fragment
  · rw [hstore]
    exact h
  · rw [hstore]
    exact ⟨h.inFile, h.chunkIsRead, not_mem_nil, fun _ _ => Nat.zero_le _, fun _ => rfl⟩
  · rw [hstore]
    refine ⟨h.inFile, h.chunkIsRead, ?_, ?_, ?_⟩
    · simp [h.noNewline, hfragment]
    · simpa using hfits
    · intro htrue
      rw [hdiscarding] at htrue
      cases htrue

theorem Sound.clear (h : Sound s) : Sound { s with recordReversed := [] } :=
  ⟨h.inFile, h.chunkIsRead, not_mem_nil, fun _ _ => Nat.zero_le _, fun _ => rfl⟩

theorem Sound.resume (h : Sound s) : Sound { s with discardingOversizedRecord := false } :=
  ⟨h.inFile, h.chunkIsRead, h.noNewline, h.withinLimit, (absurd · Bool.false_ne_true)⟩

theorem not_isReported_of_long {limit : Option Nat} {record : Bytes}
    (h : ∃ bound ∈ limit, bound < record.length) : isReported limit record = false := by
  obtain ⟨bound, rfl, hlong⟩ := h
  simp only [isReported, Option.all_some, Bool.and_eq_false_iff, decide_eq_false_iff_not]
  exact .inr (by omega)

theorem pendingAt_record (h : Sound s) {before fragment : Bytes}
    (hchunk : s.chunk.take s.chunkPosition = before ++ newline :: fragment)
    (hfragment : newline ∉ fragment) :
    pendingAt .record { s.store fragment with chunkPosition := before.length } = s.pending := by
  have hplace : before.length ≤ s.chunkPosition := by
    have hlength := congrArg List.length hchunk
    rw [length_take, length_append] at hlength
    omega
  have hunread : s.unread = s.reader.take s.nextChunkEnd ++ before ++ newline :: fragment := by
    rw [h.chunkIsRead, hchunk, append_assoc]
  have hearlier : s.reader.take (s.nextChunkEnd + before.length) =
      s.reader.take s.nextChunkEnd ++ before := by
    have hread := (h.place hplace).chunkIsRead
    rw [unread] at hread
    dsimp only at hread
    rw [hread, ← Nat.min_eq_left hplace, ← take_take, hchunk, take_left]
  have hrecords : recordsBackwards (s.unread ++ s.recordReversed.reverse) =
      (fragment ++ s.recordReversed.reverse) ::
        recordsBackwards (s.reader.take s.nextChunkEnd ++ before) := by
    rw [hunread, append_assoc, cons_append, recordsBackwards_append_cons]
    simp [hfragment, h.noNewline]
  rw [pending, hrecords]
  obtain ⟨hdiscarding, hstore⟩ | ⟨hdiscarding, hlong, hstore⟩ | ⟨hdiscarding, -, hstore⟩ :=
    s.store_cases fragment
  · simp [pendingAt, hstore, hdiscarding, unread, hearlier]
  · have hskipped : isReported s.maxRecordBytes (fragment ++ s.recordReversed.reverse) = false :=
      not_isReported_of_long (by simpa [Nat.add_comm] using hlong)
    simp [pendingAt, hstore, hdiscarding, unread, hearlier, hskipped]
  · simp [pendingAt, hstore, hdiscarding, unread, hearlier]

theorem pending_store (h : Sound s) (hchunk : newline ∉ s.chunk.take s.chunkPosition) :
    pending { s.store (s.chunk.take s.chunkPosition) with chunkPosition := 0 } = s.pending := by
  obtain ⟨last, earlier, hrecords⟩ := recordsBackwards_append (s.reader.take s.nextChunkEnd)
  have hpieces : newline ∉ s.chunk.take s.chunkPosition ++ s.recordReversed.reverse := by
    simp [hchunk, h.noNewline]
  have hfirst : recordsBackwards (s.reader.take s.nextChunkEnd) = last :: earlier := by
    simpa using hrecords [] not_mem_nil
  rw [pending, pending, h.chunkIsRead, append_assoc, hrecords _ hpieces]
  obtain ⟨hdiscarding, hstore⟩ | ⟨hdiscarding, hlong, hstore⟩ | ⟨hdiscarding, -, hstore⟩ :=
    s.store_cases (s.chunk.take s.chunkPosition)
  · simp [hstore, hdiscarding, unread, h.discarded hdiscarding, hfirst]
  · have hskipped : isReported s.maxRecordBytes
        (last ++ (s.chunk.take s.chunkPosition ++ s.recordReversed.reverse)) = false := by
      obtain ⟨limit, hlimit, hlt⟩ := hlong
      refine not_isReported_of_long ⟨limit, hlimit, ?_⟩
      rw [length_append, length_append, length_reverse]
      omega
    simp [hstore, hdiscarding, unread, hfirst, hskipped]
  · simp [hstore, hdiscarding, unread, hrecords _ hpieces]

theorem store_place (s : ReverseJsonlScanner) (fragment : Bytes) :
    (s.store fragment).nextChunkEnd = s.nextChunkEnd ∧
      (s.store fragment).chunkPosition = s.chunkPosition ∧
      (s.store fragment).maxRecordBytes = s.maxRecordBytes := by
  obtain ⟨-, hstore⟩ | ⟨-, -, hstore⟩ | ⟨-, -, hstore⟩ := s.store_cases fragment <;>
    rw [hstore] <;> exact ⟨rfl, rfl, rfl⟩

def stepsLeft : Point → ReverseJsonlScanner → Nat
  | .head, s => 2 * (s.nextChunkEnd + s.chunkPosition)
  | .record, s => 2 * (s.nextChunkEnd + s.chunkPosition) + 1

structure Continues (point : Point) (s : ReverseJsonlScanner) (point' : Point)
    (s' : ReverseJsonlScanner) : Prop where
  sound : Sound s'
  pending : pendingAt point' s' = pendingAt point s
  fewer : stepsLeft point' s' < stepsLeft point s
  limit : s'.maxRecordBytes = s.maxRecordBytes

structure Returns (parse : Bytes → α) (point : Point) (s : ReverseJsonlScanner)
    (outcome : Option α) (s' : ReverseJsonlScanner) : Prop where
  sound : Sound s'
  outcome : outcome = (pendingAt point s).head?.map parse
  pending : s'.pending = (pendingAt point s).tail
  limit : s'.maxRecordBytes = s.maxRecordBytes

def Advances (parse : Bytes → α) (point : Point) (s : ReverseJsonlScanner) : Progress α → Prop
  | .running point' s' => Continues point s point' s'
  | .returned outcome s' => Returns parse point s outcome s'

theorem Sound.isReported_record (h : Sound s) :
    isReported s.maxRecordBytes s.recordReversed.reverse =
      !s.recordReversed.reverse.all isAsciiWhitespace := by
  have hfits : s.maxRecordBytes.all (s.recordReversed.reverse.length ≤ ·) := by
    rw [Option.all_eq_true, length_reverse]
    intro limit hlimit
    exact decide_eq_true (h.withinLimit limit hlimit)
  rw [isReported, hfits, Bool.and_true]

theorem pending_finishRecord (hdiscarding : s.discardingOversizedRecord = false) :
    (s.finishRecord parse).2.pending =
      (recordsBackwards s.unread).filter (isReported s.maxRecordBytes) := by
  simp [pending, finishRecord, hdiscarding, unread]

theorem pending_of_end (hend : s.chunkPosition = 0 ∧ s.nextChunkEnd = 0)
    (hdiscarding : s.discardingOversizedRecord = false) (hempty : s.recordReversed = []) :
    s.pending = [] := by
  simp [pending, unread, hend, hdiscarding, hempty, recordsBackwards, isReported]

theorem advances_head_of_end (h : Sound s) (hend : s.chunkPosition = 0 ∧ s.nextChunkEnd = 0) :
    Advances parse .head s (step parse .head s) := by
  have hunread : s.unread = [] := by simp [unread, hend]
  rw [step, if_pos hend]
  cases hdiscarding : s.discardingOversizedRecord with
  | true =>
    have hempty := h.discarded hdiscarding
    have hpending : s.pending = [] := by
      simp [pending, hunread, hempty, hdiscarding, recordsBackwards]
    rw [if_pos rfl]
    refine ⟨h.resume, ?_, ?_, rfl⟩
    · rw [pendingAt, hpending]
      rfl
    · rw [pendingAt, hpending]
      exact pending_of_end hend rfl hempty
  | false =>
    have hpending : s.pending =
        [s.recordReversed.reverse].filter (isReported s.maxRecordBytes) := by
      have hrecord : newline ∉ s.recordReversed.reverse := by simpa using h.noNewline
      rw [pending, hunread, nil_append, recordsBackwards_of_notMem hrecord, hdiscarding]
      rfl
    rw [if_neg Bool.false_ne_true]
    refine ⟨h.clear, ?_, ?_, rfl⟩
    · rw [pendingAt, hpending, filter_singleton, h.isReported_record]
      cases s.recordReversed.reverse.all isAsciiWhitespace <;> rfl
    · have hnothing : pending { s with recordReversed := [] } = [] :=
        pending_of_end hend hdiscarding rfl
      rw [pendingAt, hpending, filter_singleton, hnothing]
      cases isReported s.maxRecordBytes s.recordReversed.reverse <;> rfl

theorem advances_head (h : Sound s) (hend : ¬ (s.chunkPosition = 0 ∧ s.nextChunkEnd = 0)) :
    Advances parse .head s (step parse .head s) := by
  have hpositive := chunkPosition_load_pos hend
  have hplace := s.place_load
  rw [step, if_neg hend]
  dsimp only
  cases hnewline : memrchr newline (s.load.chunk.take s.load.chunkPosition) with
  | some i =>
    obtain ⟨before, fragment, hchunk, hfragment, rfl⟩ := memrchr_eq_some hnewline
    have hbefore : before.length < s.load.chunkPosition := by
      have hlength := congrArg List.length hchunk
      rw [length_take, length_append, length_cons] at hlength
      omega
    have hdrop : (s.load.chunk.take s.load.chunkPosition).drop (before.length + 1) = fragment := by
      rw [hchunk, ← drop_drop, drop_left]
      rfl
    obtain ⟨hnext, hposition, hlimit⟩ := s.load.store_place fragment
    dsimp only
    rw [hdrop]
    refine ⟨?_, ?_, ?_, hlimit.trans s.maxRecordBytes_load⟩
    · exact (h.load.store hfragment).place (hposition ▸ hbefore.le)
    · exact (pendingAt_record h.load hchunk hfragment).trans s.pending_load
    · simp only [stepsLeft, hnext]
      omega
  | none =>
    have hchunk := memrchr_eq_none hnewline
    obtain ⟨hnext, -, hlimit⟩ := s.load.store_place (s.load.chunk.take s.load.chunkPosition)
    refine ⟨(h.load.store hchunk).place (Nat.zero_le _), ?_, ?_, hlimit.trans s.maxRecordBytes_load⟩
    · exact (pending_store h.load hchunk).trans s.pending_load
    · simp only [stepsLeft, hnext]
      omega

theorem advances_record (h : Sound s) : Advances parse .record s (step parse .record s) := by
  rw [step]
  cases hdiscarding : s.discardingOversizedRecord with
  | true =>
    rw [if_pos rfl]
    refine ⟨h.resume, ?_, Nat.lt_succ_self _, rfl⟩
    simp [pendingAt, pending, unread, hdiscarding, h.discarded hdiscarding]
  | false =>
    rw [if_neg Bool.false_ne_true]
    have hpending : pendingAt .record s =
        [s.recordReversed.reverse].filter (isReported s.maxRecordBytes) ++
          (s.finishRecord parse).2.pending := by
      rw [pendingAt, hdiscarding, pending_finishRecord hdiscarding, ← filter_append]
      rfl
    rw [filter_singleton, h.isReported_record] at hpending
    cases hblank : s.recordReversed.reverse.all isAsciiWhitespace with
    | true =>
      have hfinish : s.finishRecord parse = (none, { s with recordReversed := [] }) := by
        rw [finishRecord, hblank]
        rfl
      rw [hblank, hfinish] at hpending
      rw [hfinish]
      exact ⟨h.clear, hpending.symm, Nat.lt_succ_self _, rfl⟩
    | false =>
      have hfinish : s.finishRecord parse =
          (some (parse s.recordReversed.reverse), { s with recordReversed := [] }) := by
        rw [finishRecord, hblank]
        rfl
      rw [hblank, hfinish] at hpending
      rw [hfinish]
      refine ⟨h.clear, ?_, ?_, rfl⟩
      · rw [hpending]
        rfl
      · rw [hpending]
        rfl

theorem Sound.advances (h : Sound s) (parse : Bytes → α) (point : Point) :
    Advances parse point s (step parse point s) := by
  cases point with
  | head =>
    by_cases hend : s.chunkPosition = 0 ∧ s.nextChunkEnd = 0
    · exact advances_head_of_end h hend
    · exact advances_head h hend
  | record => exact advances_record h

theorem Sound.run (h : Sound s) {fuel : Nat} (hfuel : stepsLeft point s < fuel) :
    Returns parse point s (run parse fuel point s).1 (run parse fuel point s).2 := by
  induction fuel generalizing point s with
  | zero => exact absurd hfuel (Nat.not_lt_zero _)
  | succ fuel ih =>
    have hadvances := h.advances parse point
    rw [ReverseJsonlScanner.run]
    cases hstep : step parse point s with
    | running point' s' =>
      rw [hstep] at hadvances
      obtain ⟨hsound, hpending, hfewer, hlimit⟩ := hadvances
      have hfuel' : stepsLeft point' s' < fuel := by omega
      obtain ⟨hsound', houtcome, hrest, hlimit'⟩ := ih hsound hfuel'
      exact ⟨hsound', hpending ▸ houtcome, hpending ▸ hrest, hlimit'.trans hlimit⟩
    | returned outcome s' =>
      rw [hstep] at hadvances
      exact hadvances

theorem Sound.scanNext (h : Sound s) (parse : Bytes → α) :
    Returns parse .head s (scanNext parse s).1 (scanNext parse s).2 :=
  h.run (Nat.lt_succ_self _)

theorem Sound.scanned (h : Sound s) (parse : Nat → Bytes → α) (n : Nat) :
    Sound (scanned parse s n) ∧ (scanned parse s n).pending = s.pending.drop n := by
  induction n with
  | zero => exact ⟨h, rfl⟩
  | succ n ih =>
    obtain ⟨hsound, -, hrest, -⟩ := ih.1.scanNext (parse n)
    refine ⟨hsound, ?_⟩
    rw [ReverseJsonlScanner.scanned, hrest, pendingAt, ih.2, tail_drop]

theorem Sound.reached {start : ReverseJsonlScanner} (h : Sound start)
    (hreached : Reached start point s) : Sound s ∧ s.maxRecordBytes = start.maxRecordBytes := by
  induction hreached with
  | start => exact ⟨h, rfl⟩
  | @running β parse point point' s s' _ hstep ih =>
    have hadvances := ih.1.advances parse point
    rw [hstep] at hadvances
    exact ⟨hadvances.sound, hadvances.limit.trans ih.2⟩
  | @returned β parse point s s' outcome _ hstep ih =>
    have hadvances := ih.1.advances parse point
    rw [hstep] at hadvances
    exact ⟨hadvances.sound, hadvances.limit.trans ih.2⟩

/-- The calls of a scanner report the records before its end from the last to the first, each with
what `parse` makes of its bytes, and then nothing more. At no point of a call the buffer is longer
than the limit. -/
theorem scans_records_backwards (parse : Nat → Bytes → α) (content : Bytes) (endByteOffset : Nat)
    (limit : Option Nat) (h : endByteOffset ≤ content.length) :
    ∃ opened, newAt content endByteOffset = .ok opened ∧
      let scanner := limit.elim opened opened.withMaxRecordBytes
      let records := ((content.take endByteOffset).splitOn newline).reverse.filter fun record =>
        !record.all isAsciiWhitespace && limit.all (record.length ≤ ·)
      (∀ n, (scanNext (parse n) (scanned parse scanner n)).1 = records[n]?.map (parse n)) ∧
      ∀ point s, Reached scanner point s → ∀ bound ∈ limit, s.recordReversed.length ≤ bound := by
  obtain ⟨opened, hopened⟩ : ∃ opened, newAt content endByteOffset = .ok opened :=
    ⟨_, if_neg (Nat.not_lt.mpr h)⟩
  refine ⟨opened, hopened, ?_⟩
  intro scanner records
  have hscanner : scanner = { opened with maxRecordBytes := limit } := by
    rw [newAt, if_neg (Nat.not_lt.mpr h)] at hopened
    cases hopened
    cases limit <;> rfl
  have hsound : Sound scanner := hscanner ▸ Sound.newAt limit hopened
  have hpending : scanner.pending = records := by
    rw [newAt, if_neg (Nat.not_lt.mpr h)] at hopened
    cases hopened
    rw [hscanner]
    simp only [pending, unread, recordsBackwards, reverse_nil, append_nil, Nat.add_zero]
    rfl
  refine ⟨fun n => ?_, fun point s hreached bound hbound => ?_⟩
  · obtain ⟨hscanned, hrest⟩ := hsound.scanned parse n
    rw [(hscanned.scanNext (parse n)).outcome, pendingAt, hrest, hpending, head?_drop]
  · obtain ⟨hreach, hlimit⟩ := hsound.reached hreached
    refine hreach.withinLimit bound ?_
    rw [hlimit, hscanner]
    exact hbound

theorem scans_records_backwards_limited :
    ∃ opened, newAt [97, 10, 98, 98, 98, 10, 32, 10, 99, 99, 10, 100] 11 = .ok opened ∧
      let scanner := opened.withMaxRecordBytes 2
      (∀ n, (scanNext id (scanned (fun _ => id) scanner n)).1 =
        ([[99, 99], [97]] : List Bytes)[n]?) ∧
      ∀ point s, Reached scanner point s → s.recordReversed.length ≤ 2 := by
  obtain ⟨opened, hopened, hrecords, hbuffer⟩ :=
    scans_records_backwards (fun _ => id) [97, 10, 98, 98, 98, 10, 32, 10, 99, 99, 10, 100] 11
      (some 2) (by decide)
  exact ⟨opened, hopened, fun n => (hrecords n).trans (by simp; rfl),
    fun point s hreached => hbuffer point s hreached 2 rfl⟩

end ReverseJsonlScanner

end Codex.Rollout

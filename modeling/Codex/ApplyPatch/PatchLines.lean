import Codex.ApplyPatch.StreamingParser

/-! However a patch comes in, the machine reads its lines in turn. -/

namespace Codex.ApplyPatch
open Codex.Lib List Text

theorem dropPrefix?_of_head {marker text : Text} {c : Char} (hmarker : marker.head? = some c)
    (htext : text.head? ≠ some c) : text.dropPrefix? marker = none := by
  by_contra hsome
  obtain ⟨rest, hrest⟩ := Option.ne_none_iff_exists'.mp hsome
  obtain ⟨found, rfl, hfound⟩ := dropPrefix?_eq_some_iff.mp hrest
  rw [eq_of_beq hfound] at htext
  rw [head?_append_of_ne_nil _ (by rintro rfl; cases hmarker)] at htext
  exact htext hmarker

theorem header?_of_head {text : Text} (h : text.head? ≠ some '*') : header? text = none := by
  have hend : text ≠ endPatchMarker := by
    rintro rfl
    exact h (by decide)
  have hadd : text.dropPrefix? addFileMarker = none := dropPrefix?_of_head (by decide) h
  have hdelete : text.dropPrefix? deleteFileMarker = none := dropPrefix?_of_head (by decide) h
  have hupdate : text.dropPrefix? updateFileMarker = none := dropPrefix?_of_head (by decide) h
  simp [header?, hend, hadd, hdelete, hupdate]

namespace StreamingPatchParser
variable {self next : StreamingPatchParser} {line trimmed : Text}

theorem handle_of_head (h : trimmed.head? ≠ some '*') :
    self.handleHunkHeadersAndEndPatch trimmed = .ok none := by
  have henv : trimmed.dropPrefix? environmentIdMarker = none := dropPrefix?_of_head (by decide) h
  simp [handleHunkHeadersAndEndPatch, henv, header?_of_head h]

variable {otherwise : Except ParseError StreamingPatchParser}

theorem orElse_of_head (h : trimmed.head? ≠ some '*') :
    self.orElse trimmed otherwise = otherwise := by
  rw [orElse, handle_of_head h]
  rfl

theorem handle_eq_ok (h : self.handleHunkHeadersAndEndPatch trimmed = .ok (some next)) :
    (∃ rest id, self.mode = .startedPatch ∧ trimmed.dropPrefix? environmentIdMarker = some rest ∧
        next = { self with environmentId := some id }) ∨
      ∃ header, header? trimmed = some header ∧ next = self.openHeader header := by
  unfold handleHunkHeadersAndEndPatch at h
  split at h
  · next hmode henv =>
    split at h
    · cases h
    · split at h
      · cases h
      · cases h
        exact Or.inl ⟨_, _, hmode, henv, rfl⟩
  · split at h
    · cases h
    · next header hheader =>
      obtain ⟨_, _, hopen⟩ := exists_of_bind_eq_ok h
      cases hopen
      exact Or.inr ⟨header, hheader, rfl⟩

theorem orElse_eq_ok (h : self.orElse trimmed otherwise = .ok next) :
    self.handleHunkHeadersAndEndPatch trimmed = .ok (some next) ∨
      self.handleHunkHeadersAndEndPatch trimmed = .ok none ∧ otherwise = .ok next := by
  obtain ⟨found, hfound, hrest⟩ := exists_of_bind_eq_ok h
  cases found with
  | some found =>
    cases hrest
    exact Or.inl hfound
  | none => exact Or.inr ⟨hfound, hrest⟩

/-- What a line does to the parser if there is no error. -/
inductive Reads (self : StreamingPatchParser) (line : Text) : StreamingPatchParser → Prop
  | begins : Reads self line { self with mode := .startedPatch }
  | environment (id : Text) : Reads self line { self with environmentId := some id }
  | header (header : Header) : Reads self line (self.openHeader header)
  | add (path contents : Text) :
    Reads self line { self with hunks := self.hunks.dropLast ++ [.addFile path contents] }
  | update {path : Text} {movePath : Option Text} {chunks : List UpdateFileChunk} {read} (n : Nat)
    (hlast : self.hunks.getLast? = some (.updateFile path movePath chunks))
    (hread : readUpdateLine self.lineNumber movePath chunks line = .ok read) :
    Reads self line { self with
      hunks := self.hunks.dropLast ++ [.updateFile path read.1 read.2], mode := .updateFile n }
  | blank : Reads self line self

theorem Reads.of_orElse (hother : ∀ other, otherwise = .ok other → self.Reads line other)
    (h : self.orElse trimmed otherwise = .ok next) : self.Reads line next := by
  rcases orElse_eq_ok h with hhandled | ⟨_, hnext⟩
  · rcases handle_eq_ok hhandled with ⟨_, id, _, _, rfl⟩ | ⟨header, _, rfl⟩
    · exact .environment id
    · exact .header header
  · exact hother next hnext

theorem reads_of_processLine (h : self.processLine line = .ok next) : self.Reads line next := by
  unfold processLine at h
  simp only at h
  split at h
  · split at h
    · cases h
      exact .begins
    · cases h
  · exact .of_orElse (fun _ hother => by cases hother) h
  · refine .of_orElse (fun other hother => ?_) h
    split at hother
    · cases hother
      exact .add _ _
    · cases hother
  · exact .of_orElse (fun _ hother => by cases hother) h
  · refine .of_orElse (fun other hother => ?_) h
    split at hother
    · next hlast =>
      obtain ⟨_, hread, hok⟩ := exists_of_bind_eq_ok hother
      cases hok
      exact .update _ hlast hread
    · cases hother
  · split at h
    · cases h
      exact .blank
    · cases h

theorem processLine_lineBuffer (h : self.processLine line = .ok next) :
    next.lineBuffer = self.lineBuffer := by
  cases reads_of_processLine h with
  | header header => cases header <;> rfl
  | _ => rfl

def readLine (self : StreamingPatchParser) (line : Text) : Except ParseError StreamingPatchParser :=
  self.nextLine.processLine (Text.stripCr line)

theorem readLine_lineBuffer (h : self.readLine line = .ok next) : next.lineBuffer = [] :=
  processLine_lineBuffer h

theorem pushDelta_append (a b : Text) :
    self.pushDelta (a ++ b) = self.pushDelta a >>= fun next => next.pushDelta b :=
  foldlM_append

theorem pushDelta_of_notMem (h : '\n' ∉ line) :
    self.pushDelta line = .ok { self with lineBuffer := self.lineBuffer ++ line } := by
  induction line generalizing self with
  | nil => simp [pushDelta, pure, Except.pure]
  | cons c line ih =>
    rw [mem_cons, not_or] at h
    have hchar : self.pushChar c = .ok { self with lineBuffer := self.lineBuffer ++ [c] } :=
      if_neg (Ne.symm h.1)
    have hrest := @ih { self with lineBuffer := self.lineBuffer ++ [c] } h.2
    rw [pushDelta] at hrest
    rw [pushDelta, foldlM_cons, hchar, ok_bind, hrest]
    simp

theorem pushDelta_lines {parts : List Text} (hparts : ∀ part ∈ parts, '\n' ∉ part) {last : Text}
    (hlast : '\n' ∉ last) (hbuffer : self.lineBuffer = []) :
    self.pushDelta (parts.flatMap (· ++ ['\n']) ++ last) =
      parts.foldlM readLine self >>= fun next => .ok { next with lineBuffer := last } := by
  induction parts generalizing self with
  | nil =>
    rw [flatMap_nil, nil_append, pushDelta_of_notMem hlast, hbuffer]
    rfl
  | cons part parts ih =>
    have hassoc : (part :: parts).flatMap (· ++ ['\n']) ++ last =
        part ++ (['\n'] ++ (parts.flatMap (· ++ ['\n']) ++ last)) := by simp
    have hfeed : ({ self with lineBuffer := part } : StreamingPatchParser).pushDelta ['\n'] =
        self.readLine part := by
      exact bind_pure _
    rw [hassoc, pushDelta_append, pushDelta_of_notMem (hparts part mem_cons_self), ok_bind,
      pushDelta_append, hbuffer, nil_append, hfeed, foldlM_cons]
    cases hread : self.readLine part with
    | error e => rfl
    | ok next =>
      rw [ok_bind, ok_bind, ih (fun p hp => hparts p (mem_cons_of_mem part hp))
        (readLine_lineBuffer hread)]

def feed (deltas : List Text) : Except ParseError StreamingPatchParser := do
  let parser ← deltas.foldlM pushDelta new
  parser.finish

theorem feed_eq_flatten (deltas : List Text) :
    feed deltas = new.pushDelta deltas.flatten >>= finish := by
  have hfold : ∀ (deltas : List Text) (self : StreamingPatchParser),
      deltas.foldlM pushDelta self = self.pushDelta deltas.flatten := by
    intro deltas
    induction deltas with
    | nil => exact fun _ => rfl
    | cons delta deltas ih =>
      intro self
      rw [foldlM_cons, flatten_cons, pushDelta_append]
      exact congrArg _ (funext ih)
  rw [feed, hfold]

def close (self : StreamingPatchParser) : Except ParseError StreamingPatchParser := do
  self.nextLine.ensureUpdateHunkIsNotEmpty endPatchMarker
  .ok { self.nextLine with mode := .endedPatch }

theorem finish_of_end {last : Text} (h : trim last = endPatchMarker) :
    ({ self with lineBuffer := last } : StreamingPatchParser).finish = self.close := by
  have hne : last ≠ [] := by
    rintro rfl
    exact absurd h (by decide)
  simp only [finish, if_neg hne, h, if_true]
  rfl

variable {text last : Text} {parts : List Text}

theorem feed_lines (htext : text = parts.flatMap (· ++ ['\n']) ++ last)
    (hparts : ∀ part ∈ parts, '\n' ∉ part) (hlast : '\n' ∉ last)
    (hend : trim last = endPatchMarker) {deltas : List Text} (hdeltas : deltas.flatten = text) :
    feed deltas = parts.foldlM readLine new >>= close := by
  rw [feed_eq_flatten, hdeltas, htext, pushDelta_lines hparts hlast rfl, bind_assoc]
  exact congrArg _ (funext fun _ => finish_of_end hend)

theorem trim_stripCr (line : Text) : trim (stripCr line) = trim line := by
  by_cases h : line.getLast? = some '\r'
  · conv_rhs => rw [← stripCr_append_cr h, trim_concat rfl]
  · rw [stripCr_of_ne h]

/-- `parse_patch` takes one carriage return off each line before they are read. -/
theorem parsePatch_lines (htext : trim text = parts.flatMap (· ++ ['\n']) ++ last)
    (hparts : ∀ part ∈ parts, '\n' ∉ part) (hlast : '\n' ∉ last)
    (hbegin : parts.head?.map trim = some beginPatchMarker)
    (hend : trim last = endPatchMarker) :
    parsePatch text = ((parts.map stripCr).foldlM readLine new >>= close) >>= fun parser =>
      .ok (⟨(parts.map stripCr).flatMap (· ++ ['\n']) ++ last, parser.hunks, none⟩,
        parser.environmentId) := by
  have hne : last ≠ [] := by
    rintro rfl
    exact absurd hend (by decide)
  have hlines : lines (trim text) = parts.map stripCr ++ [last] := by
    rw [htext, lines_flatMap_append hparts hlast hne]
  have hhead : (parts.map stripCr ++ [last]).head?.map trim = some beginPatchMarker := by
    cases parts with
    | nil => cases hbegin
    | cons first parts => simpa [trim_stripCr] using hbegin
  have hcheck : checkPatchBoundariesLenient (parts.map stripCr ++ [last]) =
      .ok (parts.map stripCr ++ [last]) := by
    have hlast? : (parts.map stripCr ++ [last]).getLast?.map trim =
        some endPatchMarker := by
      rw [getLast?_concat, Option.map_some, hend]
    have hstrict : checkStartAndEndLinesStrict (parts.map stripCr ++ [last]).head?
        (parts.map stripCr ++ [last]).getLast? = .ok () := by
      rw [checkStartAndEndLinesStrict, hhead, hlast?]
      exact if_pos ⟨rfl, rfl⟩
    rw [checkPatchBoundariesLenient, checkPatchBoundariesStrict, hstrict]
    rfl
  have hstripped : ∀ part ∈ parts.map stripCr, '\n' ∉ part := by
    intro part hpart
    obtain ⟨line, hline, rfl⟩ := mem_map.mp hpart
    exact notMem_stripCr (hparts line hline)
  have hpush := pushDelta_lines hstripped hlast (rfl : new.lineBuffer = [])
  rw [parsePatch, hlines, hcheck, ok_bind]
  simp only [intercalate_concat, hpush, bind_assoc, ok_bind, finish_of_end hend]

end StreamingPatchParser
end Codex.ApplyPatch

import Codex.StreamParser.TaggedLine

/-! However the text is cut, the parser of tagged lines gives what looking at each line as a whole
gives. -/

namespace Codex.StreamParser
open Codex.Lib List

namespace TaggedLineParser
variable {T : Type} [DecidableEq T]

def IsBetweenLines (self : TaggedLineParser T) : Prop :=
  self.detectTag = true ∧ self.lineBuffer = []

/-- Each line in turn; a tag that is still open is closed at the end. -/
def readLines (specs : List (TagSpec T)) : Option T → List Text → List (TaggedLineSegment T)
  | activeTag, [] => (activeTag.map TaggedLineSegment.tagEnd).toList
  | activeTag, line :: rest =>
    (classifyLine specs activeTag line).1 ::
      readLines specs (classifyLine specs activeTag line).2 rest

omit [DecidableEq T] in
theorem trim_stripNewline (line : Text) : Text.trim (stripNewline line) = Text.trim line := by
  rw [stripNewline]
  split
  · next hlast =>
    obtain ⟨before, rfl⟩ := getLast?_eq_some_iff.mp hlast
    rw [dropLast_concat, Text.trim_append_of_whitespace]
    intro c hc
    rw [mem_singleton.mp hc]
    rfl
  · rfl

omit [DecidableEq T] in
theorem matches_eq_none {specs : List (TagSpec T)} {start line : Text} (h : ¬ MayBeTag specs start)
    (hstart : start <+: line) :
    matchOpen specs (Text.trim line) = none ∧ matchClose specs (Text.trim line) = none := by
  obtain ⟨rest, rfl⟩ := hstart
  have hprefix := Text.trim_prefix_trim_append start rest
  rw [MayBeTag, not_or, isTagPrefix, any_eq_true] at h
  have hno : ∀ spec ∈ specs, spec.openTag ≠ Text.trim (start ++ rest) ∧
      spec.closeTag ≠ Text.trim (start ++ rest) := by
    intro spec hspec
    constructor <;> intro heq <;> refine h.2 ⟨spec, hspec, ?_⟩ <;> rw [← heq] at hprefix
    · exact Bool.or_eq_true_iff.mpr (.inl (List.isPrefixOf_iff_prefix.mpr hprefix))
    · exact Bool.or_eq_true_iff.mpr (.inr (List.isPrefixOf_iff_prefix.mpr hprefix))
  constructor
  · rw [matchOpen, find?_eq_none.mpr fun spec hspec => by simpa using (hno spec hspec).1]
    rfl
  · rw [matchClose, find?_eq_none.mpr fun spec hspec => by simpa using (hno spec hspec).2]
    rfl

theorem classifyLine_of_not_mayBeTag {specs : List (TagSpec T)} {start line : Text}
    (h : ¬ MayBeTag specs start) (hstart : start <+: line) (activeTag : Option T) :
    classifyLine specs activeTag line = (textSegment activeTag line, activeTag) := by
  obtain ⟨hopen, hclose⟩ := matches_eq_none h hstart
  simp only [classifyLine, trim_stripNewline, hopen, hclose]

variable {self : TaggedLineParser T}

theorem read_unbuffered (h : self.detectTag = false) {body : Text} (hbody : '\n' ∉ body) :
    read self body = (body.map (.char self.activeTag), self) := by
  induction body with
  | nil => rfl
  | cons ch body ih =>
    rw [mem_cons, not_or] at hbody
    have hstep : step self ch = ([.char self.activeTag ch], self) := by
      obtain ⟨specs, activeTag, detectTag, lineBuffer⟩ := self
      obtain rfl : detectTag = false := h
      simp only [step, Bool.false_eq_true, if_false, Ne.symm hbody.1, decide_false]
    rw [read, hstep, ih hbody.2]
    rfl

theorem read_buffered (self : TaggedLineParser T) (h : self.detectTag) {body : Text}
    (hbody : '\n' ∉ body) :
    read self body = ([], { self with lineBuffer := self.lineBuffer ++ body }) ∨
      ∃ start, start <+: self.lineBuffer ++ body ∧ ¬ MayBeTag self.specs start ∧
        read self body = ((self.lineBuffer ++ body).map (.char self.activeTag),
          { self with detectTag := false, lineBuffer := [] }) := by
  induction body generalizing self with
  | nil =>
    left
    rw [append_nil]
    rfl
  | cons ch body ih =>
    rw [mem_cons, not_or] at hbody
    have happend : self.lineBuffer ++ ch :: body = self.lineBuffer ++ [ch] ++ body := by simp
    by_cases hmay : MayBeTag self.specs (self.lineBuffer ++ [ch])
    · have hstep : step self ch = ([], { self with lineBuffer := self.lineBuffer ++ [ch] }) := by
        simp only [step, h, if_true, Ne.symm hbody.1, if_false, hmay]
      have hrest := ih { self with lineBuffer := self.lineBuffer ++ [ch] } h hbody.2
      rw [read, hstep, happend]
      exact hrest
    · right
      have hstep : step self ch = ((self.lineBuffer ++ [ch]).map (.char self.activeTag),
          { self with detectTag := false, lineBuffer := [] }) := by
        simp only [step, h, if_true, Ne.symm hbody.1, if_false, hmay]
      refine ⟨self.lineBuffer ++ [ch], ?_, hmay, ?_⟩
      · rw [happend]
        exact prefix_append _ _
      · rw [read, hstep, read_unbuffered rfl hbody.2, happend, ← map_append]

theorem read_line (h : self.IsBetweenLines) {body : Text} (hbody : '\n' ∉ body) :
    read self (body ++ ['\n']) =
      ((classifyLine self.specs self.activeTag (body ++ ['\n'])).1.marks,
        { self with
          activeTag := (classifyLine self.specs self.activeTag (body ++ ['\n'])).2 }) := by
  obtain ⟨specs, activeTag, detectTag, lineBuffer⟩ := self
  obtain ⟨rfl, rfl⟩ : detectTag ∧ lineBuffer = [] := h
  rw [read_append]
  rcases read_buffered ⟨specs, activeTag, true, []⟩ rfl hbody with
    hread | ⟨start, hstart, hmay, hread⟩
  · rw [hread]
    simp [read, step]
  · have htext := classifyLine_of_not_mayBeTag hmay
      (hstart.trans (prefix_append body ['\n'])) activeTag
    rw [hread, htext, marks_textSegment]
    simp [read, step]

theorem finish_betweenLines (h : self.IsBetweenLines) :
    marksOf self.finish.1 = marksOf (self.activeTag.map TaggedLineSegment.tagEnd).toList := by
  obtain ⟨specs, activeTag, detectTag, lineBuffer⟩ := self
  obtain ⟨rfl, rfl⟩ : detectTag ∧ lineBuffer = [] := h
  cases activeTag <;> rfl

theorem finish_buffered (h : self.lineBuffer ≠ []) : marksOf self.finish.1 =
      (classifyLine self.specs self.activeTag self.lineBuffer).1.marks ++
        marksOf ((classifyLine self.specs self.activeTag self.lineBuffer).2.map
          TaggedLineSegment.tagEnd).toList := by
  have hnil : marksOf ([] : List (TaggedLineSegment T)) = [] := rfl
  simp only [finish, h, if_false, finishLine]
  cases (classifyLine self.specs self.activeTag self.lineBuffer).2 with
  | none => simp [marksOf_pushSegment, hnil]
  | some tag => simp [marksOf_pushSegment, marksOf_singleton, hnil]

theorem read_finish (h : self.IsBetweenLines) {body : Text} (hbody : '\n' ∉ body)
    (hne : body ≠ []) : (read self body).1 ++ marksOf (read self body).2.finish.1 =
      (classifyLine self.specs self.activeTag body).1.marks ++
        marksOf ((classifyLine self.specs self.activeTag body).2.map
          TaggedLineSegment.tagEnd).toList := by
  obtain ⟨specs, activeTag, detectTag, lineBuffer⟩ := self
  obtain ⟨rfl, rfl⟩ : detectTag ∧ lineBuffer = [] := h
  rcases read_buffered ⟨specs, activeTag, true, []⟩ rfl hbody with
    hread | ⟨start, hstart, hmay, hread⟩
  · rw [hread, finish_buffered hne]
    rfl
  · have htext := classifyLine_of_not_mayBeTag hmay hstart activeTag
    rw [nil_append] at htext hread
    rw [hread, htext, marks_textSegment]
    cases activeTag <;> rfl

theorem read_eq_readLines (self : TaggedLineParser T) (h : self.IsBetweenLines) (text : Text) :
    (read self text).1 ++ marksOf (read self text).2.finish.1 =
      marksOf (readLines self.specs self.activeTag (Split.splitInclusive '\n' text)) := by
  induction hlength : text.length using Nat.strongRecOn generalizing self text with
  | _ n ih =>
    by_cases hmem : '\n' ∈ text
    · obtain ⟨body, rest, rfl, hbody⟩ := eq_append_cons_of_mem hmem
      have hshorter : rest.length < n := by
        rw [← hlength, length_append, length_cons]
        omega
      have hrest := ih rest.length hshorter
        { self with activeTag := (classifyLine self.specs self.activeTag (body ++ ['\n'])).2 } h
        rest rfl
      rw [Split.splitInclusive_append_cons hbody, readLines, append_cons, read_append,
        read_line h hbody, append_assoc, hrest]
      rfl
    · by_cases hne : text = []
      · subst hne
        exact finish_betweenLines h
      · rw [Split.splitInclusive_of_notMem hmem hne, read_finish h hmem hne]
        rfl

end TaggedLineParser

end Codex.StreamParser

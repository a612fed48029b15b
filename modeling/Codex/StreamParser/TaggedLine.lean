import Codex.Lib.Split
import Codex.Lib.Trim
import Codex.StreamParser.StreamText

/-! `utils/stream-parser/src/tagged_line_parser.rs`. A line is held back until it cannot be a tag
any more. -/

namespace Codex.StreamParser
open Codex.Lib List

structure TagSpec (T : Type) where
  openTag : Text
  closeTag : Text
  tag : T

inductive TaggedLineSegment (T : Type) where
  | normal (text : Text)
  | tagStart (tag : T)
  | tagDelta (tag : T) (text : Text)
  | tagEnd (tag : T)
  deriving DecidableEq, Repr

structure TaggedLineParser (T : Type) where
  specs : List (TagSpec T)
  activeTag : Option T
  detectTag : Bool
  lineBuffer : Text

variable {T : Type}

/-- Text is joined to a last segment of the same kind. -/
def pushSegment [DecidableEq T] (segments : List (TaggedLineSegment T))
    (segment : TaggedLineSegment T) :
    List (TaggedLineSegment T) :=
  match segment with
  | .normal delta =>
    if delta = [] then segments
    else
      match segments.getLast? with
      | some (.normal existing) => segments.dropLast ++ [.normal (existing ++ delta)]
      | _ => segments ++ [.normal delta]
  | .tagDelta tag delta =>
    if delta = [] then segments
    else
      match segments.getLast? with
      | some (.tagDelta existingTag existing) =>
        if existingTag = tag then segments.dropLast ++ [.tagDelta tag (existing ++ delta)]
        else segments ++ [.tagDelta tag delta]
      | _ => segments ++ [.tagDelta tag delta]
  | segment => segments ++ [segment]

namespace TaggedLineParser

def new (specs : List (TagSpec T)) : TaggedLineParser T := ⟨specs, none, true, []⟩

def textSegment (activeTag : Option T) (text : Text) : TaggedLineSegment T :=
  match activeTag with
  | some tag => .tagDelta tag text
  | none => .normal text

def isTagPrefix (specs : List (TagSpec T)) (slug : Text) : Bool :=
  specs.any fun spec =>
    (Text.trimEnd slug).isPrefixOf spec.openTag || (Text.trimEnd slug).isPrefixOf spec.closeTag

def matchOpen (specs : List (TagSpec T)) (slug : Text) : Option T :=
  (specs.find? fun spec => spec.openTag = slug).map TagSpec.tag

def matchClose (specs : List (TagSpec T)) (slug : Text) : Option T :=
  (specs.find? fun spec => spec.closeTag = slug).map TagSpec.tag

def stripNewline (line : Text) : Text := if line.getLast? = some '\n' then line.dropLast else line

structure Cursor (T : Type) where
  parser : TaggedLineParser T
  run : Text
  segments : List (TaggedLineSegment T)

section Reading
variable [DecidableEq T]

def pushText (self : TaggedLineParser T) (text : Text) (segments : List (TaggedLineSegment T)) :
    List (TaggedLineSegment T) :=
  pushSegment segments (textSegment self.activeTag text)

def classifyLine (specs : List (TagSpec T)) (activeTag : Option T) (line : Text) :
    TaggedLineSegment T × Option T :=
  let slug := Text.trim (stripNewline line)
  match matchOpen specs slug, matchClose specs slug, activeTag with
  | some tag, _, none => (.tagStart tag, some tag)
  | _, some tag, some active =>
    if active = tag then (.tagEnd tag, none) else (textSegment activeTag line, activeTag)
  | _, _, _ => (textSegment activeTag line, activeTag)

/-- `finish_line`, which `finish` repeats for a last line without a line break. -/
def finishLine (self : TaggedLineParser T) (segments : List (TaggedLineSegment T)) :
    TaggedLineParser T × List (TaggedLineSegment T) :=
  let (segment, activeTag) := classifyLine self.specs self.activeTag self.lineBuffer
  ({ self with activeTag, detectTag := true, lineBuffer := [] }, pushSegment segments segment)

def Cursor.flush (self : Cursor T) : List (TaggedLineSegment T) :=
  if self.run = [] then self.segments else self.parser.pushText self.run self.segments

def parseChar (cursor : Cursor T) (ch : Char) : Cursor T :=
  if cursor.parser.detectTag then
    let segments := cursor.flush
    let parser : TaggedLineParser T :=
      { cursor.parser with lineBuffer := cursor.parser.lineBuffer ++ [ch] }
    if ch = '\n' then
      let (parser, segments) := parser.finishLine segments
      ⟨parser, [], segments⟩
    else
      let slug := parser.lineBuffer.dropWhile Text.isWhitespace
      if slug = [] ∨ isTagPrefix parser.specs slug then ⟨parser, [], segments⟩
      else
        ⟨{ parser with detectTag := false, lineBuffer := [] }, [],
          parser.pushText parser.lineBuffer segments⟩
  else
    let run := cursor.run ++ [ch]
    if ch = '\n' then
      ⟨{ cursor.parser with detectTag := true }, [], cursor.parser.pushText run cursor.segments⟩
    else ⟨cursor.parser, run, cursor.segments⟩

def parse (self : TaggedLineParser T) (delta : Text) :
    List (TaggedLineSegment T) × TaggedLineParser T :=
  let cursor := delta.foldl parseChar ⟨self, [], []⟩
  (cursor.flush, cursor.parser)

def finish (self : TaggedLineParser T) : List (TaggedLineSegment T) × TaggedLineParser T :=
  let (parser, segments) := if self.lineBuffer = [] then (self, []) else self.finishLine []
  let segments :=
    match parser.activeTag with
    | some tag => pushSegment segments (.tagEnd tag)
    | none => segments
  (segments, { parser with activeTag := none, detectTag := true })

end Reading

end TaggedLineParser

/-- Segments cut into their characters, which do not tell how text was joined. -/
inductive Mark (T : Type) where
  | char (activeTag : Option T) (c : Char)
  | tagStart (tag : T)
  | tagEnd (tag : T)
  deriving DecidableEq, Repr

def TaggedLineSegment.marks : TaggedLineSegment T → List (Mark T)
  | normal text => text.map (.char none)
  | tagStart tag => [.tagStart tag]
  | tagDelta tag text => text.map (.char (some tag))
  | tagEnd tag => [.tagEnd tag]

def TaggedLineSegment.IsFilled : TaggedLineSegment T → Prop
  | normal text => text ≠ []
  | tagDelta _ text => text ≠ []
  | _ => True

def marksOf (segments : List (TaggedLineSegment T)) : List (Mark T) :=
  segments.flatMap TaggedLineSegment.marks

theorem marksOf_append (a b : List (TaggedLineSegment T)) :
    marksOf (a ++ b) = marksOf a ++ marksOf b :=
  flatMap_append

theorem marksOf_singleton (segment : TaggedLineSegment T) : marksOf [segment] = segment.marks :=
  flatMap_singleton _ _

namespace TaggedLineParser

theorem marks_textSegment (activeTag : Option T) (text : Text) :
    (textSegment activeTag text).marks = text.map (.char activeTag) := by
  cases activeTag <;> rfl

def MayBeTag (specs : List (TagSpec T)) (line : Text) : Prop :=
  line.dropWhile Text.isWhitespace = [] ∨
    isTagPrefix specs (line.dropWhile Text.isWhitespace) = true

instance (specs : List (TagSpec T)) (line : Text) : Decidable (MayBeTag specs line) :=
  inferInstanceAs (Decidable (_ ∨ _))

end TaggedLineParser

variable [DecidableEq T]

theorem marksOf_pushSegment (segments : List (TaggedLineSegment T))
    (segment : TaggedLineSegment T) :
    marksOf (pushSegment segments segment) = marksOf segments ++ segment.marks := by
  have hconcat : marksOf (segments ++ [segment]) = marksOf segments ++ segment.marks := by
    rw [marksOf_append, marksOf_singleton]
  cases segment with
  | tagStart tag => exact hconcat
  | tagEnd tag => exact hconcat
  | normal delta =>
    rw [pushSegment]
    split
    · next hdelta => simp [hdelta, TaggedLineSegment.marks]
    · split
      · next existing hlast =>
        obtain ⟨before, rfl⟩ := getLast?_eq_some_iff.mp hlast
        simp [marksOf_append, marksOf_singleton, TaggedLineSegment.marks]
      · exact hconcat
  | tagDelta tag delta =>
    rw [pushSegment]
    split
    · next hdelta => simp [hdelta, TaggedLineSegment.marks]
    · split
      · next existingTag existing hlast =>
        split
        · next htag =>
          obtain ⟨before, rfl⟩ := getLast?_eq_some_iff.mp hlast
          simp [marksOf_append, marksOf_singleton, TaggedLineSegment.marks, htag]
        · exact hconcat
      · exact hconcat

theorem isFilled_pushSegment {segments : List (TaggedLineSegment T)}
    (h : ∀ s ∈ segments, s.IsFilled) (segment : TaggedLineSegment T) :
    ∀ s ∈ pushSegment segments segment, s.IsFilled := by
  have hconcat : segment.IsFilled → ∀ s ∈ segments ++ [segment], s.IsFilled := by
    intro hsegment s hs
    rcases mem_append.mp hs with hs | hs
    · exact h s hs
    · exact mem_singleton.mp hs ▸ hsegment
  have hreplace : ∀ last : TaggedLineSegment T, last.IsFilled →
      ∀ s ∈ segments.dropLast ++ [last], s.IsFilled := by
    intro last hlast s hs
    rcases mem_append.mp hs with hs | hs
    · exact h s (dropLast_subset _ hs)
    · exact mem_singleton.mp hs ▸ hlast
  cases segment with
  | tagStart tag => exact hconcat trivial
  | tagEnd tag => exact hconcat trivial
  | normal delta =>
    rw [pushSegment]
    split
    · exact h
    · next hdelta =>
      split
      · exact hreplace _ fun hnil => hdelta (append_eq_nil_iff.mp hnil).2
      · exact hconcat hdelta
  | tagDelta tag delta =>
    rw [pushSegment]
    split
    · exact h
    · next hdelta =>
      split
      · split
        · exact hreplace _ fun hnil => hdelta (append_eq_nil_iff.mp hnil).2
        · exact hconcat hdelta
      · exact hconcat hdelta

namespace TaggedLineParser

def step (self : TaggedLineParser T) (ch : Char) : List (Mark T) × TaggedLineParser T :=
  if self.detectTag then
    let line := self.lineBuffer ++ [ch]
    if ch = '\n' then
      let (segment, activeTag) := classifyLine self.specs self.activeTag line
      (segment.marks, { self with activeTag, lineBuffer := [] })
    else if MayBeTag self.specs line then ([], { self with lineBuffer := line })
    else (line.map (.char self.activeTag), { self with detectTag := false, lineBuffer := [] })
  else ([.char self.activeTag ch], { self with detectTag := decide (ch = '\n') })

def Cursor.marks (self : Cursor T) : List (Mark T) :=
  marksOf self.segments ++ self.run.map (.char self.parser.activeTag)

variable (cursor : Cursor T) (self : TaggedLineParser T)

theorem marksOf_pushText (text : Text) (segments : List (TaggedLineSegment T)) :
    marksOf (self.pushText text segments) =
      marksOf segments ++ text.map (.char self.activeTag) := by
  rw [pushText, marksOf_pushSegment, marks_textSegment]

theorem marksOf_flush : marksOf cursor.flush = cursor.marks := by
  rw [Cursor.flush, Cursor.marks]
  split
  · next hrun => simp [hrun]
  · exact marksOf_pushText cursor.parser cursor.run cursor.segments

theorem parseChar_eq_step (ch : Char) :
    (parseChar cursor ch).marks = cursor.marks ++ (step cursor.parser ch).1 ∧
      (parseChar cursor ch).parser = (step cursor.parser ch).2 := by
  have hflush := marksOf_flush cursor
  obtain ⟨⟨specs, activeTag, detectTag, lineBuffer⟩, run, segments⟩ := cursor
  cases detectTag with
  | true =>
    by_cases hch : ch = '\n'
    · simp [parseChar, step, hch, finishLine, Cursor.marks, marksOf_pushSegment, hflush]
    · by_cases hmay : MayBeTag specs (lineBuffer ++ [ch])
      · have hslug := hmay
        rw [MayBeTag] at hslug
        simp only [parseChar, step, hch, hmay, hslug, if_true, if_false, Cursor.marks, hflush]
        simp
      · have hslug := hmay
        rw [MayBeTag] at hslug
        simp only [parseChar, step, hch, hmay, hslug, if_true, if_false, Cursor.marks, hflush,
          marksOf_pushText]
        simp
  | false =>
    by_cases hch : ch = '\n'
    · simp [parseChar, step, hch, Cursor.marks, marksOf_pushText]
    · simp [parseChar, step, hch, Cursor.marks]

def read (self : TaggedLineParser T) : Text → List (Mark T) × TaggedLineParser T
  | [] => ([], self)
  | ch :: rest =>
    ((step self ch).1 ++ (read (step self ch).2 rest).1, (read (step self ch).2 rest).2)

theorem read_append (a b : Text) :
    read self (a ++ b) =
      ((read self a).1 ++ (read (read self a).2 b).1, (read (read self a).2 b).2) := by
  induction a generalizing self with
  | nil => rfl
  | cons ch a ih => rw [cons_append, read, ih, read, append_assoc]

theorem foldl_parseChar (text : Text) :
    (text.foldl parseChar cursor).marks = cursor.marks ++ (read cursor.parser text).1 ∧
      (text.foldl parseChar cursor).parser = (read cursor.parser text).2 := by
  induction text generalizing cursor with
  | nil => exact ⟨(append_nil _).symm, rfl⟩
  | cons ch text ih =>
    obtain ⟨hmarks, hparser⟩ := parseChar_eq_step cursor ch
    obtain ⟨hrest, hlast⟩ := ih (parseChar cursor ch)
    rw [foldl_cons, hrest, hlast, hmarks, hparser, read, append_assoc]
    exact ⟨rfl, rfl⟩

theorem parse_eq_read (delta : Text) : marksOf (self.parse delta).1 = (read self delta).1 ∧
      (self.parse delta).2 = (read self delta).2 := by
  obtain ⟨hmarks, hparser⟩ := foldl_parseChar ⟨self, [], []⟩ delta
  rw [parse, marksOf_flush, hmarks]
  exact ⟨rfl, hparser⟩

theorem isFilled_flush {cursor : Cursor T} (h : ∀ s ∈ cursor.segments, s.IsFilled) :
    ∀ s ∈ cursor.flush, s.IsFilled := by
  rw [Cursor.flush]
  split
  · exact h
  · exact isFilled_pushSegment h _

theorem isFilled_parseChar {cursor : Cursor T} (h : ∀ s ∈ cursor.segments, s.IsFilled)
    (ch : Char) : ∀ s ∈ (parseChar cursor ch).segments, s.IsFilled := by
  have hflush := isFilled_flush h
  simp only [parseChar]
  split
  · split
    · exact isFilled_pushSegment hflush _
    · split
      · exact hflush
      · exact isFilled_pushSegment hflush _
  · split
    · exact isFilled_pushSegment h _
    · exact h

theorem isFilled_parse (delta : Text) : ∀ s ∈ (self.parse delta).1, s.IsFilled := by
  have hfold : ∀ cursor : Cursor T, (∀ s ∈ cursor.segments, s.IsFilled) →
      ∀ s ∈ (delta.foldl parseChar cursor).segments, s.IsFilled := by
    induction delta with
    | nil => exact fun cursor h => h
    | cons ch delta ih => exact fun cursor h => ih _ (isFilled_parseChar h ch)
  exact isFilled_flush (hfold ⟨self, [], []⟩ fun s hs => absurd hs not_mem_nil)

theorem isFilled_finish : ∀ s ∈ self.finish.1, s.IsFilled := by
  have hnil : ∀ s ∈ ([] : List (TaggedLineSegment T)), s.IsFilled :=
    fun s hs => absurd hs not_mem_nil
  have hline : ∀ s ∈ (if self.lineBuffer = [] then (self, []) else self.finishLine []).2,
      s.IsFilled := by
    split
    · exact hnil
    · exact isFilled_pushSegment hnil _
  simp only [finish]
  split
  · exact isFilled_pushSegment hline _
  · exact hline

end TaggedLineParser

end Codex.StreamParser

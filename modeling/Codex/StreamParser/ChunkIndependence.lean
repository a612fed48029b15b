import Codex.StreamParser.AssistantText

/-! The parser of citations gives the same text for all chunks, and the parser of plans reads that
text line by line. -/

namespace Codex.StreamParser
open Codex.Lib TaggedLineParser AssistantTextStreamParser List
open InlineHiddenTagParser (scan scan_inside scan_close scan_outside scan_open)

/-- The text without its citations, and their contents. A citation goes from an opening tag to the
next closing tag, or to the end of the text. -/
def removeCitations (text : Text) : StreamTextChunk Text :=
  match _hopen : Delimiter.cut citationOpen text with
  | none => ⟨text, []⟩
  | some (before, inside) =>
    match _hclose : Delimiter.cut citationClose inside with
    | none => ⟨before, [inside]⟩
    | some (content, rest) => StreamTextChunk.append ⟨before, [content]⟩ (removeCitations rest)
termination_by text.length
decreasing_by
  have hclose : citationClose.length = 19 := rfl
  rw [Delimiter.eq_of_cut _hopen, Delimiter.eq_of_cut _hclose]
  simp only [length_append]
  omega

/-- What the parser has given when it is finished after one push. -/
def scanned (active : Option (ActiveTag CitationTag)) (text : Text) : StreamTextChunk Text :=
  let found := scan [citationSpec] active text
  (CitationStreamParser.contents found.1).append (CitationStreamParser.contents
    (InlineHiddenTagParser.finish ⟨[citationSpec], citationSpecs_ne_nil, found.2.2, found.2.1⟩).1)

theorem scanned_append {active later : Option (ActiveTag CitationTag)} {text rest : Text}
    {chunk : StreamTextChunk (ExtractedInlineTag CitationTag)}
    (h : scan [citationSpec] active text =
      (chunk.append (scan [citationSpec] later rest).1, (scan [citationSpec] later rest).2)) :
    scanned active text = (CitationStreamParser.contents chunk).append (scanned later rest) := by
  rw [scanned, h]
  simp only [scanned, CitationStreamParser.contents_append, StreamTextChunk.append_assoc]

theorem scanned_eq_removeCitations (text : Text) : scanned none text = removeCitations text := by
  induction hlength : text.length using Nat.strongRecOn generalizing text with
  | _ n ih =>
    rw [removeCitations]
    split
    · next hopen =>
      rw [Delimiter.cut_eq_map_find, Option.map_eq_none_iff] at hopen
      rw [scanned, scan_outside (by exact hopen)]
      simp [CitationStreamParser.contents, InlineHiddenTagParser.finish, StreamTextChunk.append]
    · next before inside hopen =>
      have hopened := hopen
      rw [Delimiter.cut_eq_map_find] at hopened
      obtain ⟨i, hi, heq⟩ := Option.map_eq_some_iff.mp hopened
      obtain ⟨rfl, rfl⟩ := Prod.mk.inj heq
      rw [scanned_append (scan_open (by exact hi))]
      split
      · next hclose =>
        rw [Delimiter.cut_eq_map_find, Option.map_eq_none_iff] at hclose
        rw [scanned, scan_inside _ (by exact hclose)]
        simp [CitationStreamParser.contents, InlineHiddenTagParser.finish, ActiveTag.pushContent,
          StreamTextChunk.append, StreamTextChunk.empty, citationSpec]
      · next content rest hclose =>
        have hclosed := hclose
        rw [Delimiter.cut_eq_map_find] at hclosed
        obtain ⟨j, hj, heq⟩ := Option.map_eq_some_iff.mp hclosed
        obtain ⟨rfl, rfl⟩ := Prod.mk.inj heq
        have hshorter : ((text.drop (i + citationOpen.length)).drop
            (j + citationClose.length)).length < n := by
          have hpos : citationOpen.length = 18 := rfl
          have hbound := Delimiter.length_le_of_find hi (by decide)
          rw [length_drop, length_drop]
          omega
        rw [scanned_append (scan_close _ (by exact hj)), ← ih _ hshorter _ rfl]
        simp [CitationStreamParser.contents, StreamTextChunk.append, citationSpec]

theorem collectChunks_eq_removeCitations (text : Text) :
    citationStreamParser.collectChunks .new [text] = removeCitations text := by
  rw [← scanned_eq_removeCitations]
  rfl

/-- The segments of a text without citations, read line by line: outside of a block the opening
tag is looked for, in a block the closing tag. -/
def planReference : Bool → List Text → List ProposedPlanSegment
  | inBlock, [] => if inBlock then [.proposedPlanEnd] else []
  | inBlock, line :: rest =>
    if inBlock = false ∧ Text.trim line = planOpen then
      .proposedPlanStart :: planReference true rest
    else if inBlock = true ∧ Text.trim line = planClose then
      .proposedPlanEnd :: planReference false rest
    else (if inBlock then .proposedPlanDelta line else .normal line) :: planReference inBlock rest

theorem classifyLine_planSpec (activeTag : Option PlanTag) (line : Text) :
    classifyLine [planSpec] activeTag line =
      if activeTag = none ∧ Text.trim line = planOpen then
        (.tagStart .proposedPlan, some .proposedPlan)
      else if activeTag ≠ none ∧ Text.trim line = planClose then (.tagEnd .proposedPlan, none)
      else (textSegment activeTag line, activeTag) := by
  have hdiffer : planOpen ≠ planClose := by decide
  have hopen : matchOpen [planSpec] (Text.trim line) =
      if Text.trim line = planOpen then some .proposedPlan else none := by
    by_cases h : Text.trim line = planOpen
    · simp [matchOpen, planSpec, h]
    · simp [matchOpen, planSpec, h, Ne.symm h]
  have hclose : matchClose [planSpec] (Text.trim line) =
      if Text.trim line = planClose then some .proposedPlan else none := by
    by_cases h : Text.trim line = planClose
    · simp [matchClose, planSpec, h]
    · simp [matchClose, planSpec, h, Ne.symm h]
  simp only [classifyLine, trim_stripNewline, hopen, hclose]
  rcases activeTag with _ | ⟨⟨⟩⟩
  · by_cases h : Text.trim line = planOpen <;> simp [h]
  · by_cases h : Text.trim line = planClose
    · simp [h]
    · simp [h]

theorem map_readLines (activeTag : Option PlanTag) (lines : List Text) :
    (readLines [planSpec] activeTag lines).map mapSegment =
      planReference activeTag.isSome lines := by
  induction lines generalizing activeTag with
  | nil => rcases activeTag with _ | ⟨⟨⟩⟩ <;> rfl
  | cons line lines ih =>
    rw [readLines, map_cons, ih, classifyLine_planSpec]
    rcases activeTag with _ | ⟨⟨⟩⟩
    · by_cases h : Text.trim line = planOpen <;> simp [planReference, h, mapSegment, textSegment]
    · by_cases h : Text.trim line = planClose <;> simp [planReference, h, mapSegment, textSegment]

theorem isFilled_readLines (lines : List Text) (h : ∀ line ∈ lines, line ≠ [])
    (activeTag : Option PlanTag) :
    ∀ s ∈ readLines [planSpec] activeTag lines, s.IsFilled := by
  induction lines generalizing activeTag with
  | nil => rcases activeTag with _ | tag <;> simp [readLines, TaggedLineSegment.IsFilled]
  | cons line lines ih =>
    rw [readLines]
    have hfirst : (classifyLine [planSpec] activeTag line).1.IsFilled := by
      rw [classifyLine_planSpec]
      split
      · trivial
      · split
        · trivial
        · cases activeTag <;> exact h line mem_cons_self
    intro s hs
    rcases mem_cons.mp hs with rfl | hs
    · exact hfirst
    · exact ih (fun line hline => h line (mem_cons_of_mem _ hline)) _ s hs

structure HasRead (visible : Text) (out : AssistantTextChunk) (plan : ProposedPlanParser) :
    Prop where
  parser : plan.parser = (read (.new [planSpec]) visible).2
  segments : ∃ segments, (∀ s ∈ segments, TaggedLineSegment.IsFilled s) ∧
    marksOf segments = (read (.new [planSpec]) visible).1 ∧
    out.planSegments = segments.map mapSegment ∧
    out.visibleText = (marksOf segments).flatMap Mark.normalText

theorem hasRead_nil : HasRead [] ⟨[], [], []⟩ .new :=
  ⟨rfl, [], fun _ h => absurd h not_mem_nil, rfl, rfl, rfl⟩

theorem HasRead.pushStr {visible : Text} {out : AssistantTextChunk} {plan : ProposedPlanParser}
    (h : HasRead visible out plan) (text : Text) (citations : List Text) :
    HasRead (visible ++ text)
      (out.append ⟨(plan.pushStr text).1.visibleText, citations, (plan.pushStr text).1.extracted⟩)
      (plan.pushStr text).2 := by
  obtain ⟨hparser, segments, hfilled, hmarks, hsegments, hvisible⟩ := h
  obtain ⟨hpush, hstate⟩ := parse_eq_read plan.parser text
  have hread := read_append (.new [planSpec]) visible text
  refine ⟨?_, segments ++ (plan.parser.parse text).1, ?_, ?_, ?_, ?_⟩
  · rw [hread, ← hparser]
    exact hstate
  · intro s hs
    rcases mem_append.mp hs with hs | hs
    · exact hfilled s hs
    · exact isFilled_parse plan.parser text s hs
  · rw [hread, marksOf_append, hmarks, hpush, hparser]
  · rw [map_append, ← hsegments]
    rfl
  · rw [marksOf_append, flatMap_append, ← hvisible, ← normalText_mapSegments]
    rfl

theorem foldl_feed_planMode (chunks : List Text) :
    let all := chunks.foldl feed (⟨[], [], []⟩, new true)
    let stripped := chunks.foldl citationStreamParser.feed (.empty, .new)
    all.2.planMode ∧ all.2.citations = stripped.2 ∧
      all.1.citations = stripped.1.extracted ∧
      HasRead stripped.1.visibleText all.1 all.2.plan := by
  induction chunks using List.reverseRecOn with
  | nil => exact ⟨rfl, rfl, rfl, hasRead_nil⟩
  | append_singleton chunks chunk ih =>
    simp only [foldl_append, foldl_cons, foldl_nil] at ih ⊢
    obtain ⟨hmode, hcitations, hextracted, hread⟩ := ih
    simp only [feed, pushStr, parseVisibleText, hmode, if_true, hcitations]
    refine ⟨trivial, rfl, ?_, hread.pushStr _ _⟩
    exact congrArg (· ++ _) hextracted

theorem foldl_feed_normal (chunks : List Text) :
    let all := chunks.foldl feed (⟨[], [], []⟩, new false)
    let stripped := chunks.foldl citationStreamParser.feed (.empty, .new)
    all.2.planMode = false ∧ all.2.citations = stripped.2 ∧
      all.1 = ⟨stripped.1.visibleText, stripped.1.extracted, []⟩ := by
  induction chunks using List.reverseRecOn with
  | nil => exact ⟨rfl, rfl, rfl⟩
  | append_singleton chunks chunk ih =>
    simp only [foldl_append, foldl_cons, foldl_nil] at ih ⊢
    obtain ⟨hmode, hcitations, hout⟩ := ih
    simp only [feed, pushStr, parseVisibleText, hmode, hcitations,
      Bool.false_eq_true, if_false, hout]
    exact ⟨trivial, rfl, rfl⟩

theorem collectChunks_normal (chunks : List Text) :
    AssistantTextStreamParser.collectChunks false chunks =
      ⟨(removeCitations chunks.flatten).visibleText, (removeCitations chunks.flatten).extracted,
        []⟩ := by
  obtain ⟨hmode, hcitations, hout⟩ := foldl_feed_normal chunks
  rw [← collectChunks_eq_removeCitations, ← citations_chunkIndependent chunks]
  simp only [AssistantTextStreamParser.collectChunks, AssistantTextStreamParser.finish,
    parseVisibleText, hmode, hcitations, Bool.false_eq_true, if_false, hout]
  rfl

theorem collectChunks_planMode (chunks : List Text) :
    ∃ segments, (∀ s ∈ segments, TaggedLineSegment.IsFilled s) ∧
      marksOf segments = marksOf (readLines [planSpec] none
        (Split.splitInclusive '\n' (removeCitations chunks.flatten).visibleText)) ∧
      AssistantTextStreamParser.collectChunks true chunks =
        ⟨(marksOf segments).flatMap Mark.normalText, (removeCitations chunks.flatten).extracted,
          segments.map mapSegment⟩ := by
  obtain ⟨hmode, hcitations, hextracted, hread⟩ := foldl_feed_planMode chunks
  rw [← collectChunks_eq_removeCitations, ← citations_chunkIndependent chunks]
  simp only [AssistantTextStreamParser.collectChunks, StreamTextParser.collectChunks]
  generalize chunks.foldl feed (⟨[], [], []⟩, new true) = all at *
  generalize chunks.foldl citationStreamParser.feed (.empty, .new) = stripped at *
  -- The end of the text is read first, and then the parser of plans is finished.
  have hlast := hread.pushStr stripped.2.finish.1.visibleText []
  obtain ⟨hparser, segments, hfilled, hmarks, hsegments, hvisible⟩ := hlast
  generalize hplan : all.2.plan.pushStr stripped.2.finish.1.visibleText = last at *
  have hlines := read_eq_readLines (.new [planSpec]) ⟨rfl, rfl⟩
    (stripped.1.visibleText ++ stripped.2.finish.1.visibleText)
  rw [← hparser, ← hmarks, ← marksOf_append] at hlines
  refine ⟨segments ++ last.2.parser.finish.1, ?_, hlines, ?_⟩
  · intro s hs
    rcases mem_append.mp hs with hs | hs
    · exact hfilled s hs
    · exact isFilled_finish last.2.parser s hs
  · have hfinish : all.2.finish.1 = ⟨last.1.visibleText ++ last.2.finish.1.visibleText,
        stripped.2.finish.1.extracted, last.1.extracted ++ last.2.finish.1.extracted⟩ := by
      simp only [AssistantTextStreamParser.finish, parseVisibleText, hmode, if_true, hcitations,
        hplan]
    rw [hfinish, marksOf_append, flatMap_append, ← hvisible, map_append, ← hsegments,
      ← normalText_mapSegments]
    simp only [AssistantTextChunk.append, hextracted, append_assoc]
    rfl

/-- The chunks of a text make no difference to what is parsed. The citations are those of the text,
and in plan mode the segments are what reading the text without them line by line gives. -/
theorem assistant_text_is_chunk_independent (planMode : Bool) (chunks : List Text) :
    let out := AssistantTextStreamParser.collectChunks planMode chunks
    let whole := AssistantTextStreamParser.collectChunks planMode [chunks.flatten]
    let removed := removeCitations chunks.flatten
    let reference := planReference false (Split.splitInclusive '\n' removed.visibleText)
    out.visibleText = whole.visibleText ∧ out.citations = whole.citations ∧
      mergeSegments out.planSegments = mergeSegments whole.planSegments ∧
      out.visibleText = (if planMode then reference.flatMap ProposedPlanSegment.normalText
        else removed.visibleText) ∧
      out.citations = removed.extracted ∧
      mergeSegments out.planSegments = if planMode then mergeSegments reference else [] := by
  intro out whole removed reference
  have hflatten : [chunks.flatten].flatten = chunks.flatten := flatten_singleton
  cases planMode with
  | false =>
    simp only [out, whole, collectChunks_normal, hflatten, Bool.false_eq_true, if_false]
    exact ⟨trivial, trivial, trivial, rfl, rfl, rfl⟩
  | true =>
    obtain ⟨segments, hfilled, hmarks, hout⟩ := collectChunks_planMode chunks
    obtain ⟨segments', hfilled', hmarks', hout'⟩ := collectChunks_planMode [chunks.flatten]
    rw [hflatten] at hmarks' hout'
    have hlines := isFilled_readLines (Split.splitInclusive '\n' removed.visibleText)
      (fun line => Split.ne_nil_of_mem_splitInclusive) none
    have hreference : (readLines [planSpec] none
        (Split.splitInclusive '\n' removed.visibleText)).map mapSegment = reference :=
      map_readLines none _
    simp only [out, whole, hout, hout', if_true]
    refine ⟨by rw [hmarks, hmarks'], trivial, ?_, ?_, rfl, ?_⟩
    · rw [mergeSegments_map hfilled, mergeSegments_map hfilled', hmarks, hmarks']
    · rw [hmarks, ← normalText_mapSegments, hreference]
    · rw [mergeSegments_map hfilled, hmarks, ← mergeSegments_map hlines, hreference]

/-- Both tags of a citation are cut by a chunk. -/
def cutCitation : List Text :=
  ["a<oai-mem".toList, "-citation>x</oai-".toList, "mem-citation>b".toList]

theorem assistant_text_is_chunk_independent_cut :
    let out := AssistantTextStreamParser.collectChunks true cutCitation
    out.visibleText = "ab".toList ∧ out.citations = ["x".toList] ∧
      mergeSegments out.planSegments = [.normal "ab".toList] := by
  have hremoved : removeCitations cutCitation.flatten = ⟨"ab".toList, ["x".toList]⟩ := by
    decide +kernel
  obtain ⟨-, -, -, hvisible, hcitations, hsegments⟩ :=
    assistant_text_is_chunk_independent true cutCitation
  rw [hremoved] at hvisible hcitations hsegments
  exact ⟨hvisible.trans (by decide +kernel), hcitations, hsegments.trans (by decide +kernel)⟩

end Codex.StreamParser

import Codex.StreamParser.InlineHiddenTag
import Codex.StreamParser.TagLines

/-! `utils/stream-parser/src/proposed_plan.rs` and `assistant_text.rs`. -/

namespace Codex.StreamParser
open Codex.Lib List

inductive PlanTag where
  | proposedPlan
  deriving DecidableEq, Repr

def planOpen : Text := "<proposed_plan>".toList

def planClose : Text := "</proposed_plan>".toList

def planSpec : TagSpec PlanTag := ⟨planOpen, planClose, .proposedPlan⟩

inductive ProposedPlanSegment where
  | normal (text : Text)
  | proposedPlanStart
  | proposedPlanDelta (text : Text)
  | proposedPlanEnd
  deriving DecidableEq, Repr

def mapSegment : TaggedLineSegment PlanTag → ProposedPlanSegment
  | .normal text => .normal text
  | .tagStart .proposedPlan => .proposedPlanStart
  | .tagDelta .proposedPlan text => .proposedPlanDelta text
  | .tagEnd .proposedPlan => .proposedPlanEnd

def ProposedPlanSegment.normalText : ProposedPlanSegment → Text
  | normal text => text
  | _ => []

def mapSegments (segments : List (TaggedLineSegment PlanTag)) :
    StreamTextChunk ProposedPlanSegment :=
  let mapped := segments.map mapSegment
  ⟨mapped.flatMap ProposedPlanSegment.normalText, mapped⟩

structure ProposedPlanParser where
  parser : TaggedLineParser PlanTag

namespace ProposedPlanParser

def new : ProposedPlanParser := ⟨.new [planSpec]⟩

def pushStr (self : ProposedPlanParser) (chunk : Text) :
    StreamTextChunk ProposedPlanSegment × ProposedPlanParser :=
  (mapSegments (self.parser.parse chunk).1, ⟨(self.parser.parse chunk).2⟩)

def finish (self : ProposedPlanParser) : StreamTextChunk ProposedPlanSegment × ProposedPlanParser :=
  (mapSegments self.parser.finish.1, ⟨self.parser.finish.2⟩)

end ProposedPlanParser

structure AssistantTextChunk where
  visibleText : Text
  citations : List Text
  planSegments : List ProposedPlanSegment
  deriving DecidableEq, Repr

def AssistantTextChunk.append (self other : AssistantTextChunk) : AssistantTextChunk :=
  ⟨self.visibleText ++ other.visibleText, self.citations ++ other.citations,
    self.planSegments ++ other.planSegments⟩

structure AssistantTextStreamParser where
  planMode : Bool
  citations : CitationStreamParser
  plan : ProposedPlanParser

namespace AssistantTextStreamParser

def new (planMode : Bool) : AssistantTextStreamParser := ⟨planMode, .new, .new⟩

def parseVisibleText (self : AssistantTextStreamParser) (visibleText : Text) :
    AssistantTextChunk × AssistantTextStreamParser :=
  if self.planMode then
    let (planChunk, plan) := self.plan.pushStr visibleText
    (⟨planChunk.visibleText, [], planChunk.extracted⟩, { self with plan })
  else (⟨visibleText, [], []⟩, self)

def pushStr (self : AssistantTextStreamParser) (chunk : Text) :
    AssistantTextChunk × AssistantTextStreamParser :=
  let (citationChunk, citations) := self.citations.pushStr chunk
  let (out, self) := { self with citations }.parseVisibleText citationChunk.visibleText
  ({ out with citations := citationChunk.extracted }, self)

def finish (self : AssistantTextStreamParser) : AssistantTextChunk × AssistantTextStreamParser :=
  let (citationChunk, citations) := self.citations.finish
  let (out, self) := { self with citations }.parseVisibleText citationChunk.visibleText
  let (out, self) :=
    if self.planMode then
      let (tail, plan) := self.plan.finish
      (⟨out.visibleText ++ tail.visibleText, [], out.planSegments ++ tail.extracted⟩,
        { self with plan })
    else (out, self)
  ({ out with citations := citationChunk.extracted }, self)

def feed (all : AssistantTextChunk × AssistantTextStreamParser) (chunk : Text) :
    AssistantTextChunk × AssistantTextStreamParser :=
  (all.1.append (all.2.pushStr chunk).1, (all.2.pushStr chunk).2)

def collectChunks (planMode : Bool) (chunks : List Text) : AssistantTextChunk :=
  let all := chunks.foldl feed (⟨[], [], []⟩, new planMode)
  all.1.append all.2.finish.1

end AssistantTextStreamParser

def joinSegment : ProposedPlanSegment → List ProposedPlanSegment → List ProposedPlanSegment
  | .normal a, .normal b :: rest => .normal (a ++ b) :: rest
  | .proposedPlanDelta a, .proposedPlanDelta b :: rest => .proposedPlanDelta (a ++ b) :: rest
  | segment, rest => segment :: rest

/-- Adjacent `Normal` and adjacent `ProposedPlanDelta` segments as one. -/
def mergeSegments (segments : List ProposedPlanSegment) : List ProposedPlanSegment :=
  segments.foldr joinSegment []

def markSegment : Mark PlanTag → ProposedPlanSegment
  | .char none c => .normal [c]
  | .char (some .proposedPlan) c => .proposedPlanDelta [c]
  | .tagStart .proposedPlan => .proposedPlanStart
  | .tagEnd .proposedPlan => .proposedPlanEnd

theorem joinSegment_eq_foldr {segment : TaggedLineSegment PlanTag} (h : segment.IsFilled)
    (rest : List ProposedPlanSegment) :
    joinSegment (mapSegment segment) rest =
      segment.marks.foldr (fun mark => joinSegment (markSegment mark)) rest := by
  have hnormal : ∀ c text, joinSegment (.normal [c]) (joinSegment (.normal text) rest) =
      joinSegment (.normal (c :: text)) rest := by
    intro c text
    rcases rest with _ | ⟨_ | _ | _ | _, rest⟩ <;> rfl
  have hdelta : ∀ c text,
      joinSegment (.proposedPlanDelta [c]) (joinSegment (.proposedPlanDelta text) rest) =
        joinSegment (.proposedPlanDelta (c :: text)) rest := by
    intro c text
    rcases rest with _ | ⟨_ | _ | _ | _, rest⟩ <;> rfl
  rcases segment with text | ⟨⟨⟩⟩ | ⟨⟨⟩, text⟩ | ⟨⟨⟩⟩
  · induction text with
    | nil => exact absurd rfl h
    | cons c text ih =>
      by_cases htext : text = []
      · rw [htext]
        rfl
      · exact (hnormal c text).symm.trans (congrArg (joinSegment (.normal [c])) (ih htext))
  · rfl
  · induction text with
    | nil => exact absurd rfl h
    | cons c text ih =>
      by_cases htext : text = []
      · rw [htext]
        rfl
      · exact (hdelta c text).symm.trans
          (congrArg (joinSegment (.proposedPlanDelta [c])) (ih htext))
  · rfl

theorem mergeSegments_map {segments : List (TaggedLineSegment PlanTag)}
    (h : ∀ s ∈ segments, s.IsFilled) :
    mergeSegments (segments.map mapSegment) =
      (marksOf segments).foldr (fun mark => joinSegment (markSegment mark)) [] := by
  rw [mergeSegments]
  induction segments with
  | nil => rfl
  | cons segment segments ih =>
    rw [map_cons, foldr_cons, ih fun s hs => h s (mem_cons_of_mem _ hs),
      joinSegment_eq_foldr (h segment mem_cons_self), marksOf, marksOf, flatMap_cons,
      foldr_append]

def Mark.normalText : Mark PlanTag → Text
  | .char none c => [c]
  | _ => []

theorem normalText_mapSegments (segments : List (TaggedLineSegment PlanTag)) :
    (segments.map mapSegment).flatMap ProposedPlanSegment.normalText =
      (marksOf segments).flatMap Mark.normalText := by
  induction segments with
  | nil => rfl
  | cons segment segments ih =>
    have hsegment : (mapSegment segment).normalText = segment.marks.flatMap Mark.normalText := by
      rcases segment with text | ⟨⟨⟩⟩ | ⟨⟨⟩, text⟩ | ⟨⟨⟩⟩
      · simp [mapSegment, ProposedPlanSegment.normalText, TaggedLineSegment.marks,
          flatMap_map, Mark.normalText]
      · rfl
      · simp [mapSegment, ProposedPlanSegment.normalText, TaggedLineSegment.marks,
          flatMap_map, Mark.normalText]
      · rfl
    rw [map_cons, flatMap_cons, ih, hsegment, marksOf, marksOf, flatMap_cons, flatMap_append]

end Codex.StreamParser

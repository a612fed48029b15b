import Codex.Lib.Delimiter
import Codex.StreamParser.StreamText

/-! `utils/stream-parser/src/inline_hidden_tag.rs` and the parser of citations built on it. The
assertions of `new` are fields, and positions count characters. -/

namespace Codex.StreamParser
open Codex.Lib Delimiter List Option

structure ExtractedInlineTag (T : Type) where
  tag : T
  content : Text
  deriving DecidableEq, Repr

structure InlineTagSpec (T : Type) where
  tag : T
  openTag : Text
  closeTag : Text
  openTag_ne : openTag ≠ []
  closeTag_ne : closeTag ≠ []

structure ActiveTag (T : Type) where
  tag : T
  close : Text
  content : Text
  close_ne : close ≠ []

def ActiveTag.pushContent {T : Type} (self : ActiveTag T) (text : Text) : ActiveTag T :=
  { self with content := self.content ++ text }

structure InlineHiddenTagParser (T : Type) where
  specs : List (InlineTagSpec T)
  specs_ne : specs ≠ []
  pending : Text
  active : Option (ActiveTag T)

namespace InlineHiddenTagParser
variable {T : Type}

def new (specs : List (InlineTagSpec T)) (h : specs ≠ []) : InlineHiddenTagParser T :=
  ⟨specs, h, [], none⟩

/-- The comparison of `find_next_open`; the specs are gone through in the order of their indices.
Openers at one place begin each other, so that characters and bytes count them alike. -/
def opensBefore (a b : Nat × InlineTagSpec T) : Bool :=
  a.1 < b.1 || (a.1 = b.1 && b.2.openTag.length < a.2.openTag.length)

def findNextOpen (specs : List (InlineTagSpec T)) (pending : Text) :
    Option (Nat × InlineTagSpec T) :=
  match specs.filterMap fun spec => (find spec.openTag pending).map fun pos => (pos, spec) with
  | [] => none
  | first :: rest =>
    some (rest.foldl (fun best other => if opensBefore other best then other else best) first)

def maxOpenPrefixSuffixLen (specs : List (InlineTagSpec T)) (pending : Text) : Nat :=
  (specs.map fun spec => overlap pending spec.openTag).max?.getD 0

theorem find_of_findNextOpen {specs : List (InlineTagSpec T)} {pending : Text} {pos : Nat}
    {spec : InlineTagSpec T} (h : findNextOpen specs pending = some (pos, spec)) :
    find spec.openTag pending = some pos := by
  unfold findNextOpen at h
  split at h
  · cases h
  · next first rest hcandidates =>
    have hmem : ∀ (l : List (Nat × InlineTagSpec T)) (best : Nat × InlineTagSpec T),
        l.foldl (fun best other => if opensBefore other best then other else best) best ∈
          best :: l := by
      intro l
      induction l with
      | nil => exact fun best => mem_singleton_self best
      | cons other l ih =>
        intro best
        rw [foldl_cons]
        split
        · exact mem_cons_of_mem _ (ih other)
        · have hbest := ih best
          rw [mem_cons] at hbest ⊢
          exact hbest.imp_right (mem_cons_of_mem _)
    have hfound := hmem rest first
    rw [Option.some.inj h, ← hcandidates, mem_filterMap] at hfound
    obtain ⟨other, _, hother⟩ := hfound
    obtain ⟨i, hi, heq⟩ := map_eq_some_iff.mp hother
    obtain ⟨rfl, rfl⟩ := Prod.mk.inj heq
    exact hi

/-- The loop of `push_str`: what it gives out, the tag that is open and the text that stays. -/
def scan (specs : List (InlineTagSpec T)) (active : Option (ActiveTag T)) (pending : Text) :
    StreamTextChunk (ExtractedInlineTag T) × Option (ActiveTag T) × Text :=
  match active with
  | some active =>
    match _hclose : find active.close pending with
    | some closeIdx =>
      let later := scan specs none (pending.drop (closeIdx + active.close.length))
      (StreamTextChunk.append ⟨[], [⟨active.tag, active.content ++ pending.take closeIdx⟩]⟩ later.1,
        later.2)
    | none =>
      let take := pending.length - overlap pending active.close
      (.empty, some (active.pushContent (pending.take take)), pending.drop take)
  | none =>
    match _hopen : findNextOpen specs pending with
    | some (openIdx, spec) =>
      let later := scan specs (some ⟨spec.tag, spec.closeTag, [], spec.closeTag_ne⟩)
        (pending.drop (openIdx + spec.openTag.length))
      (StreamTextChunk.append ⟨pending.take openIdx, []⟩ later.1, later.2)
    | none =>
      let take := pending.length - maxOpenPrefixSuffixLen specs pending
      (⟨pending.take take, []⟩, none, pending.drop take)
termination_by pending.length
decreasing_by
  · have hlength := length_le_of_find _hclose active.close_ne
    have hpos := length_pos_iff.mpr active.close_ne
    rw [length_drop]
    omega
  · have hlength := length_le_of_find (find_of_findNextOpen _hopen) spec.openTag_ne
    have hpos := length_pos_iff.mpr spec.openTag_ne
    rw [length_drop]
    omega

def pushStr (self : InlineHiddenTagParser T) (chunk : Text) :
    StreamTextChunk (ExtractedInlineTag T) × InlineHiddenTagParser T :=
  let (out, active, pending) := scan self.specs self.active (self.pending ++ chunk)
  (out, { self with active, pending })

def finish (self : InlineHiddenTagParser T) :
    StreamTextChunk (ExtractedInlineTag T) × InlineHiddenTagParser T :=
  match self.active with
  | some active =>
    (⟨[], [⟨active.tag, active.content ++ self.pending⟩]⟩,
      { self with active := none, pending := [] })
  | none => (⟨self.pending, []⟩, { self with pending := [] })

section OneTag
variable {spec : InlineTagSpec T} (active : ActiveTag T) {s : Text} {i : Nat}

theorem scan_close (h : find active.close s = some i) :
    scan [spec] (some active) s =
      (StreamTextChunk.append ⟨[], [⟨active.tag, active.content ++ s.take i⟩]⟩
        (scan [spec] none (s.drop (i + active.close.length))).1,
        (scan [spec] none (s.drop (i + active.close.length))).2) := by
  conv_lhs => rw [scan]
  split
  · next j hj =>
    obtain rfl : i = j := Option.some.inj (h.symm.trans hj)
    rfl
  · next hnone => exact nomatch h.symm.trans hnone

theorem scan_inside (h : find active.close s = none) :
    scan [spec] (some active) s =
      (.empty, some (active.pushContent (s.take (s.length - overlap s active.close))),
        s.drop (s.length - overlap s active.close)) := by
  rw [scan]
  split
  · next j hj => exact nomatch h.symm.trans hj
  · rfl

theorem findNextOpen_singleton :
    findNextOpen [spec] s = (find spec.openTag s).map fun pos => (pos, spec) := by
  cases h : find spec.openTag s <;> simp [findNextOpen, h]

theorem scan_open (h : find spec.openTag s = some i) :
    scan [spec] none s =
      (StreamTextChunk.append ⟨s.take i, []⟩
        (scan [spec] (some ⟨spec.tag, spec.closeTag, [], spec.closeTag_ne⟩)
          (s.drop (i + spec.openTag.length))).1,
        (scan [spec] (some ⟨spec.tag, spec.closeTag, [], spec.closeTag_ne⟩)
          (s.drop (i + spec.openTag.length))).2) := by
  have hopen : findNextOpen [spec] s = some (i, spec) := by
    rw [findNextOpen_singleton, h, map_some]
  conv_lhs => rw [scan]
  split
  · next j other hj =>
    obtain ⟨rfl, rfl⟩ := Prod.mk.inj (Option.some.inj (hopen.symm.trans hj))
    rfl
  · next hnone => exact nomatch hopen.symm.trans hnone

theorem scan_outside (h : find spec.openTag s = none) :
    scan [spec] none s =
      (⟨s.take (s.length - overlap s spec.openTag), []⟩, none,
        s.drop (s.length - overlap s spec.openTag)) := by
  have hopen : findNextOpen [spec] s = none := by rw [findNextOpen_singleton, h, map_none]
  rw [scan]
  split
  · next j other hj => exact nomatch hopen.symm.trans hj
  · rfl

end OneTag

theorem scan_append_inside (spec : InlineTagSpec T) {active : ActiveTag T} {s : Text}
    (h : find active.close s = none) (t : Text) :
    scan [spec] (some active) (s ++ t) =
      scan [spec] (some (active.pushContent (s.take (s.length - overlap s active.close))))
        (s.drop (s.length - overlap s active.close) ++ t) := by
  have hle : s.length - overlap s active.close ≤ s.length := Nat.sub_le _ _
  have hfind := find_append_of_none (t := t) h
  cases hkept : find active.close (s.drop (s.length - overlap s active.close) ++ t) with
  | some j =>
    rw [hkept, map_some] at hfind
    rw [scan_close active hfind, scan_close (active.pushContent _) hkept, take_add_append hle,
      Nat.add_right_comm, drop_add_append hle, ← append_assoc]
    rfl
  | none =>
    rw [hkept, map_none] at hfind
    rw [scan_inside active hfind, scan_inside (active.pushContent _) hkept,
      length_append_sub_overlap, take_add_append hle, drop_add_append hle,
      ActiveTag.pushContent, ← append_assoc]
    rfl

theorem scan_append_outside {spec : InlineTagSpec T} {s : Text}
    (h : find spec.openTag s = none) (t : Text) :
    scan [spec] none (s ++ t) =
      (StreamTextChunk.append ⟨s.take (s.length - overlap s spec.openTag), []⟩
          (scan [spec] none (s.drop (s.length - overlap s spec.openTag) ++ t)).1,
        (scan [spec] none (s.drop (s.length - overlap s spec.openTag) ++ t)).2) := by
  have hle : s.length - overlap s spec.openTag ≤ s.length := Nat.sub_le _ _
  have hfind := find_append_of_none (t := t) h
  cases hkept : find spec.openTag (s.drop (s.length - overlap s spec.openTag) ++ t) with
  | some j =>
    rw [hkept, map_some] at hfind
    rw [scan_open hfind, scan_open hkept, take_add_append hle, Nat.add_right_comm,
      drop_add_append hle, ← StreamTextChunk.append_assoc]
    rfl
  | none =>
    rw [hkept, map_none] at hfind
    rw [scan_outside hfind, scan_outside hkept, length_append_sub_overlap, take_add_append hle,
      drop_add_append hle]
    rfl

theorem scan_append (spec : InlineTagSpec T) (active : Option (ActiveTag T)) (s t : Text) :
    scan [spec] active (s ++ t) =
      ((scan [spec] active s).1.append
          (scan [spec] (scan [spec] active s).2.1 ((scan [spec] active s).2.2 ++ t)).1,
        (scan [spec] (scan [spec] active s).2.1 ((scan [spec] active s).2.2 ++ t)).2) := by
  induction hlength : s.length using Nat.strongRecOn generalizing s active with
  | _ n ih =>
    cases active with
    | some active =>
      cases h : find active.close s with
      | some i =>
        have hbound := length_le_of_find h active.close_ne
        have hpos := length_pos_iff.mpr active.close_ne
        have hrest := ih _ (by rw [length_drop]; omega) none (s.drop (i + active.close.length)) rfl
        rw [scan_close active (find_append h active.close_ne), scan_close active h,
          drop_append_of_le_length hbound, take_append_of_le_length (by omega), hrest]
        simp only [StreamTextChunk.append_assoc]
      | none => rw [scan_append_inside spec h, scan_inside active h, StreamTextChunk.empty_append]
    | none =>
      cases h : find spec.openTag s with
      | some i =>
        have hbound := length_le_of_find h spec.openTag_ne
        have hpos := length_pos_iff.mpr spec.openTag_ne
        have hrest := ih _ (by rw [length_drop]; omega)
          (some ⟨spec.tag, spec.closeTag, [], spec.closeTag_ne⟩)
          (s.drop (i + spec.openTag.length)) rfl
        rw [scan_open (find_append h spec.openTag_ne), scan_open h,
          drop_append_of_le_length hbound, take_append_of_le_length (by omega), hrest]
        simp only [StreamTextChunk.append_assoc]
      | none => rw [scan_append_outside h, scan_outside h]

theorem pushStr_append {self : InlineHiddenTagParser T} {spec : InlineTagSpec T}
    (hspecs : self.specs = [spec]) (a b : Text) :
    self.pushStr (a ++ b) =
      ((self.pushStr a).1.append ((self.pushStr a).2.pushStr b).1,
        ((self.pushStr a).2.pushStr b).2) := by
  simp only [pushStr, hspecs, ← append_assoc, scan_append spec self.active _ b]

end InlineHiddenTagParser

inductive CitationTag where
  | citation
  deriving DecidableEq, Repr

def citationOpen : Text := "<oai-mem-citation>".toList

def citationClose : Text := "</oai-mem-citation>".toList

def citationSpec : InlineTagSpec CitationTag :=
  ⟨.citation, citationOpen, citationClose, by decide, by decide⟩

theorem citationSpecs_ne_nil : [citationSpec] ≠ [] := cons_ne_nil _ _

structure CitationStreamParser where
  inner : InlineHiddenTagParser CitationTag
  specs_eq : inner.specs = [citationSpec]

namespace CitationStreamParser

def new : CitationStreamParser := ⟨.new [citationSpec] citationSpecs_ne_nil, rfl⟩

def contents (chunk : StreamTextChunk (ExtractedInlineTag CitationTag)) : StreamTextChunk Text :=
  ⟨chunk.visibleText, chunk.extracted.map ExtractedInlineTag.content⟩

def pushStr (self : CitationStreamParser) (chunk : Text) :
    StreamTextChunk Text × CitationStreamParser :=
  (contents (self.inner.pushStr chunk).1, ⟨(self.inner.pushStr chunk).2, self.specs_eq⟩)

def finish (self : CitationStreamParser) : StreamTextChunk Text × CitationStreamParser :=
  (contents self.inner.finish.1, ⟨self.inner.finish.2, by
    rw [InlineHiddenTagParser.finish]
    split <;> exact self.specs_eq⟩)

theorem contents_append (a b : StreamTextChunk (ExtractedInlineTag CitationTag)) :
    contents (a.append b) = (contents a).append (contents b) := by
  simp [contents, StreamTextChunk.append]

end CitationStreamParser

def citationStreamParser : StreamTextParser CitationStreamParser Text :=
  ⟨CitationStreamParser.pushStr, CitationStreamParser.finish⟩

open InlineHiddenTagParser

theorem citationStreamParser_additive : citationStreamParser.Additive := by
  intro self a b
  simp only [citationStreamParser, CitationStreamParser.pushStr,
    pushStr_append self.specs_eq, CitationStreamParser.contents_append]

theorem citationStreamParser_push_nil : citationStreamParser.pushStr .new [] = (.empty, .new) := by
  have hfind : find citationSpec.openTag ([] : Text) = none := by decide
  have hscan : scan [citationSpec] none [] = (.empty, none, []) := by
    rw [scan_outside hfind]
    rfl
  simp only [citationStreamParser, CitationStreamParser.pushStr, CitationStreamParser.new,
    new, pushStr, append_nil, hscan]
  rfl

theorem citations_chunkIndependent : citationStreamParser.ChunkIndependent .new :=
  citationStreamParser_additive.chunkIndependent citationStreamParser_push_nil

end Codex.StreamParser

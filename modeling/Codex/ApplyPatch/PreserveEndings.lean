import Codex.ApplyPatch.ParsedChunks
import Codex.ApplyPatch.Replacements

/-! In the mode `PreserveLineEndings` a chunk is replaced around its context lines, which stay in
the file as they are. -/

namespace Codex.ApplyPatch
open Codex.Lib Codex.Lib.Splice List

namespace SourceFile

theorem flatMap_parseLines (line rest : Text) :
    (parseLines line rest).flatMap
        (fun line => line.text ++ (line.ending.map LineEnding.asStr).getD []) = line ++ rest := by
  induction line, rest using parseLines.induct with
  | case1 => simp [parseLines]
  | case2 line hne => simp [parseLines, hne]
  | case3 line rest ih => simp [parseLines, ih, LineEnding.asStr]
  | case4 line rest hnext ih => simp [parseLines, ih, LineEnding.asStr]
  | case5 line rest ih => simp [parseLines, ih, LineEnding.asStr]
  | case6 line c rest h1 h2 h3 ih => simp [parseLines, ih]

theorem intoContents_parse (text : Text) : (parse text).intoContents = text :=
  flatMap_parseLines [] text

def insertion (preferred : LineEnding) (r : Replacement) : Edit SourceLine :=
  (r.1, r.2.1, r.2.2.map fun text => ⟨text, some preferred⟩)

def endedLines (self : SourceFile) : List SourceLine :=
  self.lines.map fun line => ⟨line.text, some (line.ending.getD self.preferredEnding)⟩

theorem replaceFrom_eq_splice {preferred : LineEnding} {replacements : List Replacement}
    {index : Nat} (source : List SourceLine) (hsep : Separate replacements)
    (hindex : ∀ r ∈ replacements, index ≤ r.1) :
    replaceFrom preferred replacements source index =
      some (splice index (replacements.map (insertion preferred)) source) := by
  induction replacements generalizing index source with
  | nil => rfl
  | cons r replacements ih =>
    obtain ⟨hfirst, hrest⟩ := pairwise_cons.mp hsep
    have hstart := hindex r mem_cons_self
    have hdrop : r.1 - index + r.2.1 = stop r - index := by
      rw [stop]
      omega
    have hlater := ih ((source.drop (r.1 - index)).drop r.2.1) hrest hfirst
    rw [replaceFrom, if_neg (not_lt.mpr hstart)]
    rw [← stop, hlater, drop_drop, hdrop]
    rfl

theorem applyReplacements_eq_splice {self : SourceFile} {replacements : List Replacement}
    (hsep : Separate replacements) :
    self.applyReplacements replacements =
      some ⟨splice 0 (replacements.map (insertion self.preferredEnding)) self.endedLines,
        self.preferredEnding⟩ := by
  rw [applyReplacements, replaceFrom_eq_splice _ hsep fun _ _ => Nat.zero_le _, Option.map_some,
    splice_map, map_map]
  simp only [insertion, endedLines, map_map, Function.comp_def, Option.getD_some]
  rfl

end SourceFile

section Regions
variable {start patternLen oldStart newStart : Nat} {newSlice : List Text}

theorem remaining_spec (hold : oldStart ≤ patternLen) :
    let regions := contextReplacements.remaining start patternLen newSlice oldStart newStart
    (∀ r ∈ regions, start + oldStart ≤ r.1 ∧ stop r ≤ start + patternLen) ∧ Separate regions ∧
      ∀ i, oldStart ≤ i → i < patternLen → Covered regions (start + i) := by
  have hstop : start + oldStart + (patternLen - oldStart) = start + patternLen := by omega
  intro regions
  unfold regions contextReplacements.remaining
  split
  · refine ⟨fun r hr => ?_, pairwise_singleton _ _, fun i hle hlt => ?_⟩
    · rw [mem_singleton.mp hr, stop, hstop]
      exact ⟨le_rfl, le_rfl⟩
    · rw [covered_singleton, stop, hstop]
      omega
  · next hnone =>
    refine ⟨fun r hr => absurd hr not_mem_nil, List.Pairwise.nil, fun i hle hlt => ?_⟩
    omega

theorem contextReplacements_cons {contexts : List (Nat × Nat)} {oldContext newContext : Nat}
    {regions : List Replacement} (hgo : ¬(patternLen ≤ oldContext ∨ newSlice.length ≤ newContext))
    (hhere : oldStart ≤ oldContext ∧ newStart ≤ newContext)
    (h : contextReplacements start patternLen newSlice ((oldContext, newContext) :: contexts)
      oldStart newStart = .ok regions) :
    ∃ before later, contextReplacements start patternLen newSlice contexts (oldContext + 1)
        (newContext + 1) = .ok later ∧ regions = before ++ later ∧ Separate before ∧
      ∀ r ∈ before, r.1 = start + oldStart ∧ stop r = start + oldContext := by
  rw [contextReplacements, if_neg hgo, if_neg (by omega)] at h
  obtain ⟨later, hlater, h⟩ := exists_of_bind_eq_ok h
  split at h
  · cases h
    refine ⟨[_], later, hlater, rfl, pairwise_singleton _ _, fun r hr => ?_⟩
    rw [mem_singleton.mp hr, stop]
    exact ⟨rfl, by simp only; omega⟩
  · cases h
    exact ⟨[], regions, hlater, rfl, List.Pairwise.nil, fun r hr => absurd hr not_mem_nil⟩

/-- The regions of a chunk lie in the match, apart from each other. A context line of the match is
in one of them just if the new lines that are left do not have it. -/
theorem contextReplacements_spec {contexts : List (Nat × Nat)} {regions : List Replacement}
    (hincreasing : contexts.Pairwise fun a b => a.1 < b.1 ∧ a.2 < b.2)
    (hfrom : ∀ c ∈ contexts, oldStart ≤ c.1 ∧ newStart ≤ c.2) (hold : oldStart ≤ patternLen)
    (h : contextReplacements start patternLen newSlice contexts oldStart newStart = .ok regions) :
    (∀ r ∈ regions, start + oldStart ≤ r.1 ∧ stop r ≤ start + patternLen) ∧ Separate regions ∧
      ∀ c ∈ contexts, c.1 < patternLen →
        (Covered regions (start + c.1) ↔ newSlice.length ≤ c.2) := by
  induction contexts generalizing oldStart newStart regions with
  | nil =>
    cases h
    obtain ⟨hinside, hseparate, -⟩ := remaining_spec hold
    exact ⟨hinside, hseparate, fun c hc => absurd hc not_mem_nil⟩
  | cons context contexts ih =>
    obtain ⟨oldContext, newContext⟩ := context
    obtain ⟨hnext, hincreasing⟩ := pairwise_cons.mp hincreasing
    have hhere := hfrom _ mem_cons_self
    by_cases hbreak : patternLen ≤ oldContext ∨ newSlice.length ≤ newContext
    · rw [contextReplacements, if_pos hbreak] at h
      cases h
      obtain ⟨hinside, hseparate, hcovered⟩ := remaining_spec hold
      refine ⟨hinside, hseparate, fun c hc hlt => iff_of_true ?_ ?_⟩
      · exact hcovered c.1 (hfrom c hc).1 hlt
      · rcases mem_cons.mp hc with rfl | hc
        · exact hbreak.resolve_left (not_le.mpr hlt)
        · have := hnext c hc
          omega
    · simp only at hhere
      obtain ⟨before, later, hlater, rfl, hbefore, hregion⟩ :=
        contextReplacements_cons hbreak hhere h
      obtain ⟨hinside, hseparate, hcovered⟩ := ih hincreasing (fun c hc => hnext c hc) (by omega)
        hlater
      have hstops : ∀ r ∈ before, stop r ≤ start + oldContext := fun r hr => (hregion r hr).2.le
      have hstarts : ∀ r ∈ later, start + (oldContext + 1) ≤ r.1 := fun r hr => (hinside r hr).1
      refine ⟨fun r hr => ?_, pairwise_append.mpr ⟨hbefore, hseparate, fun a ha b hb => ?_⟩,
        fun c hc hlt => ?_⟩
      · rcases mem_append.mp hr with hr | hr
        · have := hregion r hr
          omega
        · have := hinside r hr
          omega
      · have := hstops a ha
        have := hstarts b hb
        omega
      · rw [covered_append]
        rcases mem_cons.mp hc with rfl | hc
        · have hnotBefore := not_covered_of_le hstops (le_refl (start + oldContext))
          have hnotLater := not_covered_of_lt hstarts (Nat.lt_succ_self (start + oldContext))
          refine iff_of_false (not_or.mpr ⟨hnotBefore, hnotLater⟩) ?_
          omega
        · have hafter := hnext c hc
          have hnotBefore : ¬ Covered before (start + c.1) := not_covered_of_le hstops (by omega)
          rw [or_iff_right hnotBefore]
          exact hcovered c hc hlt

end Regions

structure LocatedChunk where
  chunk : UpdateFileChunk
  start : Nat
  pattern : List Text
  newSlice : List Text
  deriving DecidableEq, Repr

namespace LocatedChunk

def Matches (self : LocatedChunk) (i : Nat) : Prop :=
  self.start ≤ i ∧ i < self.start + self.pattern.length

/-- The chunk is found without its empty last old line only, and its last new line is an empty
context line other than that one. -/
def DropsContext (self : LocatedChunk) : Prop :=
  self.pattern ≠ self.chunk.oldLines ∧ lastIsEmpty self.chunk.newLines = true ∧
    ∃ c ∈ self.chunk.contextLineIndices,
      c.1 + 1 < self.chunk.oldLines.length ∧ c.2 + 1 = self.chunk.newLines.length

end LocatedChunk

def locateChunks (lines : List Text) (path : Text) :
    List UpdateFileChunk → Nat → Except UpdateError (List LocatedChunk)
  | [], _ => .ok []
  | chunk :: rest, lineIndex => do
    let cursor ← seekContext lines path .preserveLineEndings lineIndex chunk.changeContext
    if chunk.oldLines = [] then
      let later ← locateChunks lines path rest cursor
      .ok (⟨chunk, lines.length, [], chunk.newLines⟩ :: later)
    else
      match seekChunk lines chunk cursor .preserveLineEndings with
      | none => .error (.computeReplacements
          ("Failed to find expected lines in ".toList ++ path ++ ":\n".toList ++
            List.intercalate ['\n'] chunk.oldLines))
      | some (start, pattern, newSlice) =>
        let later ← locateChunks lines path rest (start + pattern.length)
        .ok (⟨chunk, start, pattern, newSlice⟩ :: later)

theorem seekChunk_slices {lines pattern newSlice : List Text} {chunk : UpdateFileChunk}
    {lineIndex start : Nat} {mode : ApplyPatchFileUpdateMode}
    (h : seekChunk lines chunk lineIndex mode = some (start, pattern, newSlice)) :
    pattern = chunk.oldLines ∧ newSlice = chunk.newLines ∨
      lastIsEmpty chunk.oldLines ∧ pattern = chunk.oldLines.dropLast ∧
        newSlice =
          if lastIsEmpty chunk.newLines then chunk.newLines.dropLast else chunk.newLines := by
  unfold seekChunk at h
  split at h
  · cases h
    exact Or.inl ⟨rfl, rfl⟩
  · split at h
    · next hempty =>
      obtain ⟨_, _, heq⟩ := Option.map_eq_some_iff.mp h
      cases heq
      exact Or.inr ⟨hempty, rfl, rfl⟩
    · cases h

theorem dropsContext_iff {lines pattern newSlice : List Text} {chunk : UpdateFileChunk}
    {lineIndex start : Nat} (haligned : chunk.Aligned)
    (h : seekChunk lines chunk lineIndex .preserveLineEndings = some (start, pattern, newSlice)) :
    (LocatedChunk.mk chunk start pattern newSlice).DropsContext ↔
      ∃ c ∈ chunk.contextLineIndices, c.1 < pattern.length ∧ newSlice.length ≤ c.2 := by
  unfold LocatedChunk.DropsContext
  rcases seekChunk_slices h with ⟨rfl, rfl⟩ | ⟨hold, rfl, rfl⟩
  · refine iff_of_false (fun hdrops => hdrops.1 rfl) ?_
    rintro ⟨c, hc, -, hle⟩
    exact absurd (haligned.inside c hc).2 (not_lt.mpr hle)
  · have hne : chunk.oldLines ≠ [] := by
      intro hnil
      rw [hnil] at hold
      cases hold
    have hshort : chunk.oldLines.dropLast ≠ chunk.oldLines := by
      intro heq
      have hlen := congrArg List.length heq
      have hpos := length_pos_iff.mpr hne
      rw [length_dropLast] at hlen
      omega
    simp only [ne_eq, hshort, not_false_eq_true, true_and, length_dropLast]
    by_cases hnew : lastIsEmpty chunk.newLines
    · simp only [hnew, true_and, if_true, length_dropLast]
      refine exists_congr fun c => and_congr_right fun hc => ?_
      have := haligned.inside c hc
      omega
    · simp only [hnew, false_and, false_iff, Bool.false_eq_true, if_false]
      rintro ⟨c, hc, -, hle⟩
      exact absurd (haligned.inside c hc).2 (not_lt.mpr hle)

structure Pushed (lines : List Text) (lineIndex : Nat) (found : List LocatedChunk)
    (pushed : List Replacement) : Prop where
  inside : ∀ r ∈ pushed, lineIndex ≤ r.1 ∧ stop r ≤ lines.length
  apart : pushed.Pairwise Apart
  after : ∀ m ∈ found, lineIndex ≤ m.start
  matched : ∀ i, Covered pushed i → ∃ m ∈ found, m.Matches i
  contexts : ∀ m ∈ found, (∃ c ∈ m.chunk.contextLineIndices,
    c.1 < m.pattern.length ∧ Covered pushed (m.start + c.1)) ↔ m.DropsContext

namespace Pushed
variable {lines : List Text} {lineIndex cursor : Nat} {found : List LocatedChunk}
  {pushed : List Replacement} {chunk : UpdateFileChunk}

theorem insertion (h : Pushed lines cursor found pushed) (hold : chunk.oldLines = [])
    (hforward : lineIndex ≤ cursor) (hcursor : cursor ≤ lines.length) :
    Pushed lines lineIndex (⟨chunk, lines.length, [], chunk.newLines⟩ :: found)
      ((lines.length, 0, chunk.newLines) :: pushed) := by
  have hcovered : ∀ i, Covered ((lines.length, 0, chunk.newLines) :: pushed) i ↔
      Covered pushed i := by
    intro i
    have hnone : ¬ Covered [((lines.length, 0, chunk.newLines) : Replacement)] i := by
      rw [covered_singleton, stop]
      simp only
      omega
    rw [← singleton_append, covered_append, or_iff_right hnone]
  refine ⟨fun r hr => ?_, pairwise_cons.mpr ⟨fun r hr => ?_, h.apart⟩, fun m hm => ?_,
    fun i hi => ?_, fun m hm => ?_⟩
  · rcases mem_cons.mp hr with rfl | hr
    · exact ⟨hforward.trans hcursor, le_rfl⟩
    · exact ⟨hforward.trans (h.inside r hr).1, (h.inside r hr).2⟩
  · exact ⟨id, fun _ => (h.inside r hr).2⟩
  · rcases mem_cons.mp hm with rfl | hm
    · exact hforward.trans hcursor
    · exact hforward.trans (h.after m hm)
  · obtain ⟨m, hm, hi⟩ := h.matched i ((hcovered i).mp hi)
    exact ⟨m, mem_cons_of_mem _ hm, hi⟩
  · simp only [hcovered]
    rcases mem_cons.mp hm with rfl | hm
    · refine iff_of_false ?_ ?_
      · rintro ⟨c, -, hlt, -⟩
        exact absurd hlt (Nat.not_lt_zero _)
      · rintro ⟨-, -, c, -, hlt, -⟩
        rw [hold] at hlt
        exact absurd hlt (Nat.not_lt_zero _)
    · exact h.contexts m hm

theorem regions {start : Nat} {pattern newSlice : List Text} {regions : List Replacement}
    (h : Pushed lines (start + pattern.length) found pushed) (haligned : chunk.Aligned)
    (hforward : lineIndex ≤ cursor) (hcursor : cursor ≤ lines.length)
    (hfound : seekChunk lines chunk cursor .preserveLineEndings = some (start, pattern, newSlice))
    (hregions : contextReplacements start pattern.length newSlice chunk.contextLineIndices 0 0 =
      .ok regions) :
    Pushed lines lineIndex (⟨chunk, start, pattern, newSlice⟩ :: found) (regions ++ pushed) := by
  obtain ⟨hend, -, hfrom⟩ := seekChunk_bounds hcursor hfound
  have hstart : lineIndex ≤ start := hforward.trans (hfrom (Or.inr (Or.inr rfl)))
  obtain ⟨hinside, hseparate, hcontexts⟩ := contextReplacements_spec haligned.increasing
    (fun _ _ => ⟨Nat.zero_le _, Nat.zero_le _⟩) (Nat.zero_le _) hregions
  have hlater : ∀ r ∈ pushed, start + pattern.length ≤ r.1 := fun r hr => (h.inside r hr).1
  have hstops : ∀ r ∈ regions, stop r ≤ start + pattern.length := fun r hr => (hinside r hr).2
  refine ⟨fun r hr => ?_, pairwise_append.mpr ⟨?_, h.apart, fun a ha b hb => ?_⟩,
    fun m hm => ?_, fun i hi => ?_, fun m hm => ?_⟩
  · rcases mem_append.mp hr with hr | hr
    · have := hinside r hr
      omega
    · have := h.inside r hr
      omega
  · exact hseparate.imp fun {a b} hab => (apart_iff_of_le ((start_le_stop a).trans hab)).mpr hab
  · have hab := (hstops a ha).trans (hlater b hb)
    exact (apart_iff_of_le ((start_le_stop a).trans hab)).mpr hab
  · rcases mem_cons.mp hm with rfl | hm
    · exact hstart
    · have := h.after m hm
      omega
  · rcases covered_append.mp hi with ⟨r, hr, hle, hlt⟩ | hi
    · have := hinside r hr
      exact ⟨_, mem_cons_self, by simp only; omega, by simp only; omega⟩
    · obtain ⟨m, hm, hi⟩ := h.matched i hi
      exact ⟨m, mem_cons_of_mem _ hm, hi⟩
  · rcases mem_cons.mp hm with rfl | hm
    · rw [dropsContext_iff haligned hfound]
      refine exists_congr fun c => and_congr_right fun hc => and_congr_right fun hlt => ?_
      have hnotLater : ¬ Covered pushed (start + c.1) :=
        not_covered_of_lt hlater (Nat.add_lt_add_left hlt start)
      rw [covered_append, or_iff_left hnotLater]
      exact hcontexts c hc hlt
    · rw [← h.contexts m hm]
      refine exists_congr fun c => and_congr_right fun _ => and_congr_right fun _ => ?_
      have hnotHere : ¬ Covered regions (m.start + c.1) :=
        not_covered_of_le hstops ((h.after m hm).trans (Nat.le_add_right _ _))
      rw [covered_append, or_iff_right hnotHere]

end Pushed

theorem pushed_of_collectReplacements {lines : List Text} {path : Text}
    {chunks : List UpdateFileChunk} {lineIndex : Nat} {pushed : List Replacement}
    (haligned : ∀ chunk ∈ chunks, chunk.Aligned) (hindex : lineIndex ≤ lines.length)
    (h : collectReplacements lines path .preserveLineEndings chunks lineIndex = .ok pushed) :
    ∃ found, locateChunks lines path chunks lineIndex = .ok found ∧
      Pushed lines lineIndex found pushed := by
  induction chunks generalizing lineIndex pushed with
  | nil =>
    cases h
    refine ⟨[], rfl, ⟨nofun, List.Pairwise.nil, nofun, ?_, nofun⟩⟩
    rintro i ⟨r, hr, -⟩
    cases hr
  | cons chunk chunks ih =>
    obtain ⟨hchunk, hchunks⟩ := forall_mem_cons.mp haligned
    obtain ⟨⟨here, next⟩, hhere, h⟩ := exists_of_bind_eq_ok h
    obtain ⟨later, hlater, h⟩ := exists_of_bind_eq_ok h
    cases h
    obtain ⟨cursor, hcursor, hhere⟩ := exists_of_bind_eq_ok hhere
    obtain ⟨hforward, hinside⟩ := seekContext_bounds hindex hcursor
    rw [locateChunks, hcursor, ok_bind]
    split at hhere
    · next hold =>
      cases hhere
      obtain ⟨found, hfound, hpushed⟩ := ih hchunks hinside hlater
      rw [if_pos hold, hfound]
      exact ⟨_, rfl, hpushed.insertion hold hforward hinside⟩
    · next hold =>
      rw [if_neg hold]
      cases hseek : seekChunk lines chunk cursor .preserveLineEndings with
      | none =>
        rw [hseek] at hhere
        cases hhere
      | some located =>
        rw [hseek] at hhere
        obtain ⟨regions, hregions, hhere⟩ := exists_of_bind_eq_ok hhere
        cases hhere
        obtain ⟨found, hfound, hpushed⟩ := ih hchunks (seekChunk_bounds hinside hseek).1 hlater
        simp only [hfound, ok_bind]
        exact ⟨_, rfl, hpushed.regions hchunk hforward hinside hseek hregions⟩

/-- The update of a parsed file by a parsed patch: the replacements are in order and in the file,
the lines that they do not cover keep their text and ending, and the lines outside of the matches
are not covered. The context lines of the matches are not covered either, just if no chunk drops
one. -/
theorem preserving_update_keeps_context_iff {patch path pathText text : Text}
    {parsed : ApplyPatchArgs × Option Text} {movePath : Option Text}
    {chunks : List UpdateFileChunk} {replacements : List Replacement}
    (hparse : parsePatch patch = .ok parsed)
    (hhunk : Hunk.updateFile path movePath chunks ∈ parsed.1.hunks)
    (h : computeReplacements (SourceFile.parse text).lineTexts pathText chunks
      .preserveLineEndings = .ok replacements) :
    let file := SourceFile.parse text
    ∃ found, locateChunks file.lineTexts pathText chunks 0 = .ok found ∧
      ((Separate replacements ∧ (∀ r ∈ replacements, stop r ≤ file.lines.length) ∧
          file.applyReplacements replacements =
            some ⟨splice 0 (replacements.map (SourceFile.insertion file.preferredEnding))
              file.endedLines, file.preferredEnding⟩ ∧
          (∀ i, (∀ m ∈ found, ¬ m.Matches i) → ¬ Covered replacements i) ∧
          (∀ m ∈ found, ∀ c ∈ m.chunk.contextLineIndices, c.1 < m.pattern.length →
            ¬ Covered replacements (m.start + c.1)) ∧
          file.intoContents = text) ↔
        ∀ m ∈ found, ¬ m.DropsContext) := by
  intro file
  have haligned := aligned_of_parsePatch hparse _ hhunk
  obtain ⟨pushed, hpushed, rfl⟩ : ∃ pushed, collectReplacements file.lineTexts pathText
      .preserveLineEndings chunks 0 = .ok pushed ∧ pushed.insertionSort startLe = replacements := by
    unfold computeReplacements at h
    cases hcollect : collectReplacements file.lineTexts pathText .preserveLineEndings chunks 0 with
    | error e =>
      rw [hcollect] at h
      cases h
    | ok pushed =>
      rw [hcollect] at h
      cases h
      exact ⟨pushed, rfl, rfl⟩
  obtain ⟨found, hfound, hspec⟩ := pushed_of_collectReplacements haligned (Nat.zero_le _) hpushed
  have hmem : ∀ r, r ∈ pushed.insertionSort startLe ↔ r ∈ pushed :=
    fun r => (perm_insertionSort startLe pushed).mem_iff
  have hcovered : ∀ i, Covered (pushed.insertionSort startLe) i ↔ Covered pushed i := by
    intro i
    simp only [Covered, hmem]
  have hsep : Separate (pushed.insertionSort startLe) :=
    (separate_insertionSort_iff pushed).mpr hspec.apart
  have hlength : file.lineTexts.length = file.lines.length := length_map _
  refine ⟨found, hfound, fun hall m hm hdrops => ?_, fun hkeep => ⟨hsep, fun r hr => ?_,
    SourceFile.applyReplacements_eq_splice hsep, fun i hnone hi => ?_, fun m hm c hc hlt hi => ?_,
    SourceFile.intoContents_parse text⟩⟩
  · obtain ⟨c, hc, hlt, hi⟩ := (hspec.contexts m hm).mpr hdrops
    exact hall.2.2.2.2.1 m hm c hc hlt ((hcovered _).mpr hi)
  · exact hlength ▸ (hspec.inside r ((hmem r).mp hr)).2
  · obtain ⟨m, hm, hmatches⟩ := hspec.matched i ((hcovered i).mp hi)
    exact hnone m hm hmatches
  · exact hkeep m hm ((hspec.contexts m hm).mp ⟨c, hc, hlt, (hcovered _).mp hi⟩)

theorem preserving_update_keeps_context_iff_mixed :
    let chunk : UpdateFileChunk :=
      ⟨none, [['a'], ['b'], ['c']], [['a'], ['x'], ['c']], [(0, 0), (2, 2)], false⟩
    let text : Text := "a\r\nb\nc".toList
    computeReplacements (SourceFile.parse text).lineTexts [] [chunk] .preserveLineEndings =
        .ok [(1, 1, [['x']])] ∧
      (SourceFile.parse text).applyReplacements [(1, 1, [['x']])] =
        some ⟨[⟨['a'], some .crLf⟩, ⟨['x'], some .crLf⟩, ⟨['c'], some .crLf⟩], .crLf⟩ := by
  intro chunk text
  let patch : Text :=
    "*** Begin Patch\n*** Update File: f\n@@\n a\n-b\n+x\n c\n*** End Patch".toList
  have hhunks : (parsePatch patch).toOption.map (·.1.hunks) =
      some [.updateFile ['f'] none [chunk]] := by
    decide +kernel
  obtain ⟨parsed, hparsed, hhunks⟩ := Option.map_eq_some_iff.mp hhunks
  have hhunk : Hunk.updateFile ['f'] none [chunk] ∈ parsed.1.hunks := hhunks ▸ mem_cons_self
  have hok : computeReplacements (SourceFile.parse text).lineTexts [] [chunk]
      .preserveLineEndings = .ok [(1, 1, [['x']])] := by
    decide +kernel
  obtain ⟨found, hfound, hiff⟩ := preserving_update_keeps_context_iff
    (eq_ok_of_toOption hparsed) hhunk hok
  have hlocated : locateChunks (SourceFile.parse text).lineTexts [] [chunk] 0 =
      .ok [⟨chunk, 0, chunk.oldLines, chunk.newLines⟩] := by
    decide +kernel
  cases hfound
  have hkeep : ∀ m ∈ [LocatedChunk.mk chunk 0 chunk.oldLines chunk.newLines], ¬ m.DropsContext := by
    intro m hm hdrops
    rw [mem_singleton.mp hm] at hdrops
    exact hdrops.1 rfl
  exact ⟨hok, (hiff.mpr hkeep).2.2.1.trans (by decide +kernel)⟩

/-- The old lines are an empty context line and an empty line that is removed. The file has one of
the two, which is found as the context line, and it is removed. -/
theorem preserving_update_removes_context :
    let chunk : UpdateFileChunk := ⟨none, [[], []], [[]], [(0, 0)], false⟩
    let text : Text := "a\n\n".toList
    (parsePatch "*** Begin Patch\n*** Update File: f\n@@\n \n-\n*** End Patch".toList).toOption.map
        (·.1.hunks) = some [.updateFile ['f'] none [chunk]] ∧
      locateChunks (SourceFile.parse text).lineTexts [] [chunk] 0 = .ok [⟨chunk, 1, [[]], []⟩] ∧
      computeReplacements (SourceFile.parse text).lineTexts [] [chunk] .preserveLineEndings =
        .ok [(1, 1, [])] ∧
      newContents [] [chunk] .preserveLineEndings text = .ok "a\n".toList := by
  decide +kernel

end Codex.ApplyPatch

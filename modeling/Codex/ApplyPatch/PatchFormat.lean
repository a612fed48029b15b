import Codex.ApplyPatch.PatchLines

/-! Patches written with the markers that `apply-patch/src/parser.rs` documents, and what the parser
reads them to. -/

namespace Codex.ApplyPatch
open Codex.Lib List Text StreamingPatchParser UpdateFileChunk

inductive ChangeLine where
  | context (text : Text)
  | add (text : Text)
  | remove (text : Text)
  deriving DecidableEq, Repr

namespace ChangeLine

def text : ChangeLine → Text
  | context text | add text | remove text => text

def render : ChangeLine → Text
  | context text => ' ' :: text
  | add text => '+' :: text
  | remove text => '-' :: text

def oldLine? : ChangeLine → Option Text
  | context text | remove text => some text
  | add _ => none

def newLine? : ChangeLine → Option Text
  | context text | add text => some text
  | remove _ => none

/-- Where the context lines stand among the old and among the new lines. -/
def contextIndices (old new : Nat) : List ChangeLine → List (Nat × Nat)
  | [] => []
  | context _ :: lines => (old, new) :: contextIndices (old + 1) (new + 1) lines
  | add _ :: lines => contextIndices old (new + 1) lines
  | remove _ :: lines => contextIndices (old + 1) new lines

def pushTo (chunk : UpdateFileChunk) : ChangeLine → UpdateFileChunk
  | context text => chunk.pushContextLine text
  | add text => chunk.pushNewLine text
  | remove text => chunk.pushOldLine text

end ChangeLine

structure ChunkSource where
  changeContext : Option Text
  lines : List ChangeLine
  isEndOfFile : Bool
  deriving DecidableEq, Repr

namespace ChunkSource

def header (self : ChunkSource) : Text :=
  match self.changeContext with
  | none => emptyChangeContextMarker
  | some changeContext => changeContextMarker ++ changeContext

def render (self : ChunkSource) : List Text :=
  self.header :: self.lines.map ChangeLine.render ++ if self.isEndOfFile then [eofMarker] else []

def chunk (self : ChunkSource) : UpdateFileChunk where
  changeContext := self.changeContext
  oldLines := self.lines.filterMap ChangeLine.oldLine?
  newLines := self.lines.filterMap ChangeLine.newLine?
  contextLineIndices := ChangeLine.contextIndices 0 0 self.lines
  isEndOfFile := self.isEndOfFile

end ChunkSource

inductive HunkSource where
  | addFile (path : Text) (lines : List Text)
  | deleteFile (path : Text)
  | updateFile (path : Text) (movePath : Option Text) (chunks : List ChunkSource)
  deriving DecidableEq, Repr

namespace HunkSource

def render : HunkSource → List Text
  | addFile path lines => (addFileMarker ++ path) :: lines.map ('+' :: ·)
  | deleteFile path => [deleteFileMarker ++ path]
  | updateFile path movePath chunks =>
    (updateFileMarker ++ path) :: (movePath.map (moveToMarker ++ ·)).toList ++
      chunks.flatMap ChunkSource.render

def hunk : HunkSource → Hunk
  | addFile path lines => .addFile path (lines.flatMap (· ++ ['\n']))
  | deleteFile path => .deleteFile path
  | updateFile path movePath chunks => .updateFile path movePath (chunks.map ChunkSource.chunk)

end HunkSource

def renderPatch (hunks : List HunkSource) : Text :=
  (beginPatchMarker :: hunks.flatMap HunkSource.render ++ [endPatchMarker]).flatMap (· ++ ['\n'])

def IsLine (text : Text) : Prop := '\n' ∉ text ∧ text.getLast? ≠ some '\r'

instance : DecidablePred IsLine := fun text => inferInstanceAs (Decidable ('\n' ∉ text ∧ _))

def IsPath (path : Text) : Prop := path ≠ [] ∧ '\n' ∉ path ∧ Text.trim path = path

instance : DecidablePred IsPath := fun path => inferInstanceAs (Decidable (path ≠ [] ∧ _))

def ChunkSource.WellFormed (self : ChunkSource) : Prop :=
  self.lines ≠ [] ∧ (∀ line ∈ self.lines, IsLine line.text) ∧
    ∀ changeContext ∈ self.changeContext, IsLine changeContext ∧
      Text.trimEnd changeContext = changeContext

instance : DecidablePred ChunkSource.WellFormed :=
  fun self => inferInstanceAs (Decidable (self.lines ≠ [] ∧ _))

def HunkSource.WellFormed : HunkSource → Prop
  | addFile path lines => IsPath path ∧ ∀ line ∈ lines, IsLine line
  | deleteFile path => IsPath path
  | updateFile path movePath chunks =>
    IsPath path ∧ (∀ dest ∈ movePath, IsPath dest) ∧ chunks ≠ [] ∧
      ∀ chunk ∈ chunks, chunk.WellFormed

instance : DecidablePred HunkSource.WellFormed
  | .addFile path lines => inferInstanceAs (Decidable (IsPath path ∧ ∀ line ∈ lines, IsLine line))
  | .deleteFile path => inferInstanceAs (Decidable (IsPath path))
  | .updateFile path _ _ => inferInstanceAs (Decidable (IsPath path ∧ _ ∧ _))

def HunkSource.ContextsNonempty : HunkSource → Prop
  | updateFile _ _ chunks => ∀ chunk ∈ chunks, chunk.changeContext ≠ some []
  | _ => True

instance : DecidablePred HunkSource.ContextsNonempty
  | .addFile _ _ => inferInstanceAs (Decidable True)
  | .deleteFile _ => inferInstanceAs (Decidable True)
  | .updateFile _ _ chunks =>
    inferInstanceAs (Decidable (∀ chunk ∈ chunks, chunk.changeContext ≠ some []))

namespace UpdateFileChunk

/-- Pushing lines one by one appends the old and the new ones of them. -/
theorem foldl_pushTo (lines : List ChangeLine) (chunk : UpdateFileChunk) :
    lines.foldl ChangeLine.pushTo chunk =
      { chunk with
        oldLines := chunk.oldLines ++ lines.filterMap ChangeLine.oldLine?
        newLines := chunk.newLines ++ lines.filterMap ChangeLine.newLine?
        contextLineIndices := chunk.contextLineIndices ++
          ChangeLine.contextIndices chunk.oldLines.length chunk.newLines.length lines } := by
  induction lines generalizing chunk with
  | nil => simp [ChangeLine.contextIndices]
  | cons line lines ih =>
    rw [foldl_cons, ih]
    cases line <;> simp [ChangeLine.pushTo, pushContextLine, pushNewLine, pushOldLine,
      ChangeLine.oldLine?, ChangeLine.newLine?, ChangeLine.contextIndices, filterMap_cons]

theorem hasNoLines_pushTo (line : ChangeLine) (chunk : UpdateFileChunk) :
    (line.pushTo chunk).hasNoLines = false := by
  cases line <;> simp [ChangeLine.pushTo, hasNoLines, pushContextLine, pushNewLine, pushOldLine]

theorem hasNoLines_foldl_pushTo {lines : List ChangeLine} (hne : lines ≠ [])
    (chunk : UpdateFileChunk) : (lines.foldl ChangeLine.pushTo chunk).hasNoLines = false := by
  obtain ⟨before, line, rfl⟩ := eq_nil_or_concat lines |>.resolve_left hne
  rw [concat_eq_append, foldl_append]
  exact hasNoLines_pushTo line _

end UpdateFileChunk

open ChunkSource

theorem ChunkSource.foldl_pushTo_opened (source : ChunkSource) :
    source.lines.foldl ChangeLine.pushTo (.opened source.changeContext) =
      { source.chunk with isEndOfFile := false } := by
  simp [foldl_pushTo, chunk, opened]

theorem ChunkSource.hasNoLines_chunk {source : ChunkSource} (h : source.WellFormed) :
    source.chunk.hasNoLines = false := by
  have hsome := hasNoLines_foldl_pushTo h.1 (.opened source.changeContext)
  rw [foldl_pushTo_opened] at hsome
  exact hsome

theorem isChangeContext_of_head {text : Text} (h : text.head? ≠ some '@') :
    isChangeContext text = false := by
  have hempty : text ≠ emptyChangeContextMarker := by
    rintro rfl
    exact h (by decide)
  have hprefix : changeContextMarker.isPrefixOf text = false := by
    rw [Bool.eq_false_iff]
    intro hprefix
    obtain ⟨rest, rfl⟩ := List.isPrefixOf_iff_prefix.mp hprefix
    exact h rfl
  simp [isChangeContext, hempty, hprefix]

section ReadUpdateLine
variable {lineNumber : Nat} {movePath : Option Text} {chunks : List UpdateFileChunk}
  {chunk : UpdateFileChunk}

theorem readUpdateLine_changeLine (line : ChangeLine) (hopen : chunk.isEndOfFile = false) :
    readUpdateLine lineNumber movePath (chunks ++ [chunk]) line.render =
      .ok (movePath, chunks ++ [line.pushTo chunk]) := by
  have hstar : (trimEnd line.render).head? ≠ some '*' :=
    head?_trimEnd_ne (by cases line <;> simp [ChangeLine.render])
  have hat : (trimEnd line.render).head? ≠ some '@' :=
    head?_trimEnd_ne (by cases line <;> simp [ChangeLine.render])
  have hmove : (trimEnd line.render).dropPrefix? moveToMarker = none :=
    dropPrefix?_of_head (by decide) hstar
  have hcontext : (trimEnd line.render).dropPrefix? changeContextMarker = none :=
    dropPrefix?_of_head (by decide) hat
  have hempty : trimEnd line.render ≠ emptyChangeContextMarker := by
    intro heq
    exact hat (by rw [heq]; decide)
  have heof : trimEnd line.render ≠ eofMarker := by
    intro heq
    exact hstar (by rw [heq]; decide)
  simp only [readUpdateLine, getLast?_concat, Option.any_some, hopen, Bool.false_and,
    Bool.false_eq_true, if_false, hmove, ite_self, isChangeContext_of_head hat, if_neg hempty,
    hcontext, if_neg heof]
  cases line <;> simp [ChangeLine.render, ChangeLine.pushTo]

theorem head?_header (source : ChunkSource) : source.header.head? = some '@' := by
  unfold header
  split <;> rfl

theorem trimEnd_header {source : ChunkSource} (hsource : source.WellFormed)
    (hcontext : source.changeContext ≠ some []) :
    trimEnd source.header = source.header := by
  cases h : source.changeContext with
  | none =>
    simp only [header, h]
    decide
  | some context =>
    have hne : context ≠ [] := fun hnil => hcontext (by rw [h, hnil])
    simp only [header, h]
    exact trimEnd_append_of_ne (hsource.2.2 context h).2 hne

theorem readUpdateLine_header {source : ChunkSource} (hsource : source.WellFormed)
    (hcontext : source.changeContext ≠ some [])
    (hlines : chunks.getLast?.any hasNoLines = false) :
    readUpdateLine lineNumber movePath chunks source.header =
      .ok (movePath, chunks ++ [.opened source.changeContext]) := by
  have hhead := head?_header source
  have htrim := trimEnd_header hsource hcontext
  have hopens : isChangeContext source.header := by
    cases h : source.changeContext <;> simp [header, isChangeContext, h]
  have hne : source.header ≠ [] := by
    intro hnil
    rw [hnil] at hhead
    cases hhead
  have hmove : source.header.dropPrefix? moveToMarker = none :=
    dropPrefix?_of_head (c := '*') (by decide) (by rw [hhead]; decide)
  simp only [readUpdateLine, htrim, hopens, hne, hmove, hlines, Bool.not_true, Bool.and_false,
    Bool.false_eq_true, decide_false, if_false, ite_self]
  cases h : source.changeContext with
  | none => simp [header, h]
  | some context =>
    have hlonger : changeContextMarker ++ context ≠ emptyChangeContextMarker := by
      simp [changeContextMarker, emptyChangeContextMarker]
    simp [header, h, hlonger, dropPrefix?_append_of_beq]

theorem readUpdateLine_eof (hopen : chunk.isEndOfFile = false) (hlines : chunk.hasNoLines = false) :
    readUpdateLine lineNumber movePath (chunks ++ [chunk]) eofMarker =
      .ok (movePath, chunks ++ [chunk.endOfFile]) := by
  have htrim : trimEnd eofMarker = eofMarker := by decide
  have hcontext : eofMarker.dropPrefix? changeContextMarker = none := by decide
  have hopens : isChangeContext eofMarker = false := by decide
  have hempty : eofMarker ≠ emptyChangeContextMarker := by decide
  simp [readUpdateLine, htrim, hcontext, hopens, hempty, hopen, hlines]

theorem readUpdateLine_moveTo {path : Text} (hpath : IsPath path) :
    readUpdateLine lineNumber none [] (moveToMarker ++ path) = .ok (some path, []) := by
  have htrim : trimEnd (moveToMarker ++ path) = moveToMarker ++ path :=
    trimEnd_append_of_ne (trimEnd_of_trim hpath.2.2) hpath.1
  simp [readUpdateLine, htrim, dropPrefix?_append_of_beq]

end ReadUpdateLine

theorem stripCr_of_trimEnd {line : Text} (h : trimEnd line = line) : stripCr line = line :=
  stripCr_of_ne (getLast?_ne_of_trimEnd h (by decide))

theorem isLine_cons {c : Char} {text : Text} (hc : IsLine [c]) (h : IsLine text) :
    IsLine (c :: text) := by
  refine ⟨?_, ?_⟩
  · simpa [h.1] using hc.1
  · cases hlast : text.getLast? with
    | none => simpa [getLast?_cons, hlast] using hc.2
    | some last => simpa [getLast?_cons, hlast] using h.2

theorem isLine_render {line : ChangeLine} (h : IsLine line.text) : IsLine line.render := by
  cases line <;> exact isLine_cons (by decide) h

theorem isLine_of_trimEnd {line : Text} (hfeed : '\n' ∉ line) (h : trimEnd line = line) :
    IsLine line :=
  ⟨hfeed, getLast?_ne_of_trimEnd h (by decide)⟩

theorem stripCr_of_isLine {line : Text} (h : IsLine line) : stripCr line = line :=
  stripCr_of_ne h.2

namespace StreamingPatchParser

theorem processLine_update {self : StreamingPatchParser} {n : Nat} {hunks : List Hunk} {path : Text}
    {movePath : Option Text} {chunks : List UpdateFileChunk} {line : Text}
    (hmode : self.mode = .updateFile n)
    (hhunks : self.hunks = hunks ++ [.updateFile path movePath chunks])
    (hheader : header? (trimEnd line) = none) :
    self.processLine line =
      readUpdateLine self.lineNumber movePath chunks line >>= fun read =>
        .ok { self with
          hunks := hunks ++ [.updateFile path read.1 read.2], mode := .updateFile n } := by
  have hhandle : self.handleHunkHeadersAndEndPatch (trimEnd line) = .ok none := by
    simp [handleHunkHeadersAndEndPatch, hmode, hheader]
  simp only [processLine, hmode, orElse, hhandle, ok_bind, hhunks, getLast?_concat, dropLast_concat]

theorem processLine_addLine {self : StreamingPatchParser} {hunks : List Hunk}
    {path contents lineToAdd : Text} (hmode : self.mode = .addFile)
    (hhunks : self.hunks = hunks ++ [.addFile path contents]) :
    self.processLine ('+' :: lineToAdd) =
      .ok { self with hunks := hunks ++ [.addFile path (contents ++ lineToAdd ++ ['\n'])] } := by
  have hplus : (trim ('+' :: lineToAdd)).head? ≠ some '*' := by
    rw [trim_of_head rfl (by decide)]
    exact head?_trimEnd_ne (by simp)
  simp [processLine, hmode, orElse_of_head hplus, hhunks]

structure InUpdate (parser : StreamingPatchParser) (hunks : List Hunk) (path : Text)
    (movePath : Option Text) (chunks : List UpdateFileChunk) : Prop where
  hunks_eq : parser.hunks = hunks ++ [.updateFile path movePath chunks]
  mode_eq : ∃ hunkLineNumber, parser.mode = .updateFile hunkLineNumber
  environmentId_eq : parser.environmentId = none

section InUpdate
variable {self : StreamingPatchParser} {hunks : List Hunk} {path : Text}
  {movePath movePath' : Option Text} {chunks chunks' : List UpdateFileChunk}

theorem InUpdate.readLine (h : self.InUpdate hunks path movePath chunks) {line : Text}
    (hstrip : stripCr line = line) (hheader : header? (trimEnd line) = none)
    (hread : ∀ n, readUpdateLine n movePath chunks line = .ok (movePath', chunks')) :
    ∃ next, self.readLine line = .ok next ∧ next.InUpdate hunks path movePath' chunks' := by
  obtain ⟨n, hmode⟩ := h.mode_eq
  have hnext : self.nextLine.mode = .updateFile n := hmode
  have hhunks : self.nextLine.hunks = hunks ++ [.updateFile path movePath chunks] := h.hunks_eq
  have hother : self.readLine line = .ok
      { self.nextLine with
        hunks := hunks ++ [.updateFile path movePath' chunks'], mode := .updateFile n } := by
    rw [StreamingPatchParser.readLine, hstrip, processLine_update hnext hhunks hheader, hread]
    rfl
  exact ⟨_, hother, rfl, ⟨n, rfl⟩, h.environmentId_eq⟩

theorem InUpdate.changeLines {chunk : UpdateFileChunk} {lines : List ChangeLine}
    (h : self.InUpdate hunks path movePath (chunks ++ [chunk])) (hopen : chunk.isEndOfFile = false)
    (hlines : ∀ line ∈ lines, IsLine line.text) :
    ∃ next, (lines.map ChangeLine.render).foldlM StreamingPatchParser.readLine self = .ok next ∧
      next.InUpdate hunks path movePath (chunks ++ [lines.foldl ChangeLine.pushTo chunk]) := by
  induction lines generalizing self chunk with
  | nil => exact ⟨self, rfl, h⟩
  | cons line lines ih =>
    have hhead : (trimEnd line.render).head? ≠ some '*' :=
      head?_trimEnd_ne (by cases line <;> simp [ChangeLine.render])
    have hstrip := stripCr_of_isLine (isLine_render (hlines line mem_cons_self))
    obtain ⟨next, hnext, hin⟩ := h.readLine hstrip (header?_of_head hhead)
      fun _ => readUpdateLine_changeLine line hopen
    have hopen' : (line.pushTo chunk).isEndOfFile = false := by
      rw [← hopen]
      cases line <;> rfl
    obtain ⟨last, hlast, hdone⟩ :=
      ih hin hopen' fun other hother => hlines other (mem_cons_of_mem line hother)
    refine ⟨last, ?_, hdone⟩
    rw [map_cons, foldlM_cons, hnext, ok_bind, hlast]

theorem InUpdate.chunk {source : ChunkSource} (h : self.InUpdate hunks path movePath chunks)
    (hsource : source.WellFormed) (hcontext : source.changeContext ≠ some [])
    (hlines : chunks.getLast?.any hasNoLines = false) :
    ∃ next, source.render.foldlM StreamingPatchParser.readLine self = .ok next ∧
      next.InUpdate hunks path movePath (chunks ++ [source.chunk]) := by
  have htrim := trimEnd_header hsource hcontext
  have hhead : header? (trimEnd source.header) = none := by
    rw [htrim]
    exact header?_of_head (by rw [head?_header]; decide)
  obtain ⟨opened, hopened, hinOpened⟩ := h.readLine (stripCr_of_trimEnd htrim) hhead
    fun _ => readUpdateLine_header hsource hcontext hlines
  obtain ⟨filled, hfilled, hinFilled⟩ := hinOpened.changeLines rfl hsource.2.1
  rw [source.foldl_pushTo_opened] at hinFilled
  have hread : (source.header :: source.lines.map ChangeLine.render).foldlM
      StreamingPatchParser.readLine self = .ok filled := by
    rw [foldlM_cons, hopened, ok_bind, hfilled]
  rw [ChunkSource.render, foldlM_append_of_ok hread]
  cases heof : source.isEndOfFile with
  | false =>
    refine ⟨filled, rfl, ?_⟩
    rwa [← heof] at hinFilled
  | true =>
    have hstrip : stripCr eofMarker = eofMarker := by decide
    obtain ⟨next, hnext, hin⟩ := hinFilled.readLine hstrip (by decide)
      fun _ => readUpdateLine_eof rfl (hasNoLines_chunk hsource)
    refine ⟨next, ?_, ?_⟩
    · rw [if_pos rfl, foldlM_cons, hnext]
      rfl
    · rwa [endOfFile, ← heof] at hin

theorem InUpdate.allChunks {sources : List ChunkSource}
    (h : self.InUpdate hunks path movePath chunks)
    (hsources : ∀ source ∈ sources, source.WellFormed ∧ source.changeContext ≠ some [])
    (hlines : chunks.getLast?.any hasNoLines = false) :
    ∃ next,
      (sources.flatMap ChunkSource.render).foldlM StreamingPatchParser.readLine self = .ok next ∧
      next.InUpdate hunks path movePath (chunks ++ sources.map ChunkSource.chunk) := by
  induction sources generalizing self chunks with
  | nil => exact ⟨self, rfl, by simpa using h⟩
  | cons source sources ih =>
    obtain ⟨hsource, hcontext⟩ := hsources source mem_cons_self
    obtain ⟨next, hnext, hin⟩ := h.chunk hsource hcontext hlines
    obtain ⟨last, hlast, hdone⟩ :=
      ih hin (fun other hother => hsources other (mem_cons_of_mem source hother))
        (by simpa using ChunkSource.hasNoLines_chunk hsource)
    refine ⟨last, ?_, ?_⟩
    · rw [flatMap_cons, foldlM_append_of_ok hnext, hlast]
    · simpa using hdone

end InUpdate

theorem trim_marker {marker path : Text} (hmarker : marker.head? = some '*')
    (hpath : IsPath path) : trim (marker ++ path) = marker ++ path := by
  have hhead : (marker ++ path).head? = some '*' := by
    rw [head?_append, hmarker]
    rfl
  rw [trim_of_head hhead (by decide), trimEnd_append_of_ne (trimEnd_of_trim hpath.2.2) hpath.1]

theorem ne_endPatchMarker {line : Text} (h : line.dropPrefix? "*** End".toList = none) :
    line ≠ endPatchMarker := by
  rintro rfl
  exact absurd h (by decide)

theorem header?_addFile (path : Text) : header? (addFileMarker ++ path) = some (.addFile path) := by
  have hend : addFileMarker ++ path ≠ endPatchMarker := ne_endPatchMarker rfl
  simp [header?, hend, dropPrefix?_append_of_beq]

theorem header?_deleteFile (path : Text) :
    header? (deleteFileMarker ++ path) = some (.deleteFile path) := by
  have hend : deleteFileMarker ++ path ≠ endPatchMarker := ne_endPatchMarker rfl
  have hadd : (deleteFileMarker ++ path).dropPrefix? addFileMarker = none := rfl
  simp [header?, hend, hadd, dropPrefix?_append_of_beq]

theorem header?_updateFile (path : Text) :
    header? (updateFileMarker ++ path) = some (.updateFile path) := by
  have hend : updateFileMarker ++ path ≠ endPatchMarker := ne_endPatchMarker rfl
  have hadd : (updateFileMarker ++ path).dropPrefix? addFileMarker = none := rfl
  have hdelete : (updateFileMarker ++ path).dropPrefix? deleteFileMarker = none := rfl
  simp [header?, hend, hadd, hdelete, dropPrefix?_append_of_beq]

theorem header?_moveTo (path : Text) : header? (moveToMarker ++ path) = none := by
  have hend : moveToMarker ++ path ≠ endPatchMarker := ne_endPatchMarker rfl
  have hadd : (moveToMarker ++ path).dropPrefix? addFileMarker = none := rfl
  have hdelete : (moveToMarker ++ path).dropPrefix? deleteFileMarker = none := rfl
  have hupdate : (moveToMarker ++ path).dropPrefix? updateFileMarker = none := rfl
  simp [header?, hend, hadd, hdelete, hupdate]

structure Expecting (parser : StreamingPatchParser) (hunks : List Hunk) : Prop where
  hunks_eq : parser.hunks = hunks
  started : parser.mode ≠ .notStarted ∧ parser.mode ≠ .endedPatch
  environmentId_eq : parser.environmentId = none
  complete : ∀ line, parser.nextLine.ensureUpdateHunkIsNotEmpty line = .ok ()

section Expecting
variable {self : StreamingPatchParser} {hunks : List Hunk}

theorem InUpdate.expecting {path : Text} {movePath : Option Text} {chunks : List UpdateFileChunk}
    (h : self.InUpdate hunks path movePath chunks) (hne : chunks ≠ [])
    (hlines : chunks.getLast?.any hasNoLines = false) :
    self.Expecting (hunks ++ [.updateFile path movePath chunks]) := by
  obtain ⟨n, hmode⟩ := h.mode_eq
  refine ⟨h.hunks_eq, by simp [hmode], h.environmentId_eq, fun line => ?_⟩
  obtain ⟨before, last, rfl⟩ := eq_nil_or_concat chunks |>.resolve_left hne
  simp only [concat_eq_append, getLast?_concat, Option.any_some] at hlines
  simp [ensureUpdateHunkIsNotEmpty, nextLine, h.hunks_eq, hlines]

theorem Expecting.header (h : self.Expecting hunks) {line : Text} {header : Header}
    (htrim : trim line = line) (henv : line.dropPrefix? environmentIdMarker = none)
    (hheader : header? line = some header) :
    self.readLine line = .ok (self.nextLine.openHeader header) := by
  have hend := trimEnd_of_trim htrim
  have hhandle : self.nextLine.handleHunkHeadersAndEndPatch line =
      .ok (some (self.nextLine.openHeader header)) := by
    simp [handleHunkHeadersAndEndPatch, henv, hheader, h.complete]
    rfl
  have horElse : ∀ otherwise, self.nextLine.orElse line otherwise =
      .ok (self.nextLine.openHeader header) := by
    intro otherwise
    rw [orElse, hhandle]
    rfl
  rw [readLine, stripCr_of_trimEnd hend]
  unfold processLine
  simp only [htrim, hend]
  split
  · next hmode => exact absurd hmode h.started.1
  · exact horElse _
  · exact horElse _
  · exact horElse _
  · exact horElse _
  · next hmode => exact absurd hmode h.started.2

theorem foldlM_addLines {path contents : Text} {lines : List Text} (hmode : self.mode = .addFile)
    (hhunks : self.hunks = hunks ++ [.addFile path contents])
    (henv : self.environmentId = none) (hlines : ∀ line ∈ lines, IsLine line) :
    ∃ next, (lines.map ('+' :: ·)).foldlM readLine self = .ok next ∧ next.mode = .addFile ∧
      next.hunks = hunks ++ [.addFile path (contents ++ lines.flatMap (· ++ ['\n']))] ∧
      next.environmentId = none := by
  induction lines generalizing self contents with
  | nil => exact ⟨self, rfl, hmode, by simpa using hhunks, henv⟩
  | cons line lines ih =>
    have hstrip : stripCr ('+' :: line) = '+' :: line :=
      stripCr_of_isLine (isLine_cons (by decide) (hlines line mem_cons_self))
    have hread : self.readLine ('+' :: line) = .ok
        { self.nextLine with
          hunks := hunks ++ [.addFile path (contents ++ line ++ ['\n'])] } := by
      rw [readLine, hstrip]
      exact processLine_addLine hmode hhunks
    obtain ⟨next, hnext, hdone⟩ := @ih
      { self.nextLine with hunks := hunks ++ [.addFile path (contents ++ line ++ ['\n'])] }
      (contents ++ line ++ ['\n']) hmode rfl henv
      fun other hother => hlines other (mem_cons_of_mem line hother)
    refine ⟨next, by rw [map_cons, foldlM_cons, hread, ok_bind, hnext], ?_⟩
    simpa using hdone

section
variable (h : self.Expecting hunks)
include h

theorem Expecting.addFile {path : Text} (hpath : IsPath path) {lines : List Text}
    (hlines : ∀ line ∈ lines, IsLine line) :
    ∃ next, ((addFileMarker ++ path) :: lines.map ('+' :: ·)).foldlM readLine self = .ok next ∧
      next.Expecting (hunks ++ [.addFile path (lines.flatMap (· ++ ['\n']))]) := by
  have hread := h.header (trim_marker (by decide) hpath) (by rfl) (header?_addFile path)
  obtain ⟨next, hnext, hmode, hhunks, henv⟩ :=
    @foldlM_addLines (self.nextLine.openHeader (.addFile path)) hunks path [] lines rfl
      (by simp [openHeader, nextLine, h.hunks_eq]) h.environmentId_eq hlines
  refine ⟨next, by rw [foldlM_cons, hread, ok_bind, hnext], hhunks, by simp [hmode], henv,
    fun line => ?_⟩
  simp [ensureUpdateHunkIsNotEmpty, nextLine, hhunks]

theorem Expecting.updateFile {path : Text} (hpath : IsPath path) {movePath : Option Text}
    (hmove : ∀ dest ∈ movePath, IsPath dest) {sources : List ChunkSource} (hne : sources ≠ [])
    (hsources : ∀ source ∈ sources, source.WellFormed ∧ source.changeContext ≠ some []) :
    ∃ next, (HunkSource.updateFile path movePath sources).render.foldlM readLine self = .ok next ∧
      next.Expecting (hunks ++ [.updateFile path movePath (sources.map ChunkSource.chunk)]) := by
  have hread := h.header (trim_marker (by decide) hpath) (by rfl) (header?_updateFile path)
  have hin : (self.nextLine.openHeader (.updateFile path)).InUpdate hunks path none [] :=
    ⟨by simp [openHeader, nextLine, h.hunks_eq], ⟨_, rfl⟩, h.environmentId_eq⟩
  obtain ⟨moved, hmoved, hinMoved⟩ : ∃ moved,
      (movePath.map (moveToMarker ++ ·)).toList.foldlM readLine
        (self.nextLine.openHeader (.updateFile path)) = .ok moved ∧
      moved.InUpdate hunks path movePath [] := by
    cases movePath with
    | none => exact ⟨_, rfl, hin⟩
    | some dest =>
      have hdest := hmove dest rfl
      have htrim : trimEnd (moveToMarker ++ dest) = moveToMarker ++ dest :=
        trimEnd_of_trim (trim_marker (by decide) hdest)
      obtain ⟨moved, hmoved, hinMoved⟩ := hin.readLine (stripCr_of_trimEnd htrim)
        (by rw [htrim, header?_moveTo]) fun _ => readUpdateLine_moveTo hdest
      refine ⟨moved, ?_, hinMoved⟩
      rw [Option.map_some, Option.toList_some, foldlM_cons, hmoved]
      rfl
  obtain ⟨next, hnext, hdone⟩ := hinMoved.allChunks hsources rfl
  have hlast : (sources.map ChunkSource.chunk).getLast?.any hasNoLines =
      false := by
    obtain ⟨before, source, rfl⟩ := eq_nil_or_concat sources |>.resolve_left hne
    have hsource := (hsources source (by simp)).1
    simpa using ChunkSource.hasNoLines_chunk hsource
  refine ⟨next, ?_, hdone.expecting (by simpa using hne) hlast⟩
  have hheader : ((updateFileMarker ++ path) ::
      (movePath.map (moveToMarker ++ ·)).toList).foldlM readLine self = .ok moved := by
    rw [foldlM_cons, hread, ok_bind, hmoved]
  rw [HunkSource.render, foldlM_append_of_ok hheader, hnext]

theorem Expecting.deleteFile {path : Text} (hpath : IsPath path) :
    ∃ next, [deleteFileMarker ++ path].foldlM readLine self = .ok next ∧
      next.Expecting (hunks ++ [.deleteFile path]) := by
  have hread := h.header (trim_marker (by decide) hpath) (by rfl) (header?_deleteFile path)
  refine ⟨_, by rw [foldlM_cons, hread]; rfl, ?_⟩
  refine ⟨by simp [openHeader, nextLine, h.hunks_eq], by simp [openHeader], h.environmentId_eq,
    fun line => ?_⟩
  simp [ensureUpdateHunkIsNotEmpty, nextLine, openHeader]

theorem Expecting.hunk {source : HunkSource} (hsource : source.WellFormed)
    (hcontexts : source.ContextsNonempty) : ∃ next, source.render.foldlM readLine self = .ok next ∧
      next.Expecting (hunks ++ [source.hunk]) := by
  cases source with
  | addFile path lines => exact h.addFile hsource.1 hsource.2
  | deleteFile path => exact h.deleteFile hsource
  | updateFile path movePath chunks =>
    obtain ⟨hpath, hmove, hne, hchunks⟩ := hsource
    exact h.updateFile hpath hmove hne fun chunk hchunk =>
      ⟨hchunks chunk hchunk, hcontexts chunk hchunk⟩

theorem Expecting.allHunks {sources : List HunkSource}
    (hsources : ∀ source ∈ sources, source.WellFormed ∧ source.ContextsNonempty) :
    ∃ next, (sources.flatMap HunkSource.render).foldlM readLine self = .ok next ∧
      next.Expecting (hunks ++ sources.map HunkSource.hunk) := by
  induction sources generalizing self hunks with
  | nil => exact ⟨self, rfl, by simpa using h⟩
  | cons source sources ih =>
    obtain ⟨hsource, hcontexts⟩ := hsources source mem_cons_self
    obtain ⟨next, hnext, hexpecting⟩ := h.hunk hsource hcontexts
    obtain ⟨last, hlast, hdone⟩ := ih hexpecting fun other hother =>
      hsources other (mem_cons_of_mem source hother)
    refine ⟨last, ?_, by simpa using hdone⟩
    rw [flatMap_cons, foldlM_append_of_ok hnext, hlast]

end

end Expecting

end StreamingPatchParser

theorem isLine_marker {marker path : Text} (hmarker : marker.head? = some '*' ∧ '\n' ∉ marker)
    (hpath : IsPath path) : IsLine (marker ++ path) := by
  have htrim := trim_marker hmarker.1 hpath
  exact isLine_of_trimEnd (by simp [hmarker.2, hpath.2.1]) (trimEnd_of_trim htrim)

theorem ChunkSource.isLine_of_mem_render {source : ChunkSource} (h : source.WellFormed)
    {line : Text} (hline : line ∈ source.render) : IsLine line := by
  obtain ⟨-, hlines, hcontext⟩ := h
  rw [render, mem_append, mem_cons, mem_map] at hline
  rcases hline with (rfl | ⟨change, hchange, rfl⟩) | hline
  · unfold header
    split
    · decide
    · next context heq =>
      have htext : IsLine context := (hcontext context heq).1
      exact isLine_cons (by decide) (isLine_cons (by decide) (isLine_cons (by decide) htext))
  · exact isLine_render (hlines change hchange)
  · split at hline
    · rw [mem_singleton.mp hline]
      decide
    · cases hline

theorem HunkSource.isLine_of_mem_render {source : HunkSource} (h : source.WellFormed)
    {line : Text} (hline : line ∈ source.render) : IsLine line := by
  cases source with
  | addFile path lines =>
    rw [HunkSource.render, mem_cons, mem_map] at hline
    rcases hline with rfl | ⟨text, htext, rfl⟩
    · exact isLine_marker (by decide) h.1
    · exact isLine_cons (by decide) (h.2 text htext)
  | deleteFile path =>
    rw [mem_singleton.mp hline]
    exact isLine_marker (by decide) h
  | updateFile path movePath chunks =>
    obtain ⟨hpath, hmove, -, hchunks⟩ := h
    rw [HunkSource.render, mem_append, mem_cons, mem_flatMap] at hline
    rcases hline with (rfl | hmoved) | ⟨chunk, hchunk, hline⟩
    · exact isLine_marker (by decide) hpath
    · obtain ⟨dest, hdest, rfl⟩ : ∃ dest ∈ movePath, moveToMarker ++ dest = line := by
        simpa using hmoved
      exact isLine_marker (by decide) (hmove dest hdest)
    · exact ChunkSource.isLine_of_mem_render (hchunks chunk hchunk) hline

theorem trim_renderPatch (sources : List HunkSource) :
    trim (renderPatch sources) =
      (beginPatchMarker :: sources.flatMap HunkSource.render).flatMap (· ++ ['\n']) ++
        endPatchMarker := by
  have happend : renderPatch sources =
      ((beginPatchMarker :: sources.flatMap HunkSource.render).flatMap (· ++ ['\n']) ++
        endPatchMarker) ++ ['\n'] := by
    simp [renderPatch]
  have hhead : ((beginPatchMarker :: sources.flatMap HunkSource.render).flatMap (· ++ ['\n']) ++
      endPatchMarker).head? = some '*' := rfl
  rw [happend, trim_concat rfl, trim_of_head hhead (by decide)]
  exact trimEnd_append_of_ne (by decide) (by decide)

/-- Hunks written with the markers are read back, whatever their lines are, if no context line to
find is empty. -/
theorem parsePatch_renderPatch (sources : List HunkSource)
    (hsources : ∀ source ∈ sources, source.WellFormed)
    (hcontexts : ∀ source ∈ sources, source.ContextsNonempty) :
    ∃ args, parsePatch (renderPatch sources) = .ok (args, none) ∧
      args.hunks = sources.map HunkSource.hunk := by
  have hlines : ∀ line ∈ beginPatchMarker :: sources.flatMap HunkSource.render, IsLine line := by
    intro line hline
    rcases mem_cons.mp hline with rfl | hline
    · decide
    · obtain ⟨source, hsource, hline⟩ := mem_flatMap.mp hline
      exact HunkSource.isLine_of_mem_render (hsources source hsource) hline
  have hstrip : (beginPatchMarker :: sources.flatMap HunkSource.render).map stripCr =
      beginPatchMarker :: sources.flatMap HunkSource.render := by
    conv_rhs => rw [← map_id (beginPatchMarker :: sources.flatMap HunkSource.render)]
    exact map_congr_left fun line hline => stripCr_of_isLine (hlines line hline)
  have hstart : new.readLine beginPatchMarker = .ok ⟨[], .startedPatch, [], none, 1⟩ := by decide
  have hexpecting : StreamingPatchParser.Expecting ⟨[], .startedPatch, [], none, 1⟩ [] :=
    ⟨rfl, by decide, rfl, fun _ => rfl⟩
  obtain ⟨last, hread, hlast⟩ := hexpecting.allHunks fun source hsource =>
    ⟨hsources source hsource, hcontexts source hsource⟩
  have hclose : last.close = .ok { last.nextLine with mode := .endedPatch } := by
    rw [close, hlast.complete]
    rfl
  have hhead : (beginPatchMarker :: sources.flatMap HunkSource.render).head?.map trim =
      some beginPatchMarker := by
    rw [head?_cons, Option.map_some]
    decide
  have henv : last.nextLine.environmentId = none := hlast.environmentId_eq
  have hhunks : last.nextLine.hunks = sources.map HunkSource.hunk := hlast.hunks_eq
  rw [parsePatch_lines (trim_renderPatch sources)
    (fun part hpart => (hlines part hpart).1) (by decide) hhead (by decide), hstrip,
    foldlM_cons, hstart, ok_bind, hread, ok_bind, hclose, ok_bind]
  simp only [henv, hhunks]
  exact ⟨_, rfl, rfl⟩

theorem parsePatch_renderPatch_markers :
    let sources : List HunkSource :=
      [.addFile ['a'] [endPatchMarker, []], .deleteFile ['b'],
        .updateFile ['c'] (some ['d'])
          [⟨some updateFileMarker.dropLast,
            [.context endPatchMarker, .add emptyChangeContextMarker], true⟩,
          ⟨none, [.remove eofMarker, .context []], false⟩]]
    ∃ args, parsePatch (renderPatch sources) = .ok (args, none) ∧
      args.hunks = sources.map HunkSource.hunk :=
  parsePatch_renderPatch _ (by decide) (by decide)

/-- An empty context line to find is written like none. -/
theorem parsePatch_forgets_empty_context :
    let source : HunkSource := .updateFile ['f'] none [⟨some [], [.add ['x']], false⟩]
    source.WellFormed ∧
      source.hunk = .updateFile ['f'] none [⟨some [], [], [['x']], [], false⟩] ∧
      (parsePatch (renderPatch [source])).toOption.map (·.1.hunks) =
        some [.updateFile ['f'] none [⟨none, [], [['x']], [], false⟩]] := by
  decide +kernel

end Codex.ApplyPatch

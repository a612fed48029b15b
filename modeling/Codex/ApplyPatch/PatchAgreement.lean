import Codex.ApplyPatch.UpdateActions

/-! `parse_patch` takes a carriage return off each line and gives the lines to the streaming parser,
which takes off another. So the two read a line of a file differently if it ends in two of them. -/

namespace Codex.ApplyPatch
open Codex.Lib List Option Text StreamingPatchParser LastChunk

/-- Where the lines of a patch stand; in an update hunk, whether its last chunk is at the end of
the file. -/
inductive Place where
  | outside
  | add
  | update (lastIsEndOfFile : Option Bool)
  deriving DecidableEq, Repr

namespace Place

def isFileLine (line : Text) : Place → Bool
  | outside => false
  | add => line.head? = some '+'
  | update last => last ≠ some true && (changeLine? line).isSome

def ofHeader : Header → Place
  | .endPatch | .deleteFile _ => outside
  | .addFile _ => add
  | .updateFile _ => update none

def next (line : Text) : Place → Place
  | update last =>
    match header? (Text.trimEnd line) with
    | some header => ofHeader header
    | none =>
      if isChangeContext (Text.trimEnd line) then update (some false)
      else if Text.trimEnd line = eofMarker then update (last.map fun _ => true)
      else if last = some true ∨ changeLine? line = none then update last
      else update (some false)
  | place =>
    match header? (Text.trim line) with
    | some header => ofHeader header
    | none => place

end Place

def doubledCrs : Place → List Text → Nat
  | _, [] => 0
  | place, line :: lines =>
    let once := Text.stripCr line
    let twice := Text.stripCr once
    (if once.getLast? = some '\r' ∧ place.isFileLine twice then 1 else 0) +
      doubledCrs (place.next twice) lines

namespace StreamingPatchParser
variable {self next : StreamingPatchParser} {line : Text}

def At (self : StreamingPatchParser) : Place → Prop
  | .outside => self.mode = .notStarted ∨ self.mode = .startedPatch ∨ self.mode = .deleteFile ∨
      self.mode = .endedPatch
  | .add => self.mode = .addFile ∧
      ∃ hunks path contents, self.hunks = hunks ++ [.addFile path contents]
  | .update last => (∃ n, self.mode = .updateFile n) ∧
      ∃ hunks path movePath chunks, self.hunks = hunks ++ [.updateFile path movePath chunks] ∧
        (lastChunk? chunks).map LastChunk.isEndOfFile = last

theorem at_openHeader (header : Header) : (self.openHeader header).At (.ofHeader header) := by
  cases header with
  | endPatch => exact Or.inr (Or.inr (Or.inr rfl))
  | addFile path => exact ⟨rfl, self.hunks, path, [], rfl⟩
  | deleteFile path => exact Or.inr (Or.inr (Or.inl rfl))
  | updateFile path => exact ⟨⟨_, rfl⟩, self.hunks, path, none, [], rfl, rfl⟩

theorem header?_of_environmentId {text rest : Text}
    (h : text.dropPrefix? environmentIdMarker = some rest) : header? text = none := by
  obtain ⟨marker, rfl, hmarker⟩ := dropPrefix?_eq_some_iff.mp h
  rw [eq_of_beq hmarker]
  have hend : environmentIdMarker ++ rest ≠ endPatchMarker := ne_endPatchMarker rfl
  have hadd : (environmentIdMarker ++ rest).dropPrefix? addFileMarker = none := rfl
  have hdelete : (environmentIdMarker ++ rest).dropPrefix? deleteFileMarker = none := rfl
  have hupdate : (environmentIdMarker ++ rest).dropPrefix? updateFileMarker = none := rfl
  simp [header?, hend, hadd, hdelete, hupdate]

theorem at_of_handled {trimmed : Text}
    (h : self.handleHunkHeadersAndEndPatch trimmed = .ok (some next)) :
    (∃ header, header? trimmed = some header ∧ next.At (.ofHeader header)) ∨
      header? trimmed = none ∧ self.mode = .startedPatch ∧ next.At .outside := by
  rcases handle_eq_ok h with ⟨_, id, hmode, henv, rfl⟩ | ⟨header, hheader, rfl⟩
  · exact Or.inr ⟨header?_of_environmentId henv, hmode, Or.inr (Or.inl hmode)⟩
  · exact Or.inl ⟨header, hheader, at_openHeader header⟩

theorem header?_of_unhandled {trimmed : Text}
    (h : self.handleHunkHeadersAndEndPatch trimmed = .ok none) : header? trimmed = none := by
  unfold handleHunkHeadersAndEndPatch at h
  split at h
  · split at h
    · cases h
    · split at h <;> cases h
  · split at h
    · next hheader => exact hheader
    · obtain ⟨_, _, hopen⟩ := exists_of_bind_eq_ok h
      cases hopen

theorem chunk_line_of_moveTo {path : Text}
    (h : (trimEnd line).dropPrefix? moveToMarker = some path) :
    isChangeContext (trimEnd line) = false ∧ trimEnd line ≠ eofMarker ∧
      changeLine? line = none := by
  obtain ⟨marker, htrim, hmarker⟩ := dropPrefix?_eq_some_iff.mp h
  have hhead : (trimEnd line).head? = some '*' := by
    rw [htrim, eq_of_beq hmarker]
    rfl
  refine ⟨isChangeContext_of_head (by rw [hhead]; decide), ?_, ?_⟩
  · intro heof
    rw [heof] at h
    exact absurd h (by simp [show eofMarker.dropPrefix? moveToMarker = none by decide])
  · by_contra hchange
    have hstar := (head?_of_changeLine (isSome_iff_ne_none.mpr hchange)).1
    exact head?_trimEnd_ne hstar hhead

variable {movePath : Option Text} {place : Place} {parts : List Text}

theorem next_of_updateAction {last : Option LastChunk} {action : UpdateAction}
    (hheader : header? (trimEnd line) = none)
    (h : updateAction movePath last line = some action) :
    (Place.update (last.map isEndOfFile)).next line =
      .update ((action.nextLast last).map isEndOfFile) := by
  have hended : last.map isEndOfFile = some true ↔
      last.any isEndOfFile := by
    cases last <;> simp
  simp only [Place.next, hheader, hended]
  unfold updateAction markerAction at h
  simp only at h
  split at h
  · next hblank =>
    cases h
    have hnil : trimEnd line = [] ∧ last.any isEndOfFile := by
      simpa [and_comm] using hblank
    rw [hnil.1, if_neg (by decide), if_neg (by decide), if_pos (Or.inl hnil.2)]
    rfl
  · next hblank =>
    split at h
    · cases h
    · next hopens =>
      split at h
      · next path hmove =>
        cases h
        obtain ⟨hnone, hpath⟩ : (last = none ∧ movePath = none) ∧
            (trimEnd line).dropPrefix? moveToMarker = some path := by
          split at hmove
          · next hnone => exact ⟨hnone, hmove⟩
          · cases hmove
        obtain ⟨hcontext, heof, hnoChange⟩ := chunk_line_of_moveTo hpath
        rw [hcontext, if_neg (by decide), if_neg heof, if_pos (Or.inr hnoChange)]
        rfl
      · split at h
        · cases h
        · split at h
          · next hat =>
            cases h
            rw [if_pos (by simp [isChangeContext, hat])]
            rfl
          · split at h
            · next context hcontext =>
              cases h
              obtain ⟨marker, htrim, hmarker⟩ := dropPrefix?_eq_some_iff.mp hcontext
              rw [if_pos (by rw [htrim, eq_of_beq hmarker]; simp [isChangeContext])]
              rfl
            · split at h
              · next heof =>
                split at h
                · cases h
                · cases h
                  rw [heof, if_neg (by decide), if_pos rfl]
                  cases last <;> rfl
              · next heof =>
                obtain ⟨change, hchange, rfl⟩ := map_eq_some_iff.mp h
                have hat := (head?_of_changeLine (by rw [hchange]; rfl)).2
                have hcontext : isChangeContext (trimEnd line) = false :=
                  isChangeContext_of_head (head?_trimEnd_ne hat)
                have hnotEnded : last.any isEndOfFile = false := by
                  simpa [hcontext] using hopens
                rw [hcontext, if_neg (by decide), if_neg heof,
                  if_neg (by simp [hnotEnded, hchange]), UpdateAction.nextLast, hnotEnded]
                rfl

theorem next_eq_of_header (hplace : place = .outside ∨ place = .add) :
    place.next line = ((header? (trim line)).map Place.ofHeader).getD place := by
  rcases hplace with rfl | rfl <;> cases h : header? (trim line) <;> simp [Place.next, h]

theorem at_next_outside (h : self.At .outside) (hread : self.processLine line = .ok next) :
    next.At (Place.outside.next line) := by
  rw [next_eq_of_header (Or.inl rfl)]
  have hhandled : ∀ {otherwise}, self.orElse (trim line) (.error otherwise) = .ok next →
      next.At (((header? (trim line)).map Place.ofHeader).getD .outside) := by
    intro otherwise hor
    rcases orElse_eq_ok hor with hhandled | ⟨_, herror⟩
    · rcases at_of_handled hhandled with ⟨header, hheader, hat⟩ | ⟨hnone, _, hat⟩
      · rw [hheader]
        exact hat
      · rw [hnone]
        exact hat
    · cases herror
  unfold processLine at hread
  rcases h with hmode | hmode | hmode | hmode <;> simp [hmode] at hread
  · split at hread
    · next hbegin =>
      cases hread
      rw [hbegin]
      exact Or.inr (Or.inl rfl)
    · cases hread
  · exact hhandled hread
  · exact hhandled hread
  · split at hread
    · next hblank =>
      cases hread
      rw [hblank]
      exact Or.inr (Or.inr (Or.inr hmode))
    · cases hread

theorem at_next_add (h : self.At .add) (hread : self.processLine line = .ok next) :
    next.At (Place.add.next line) := by
  obtain ⟨hmode, hunks, path, contents, hhunks⟩ := h
  rw [next_eq_of_header (Or.inr rfl)]
  unfold processLine at hread
  simp only [hmode] at hread
  rcases orElse_eq_ok hread with hhandled | ⟨hnone, hother⟩
  · rcases at_of_handled hhandled with ⟨header, hheader, hat⟩ | ⟨_, hstarted, _⟩
    · rw [hheader]
      exact hat
    · rw [hmode] at hstarted
      cases hstarted
  · rw [header?_of_unhandled hnone]
    split at hother
    · cases hother
      exact ⟨rfl, _, _, _, rfl⟩
    · cases hother

theorem at_next_update {last : Option Bool} (h : self.At (.update last))
    (hread : self.processLine line = .ok next) : next.At ((Place.update last).next line) := by
  obtain ⟨⟨n, hmode⟩, hunks, path, movePath, chunks, hhunks, rfl⟩ := h
  obtain ⟨otherwise, horElse⟩ : ∃ otherwise,
      self.orElse (trimEnd line) otherwise = .ok next := by
    unfold processLine at hread
    simp only [hmode] at hread
    exact ⟨_, hread⟩
  rcases orElse_eq_ok horElse with hhandled | ⟨hnone, _⟩
  · rcases at_of_handled hhandled with ⟨header, hheader, hat⟩ | ⟨_, hstarted, _⟩
    · simpa [Place.next, hheader] using hat
    · rw [hmode] at hstarted
      cases hstarted
  · have hheader := header?_of_unhandled hnone
    rw [processLine_update hmode hhunks hheader] at hread
    obtain ⟨read, hreadLine, hok⟩ := exists_of_bind_eq_ok hread
    cases hok
    have haction := readUpdateLine_toOption self.lineNumber movePath chunks line
    rw [hreadLine] at haction
    obtain ⟨action, hsome, rfl⟩ := map_eq_some_iff.mp haction.symm
    rw [next_of_updateAction hheader hsome]
    refine ⟨⟨n, rfl⟩, hunks, path, _, _, rfl, ?_⟩
    rw [UpdateAction.lastChunk?_apply]

theorem At.step (h : self.At place) (hread : self.processLine line = .ok next) :
    next.At (place.next line) := by
  cases place with
  | outside => exact at_next_outside h hread
  | add => exact at_next_add h hread
  | update last => exact at_next_update h hread

inductive HunkShape where
  | add
  | delete
  | update (movePath : Option Text) (last : Option LastChunk)

def shape : Hunk → HunkShape
  | .addFile _ _ => .add
  | .deleteFile _ => .delete
  | .updateFile _ movePath chunks => .update movePath (lastChunk? chunks)

def hunkSize : Hunk → Nat
  | .addFile _ contents => contents.length
  | .deleteFile _ => 0
  | .updateFile _ _ chunks => chunksSize chunks

def size (self : StreamingPatchParser) : Nat := (self.hunks.map hunkSize).sum

theorem ensure_eq_ok_iff :
    self.ensureUpdateHunkIsNotEmpty line = .ok () ↔
      match self.hunks.getLast?.map shape with
      | some (.update _ none) => ∀ n, self.mode ≠ .updateFile n
      | some (.update _ (some last)) => last.hasNoLines = false
      | _ => True := by
  unfold ensureUpdateHunkIsNotEmpty
  cases self.hunks.getLast? with
  | none => simp
  | some hunk =>
    cases hunk with
    | addFile path contents | deleteFile path => simp [shape]
    | updateFile path movePath chunks =>
      cases hlast : chunks.getLast? with
      | none => cases self.mode <;> simp [shape, lastChunk?, hlast]
      | some chunk =>
        cases hlines : chunk.hasNoLines <;>
          simp [shape, lastChunk?, hlast, hlines, UpdateFileChunk.status]

structure Alike (final streaming : StreamingPatchParser) : Prop where
  lineNumber_eq : final.lineNumber = streaming.lineNumber
  mode_eq : final.mode = streaming.mode
  environmentId_eq : final.environmentId = streaming.environmentId
  shape_eq : final.hunks.getLast?.map shape = streaming.hunks.getLast?.map shape

section Alike
variable {final streaming streaming' : StreamingPatchParser}

theorem Alike.nextLine (h : Alike final streaming) : Alike final.nextLine streaming.nextLine :=
  ⟨congrArg (· + 1) h.lineNumber_eq, h.mode_eq, h.environmentId_eq, h.shape_eq⟩

theorem Alike.ensure (h : Alike final streaming)
    (hok : streaming.ensureUpdateHunkIsNotEmpty line = .ok ()) :
    final.ensureUpdateHunkIsNotEmpty line = .ok () := by
  rw [ensure_eq_ok_iff] at hok ⊢
  rwa [h.shape_eq, h.mode_eq]

theorem Alike.openHeader (h : Alike final streaming) (header : Header) :
    Alike (final.openHeader header) (streaming.openHeader header) := by
  obtain ⟨hline, hmode, henv, hshape⟩ := h
  cases header with
  | endPatch => exact ⟨hline, rfl, henv, hshape⟩
  | addFile path | deleteFile path =>
    exact ⟨hline, rfl, henv, by simp [StreamingPatchParser.openHeader, shape]⟩
  | updateFile path =>
    exact ⟨hline, by simp [StreamingPatchParser.openHeader, hline], henv,
      by simp [StreamingPatchParser.openHeader, shape]⟩

theorem size_openHeader (header : Header) : (self.openHeader header).size = self.size := by
  cases header <;> simp [openHeader, size, hunkSize, chunksSize]

theorem Alike.handle (h : Alike final streaming) {trimmed : Text}
    (hread : streaming.handleHunkHeadersAndEndPatch trimmed = .ok (some streaming')) :
    ∃ final', final.handleHunkHeadersAndEndPatch trimmed = .ok (some final') ∧
      Alike final' streaming' ∧ final'.size + streaming.size = final.size + streaming'.size := by
  unfold handleHunkHeadersAndEndPatch at hread ⊢
  rw [h.mode_eq, h.environmentId_eq]
  split at hread
  · split at hread
    · cases hread
    · next hnone =>
      split at hread
      · cases hread
      · next hid =>
        cases hread
        simp only [hnone, hid]
        exact ⟨_, rfl, ⟨h.lineNumber_eq, rfl, rfl, h.shape_eq⟩, rfl⟩
  · split at hread
    · cases hread
    · next header hheader =>
      obtain ⟨_, hensure, hopen⟩ := exists_of_bind_eq_ok hread
      cases hopen
      simp only [h.ensure hensure, ok_bind]
      refine ⟨_, rfl, h.openHeader header, ?_⟩
      rw [size_openHeader, size_openHeader]

theorem Alike.handle_none (h : Alike final streaming) {trimmed : Text}
    (hread : streaming.handleHunkHeadersAndEndPatch trimmed = .ok none) :
    final.handleHunkHeadersAndEndPatch trimmed = .ok none := by
  have hheader := header?_of_unhandled hread
  unfold handleHunkHeadersAndEndPatch at hread ⊢
  rw [h.mode_eq, h.environmentId_eq]
  split at hread
  · split at hread
    · cases hread
    · split at hread <;> cases hread
  · simp [hheader]

def ReadAlike (final streaming final' streaming' : StreamingPatchParser) : Prop :=
  Alike final' streaming' ∧ final'.size + streaming.size = final.size + streaming'.size

theorem Alike.orElse (h : Alike final streaming) {trimmed : Text}
    {otherFinal otherStreaming : Except ParseError StreamingPatchParser}
    (hother : otherStreaming = .ok streaming' →
      ∃ final', otherFinal = .ok final' ∧ ReadAlike final streaming final' streaming')
    (hread : streaming.orElse trimmed otherStreaming = .ok streaming') :
    ∃ final', final.orElse trimmed otherFinal = .ok final' ∧
      ReadAlike final streaming final' streaming' := by
  rcases orElse_eq_ok hread with hhandled | ⟨hnone, hok⟩
  · obtain ⟨final', hfinal, halike⟩ := h.handle hhandled
    refine ⟨final', ?_, halike⟩
    rw [StreamingPatchParser.orElse, hfinal]
    rfl
  · obtain ⟨final', hfinal, halike⟩ := hother hok
    refine ⟨final', ?_, halike⟩
    rw [StreamingPatchParser.orElse, h.handle_none hnone]
    exact hfinal

theorem size_of_getLast? {hunk : Hunk} (h : self.hunks.getLast? = some hunk) :
    self.size = (self.hunks.dropLast.map hunkSize).sum + hunkSize hunk := by
  obtain ⟨before, hhunks⟩ := getLast?_eq_some_iff.mp h
  simp [size, hhunks]

theorem Alike.getLast_addFile (h : Alike final streaming) {path contents : Text}
    (hlast : streaming.hunks.getLast? = some (.addFile path contents)) :
    ∃ path' contents', final.hunks.getLast? = some (.addFile path' contents') := by
  have hshape := h.shape_eq
  rw [hlast] at hshape
  obtain ⟨hunk, hhunk, hadd⟩ := map_eq_some_iff.mp hshape
  cases hunk with
  | addFile path' contents' => exact ⟨path', contents', hhunk⟩
  | deleteFile path' | updateFile path' movePath chunks => cases hadd

theorem Alike.getLast_updateFile (h : Alike final streaming) {path : Text} {movePath : Option Text}
    {chunks : List UpdateFileChunk}
    (hlast : streaming.hunks.getLast? = some (.updateFile path movePath chunks)) :
    ∃ path' chunks', final.hunks.getLast? = some (.updateFile path' movePath chunks') ∧
      lastChunk? chunks' = lastChunk? chunks := by
  have hshape := h.shape_eq
  rw [hlast] at hshape
  obtain ⟨hunk, hhunk, hupdate⟩ := map_eq_some_iff.mp hshape
  cases hunk with
  | updateFile path' movePath' chunks' =>
    obtain ⟨rfl, hchunks⟩ : movePath' = movePath ∧ lastChunk? chunks' = lastChunk? chunks := by
      simpa [shape] using hupdate
    exact ⟨path', chunks', hhunk, hchunks⟩
  | addFile path' contents | deleteFile path' => cases hupdate

theorem readUpdateLine_of_lastChunk {lineNumber : Nat} {movePath : Option Text}
    {chunks chunks' : List UpdateFileChunk} {read : Option Text × List UpdateFileChunk}
    (hchunks : lastChunk? chunks' = lastChunk? chunks)
    (h : readUpdateLine lineNumber movePath chunks line = .ok read) :
    ∃ action : UpdateAction, read = action.apply movePath chunks ∧
      readUpdateLine lineNumber movePath chunks' line = .ok (action.apply movePath chunks') := by
  have haction := readUpdateLine_toOption lineNumber movePath chunks line
  have haction' := readUpdateLine_toOption lineNumber movePath chunks' line
  rw [h] at haction
  obtain ⟨action, hsome, rfl⟩ := map_eq_some_iff.mp haction.symm
  rw [hchunks, hsome] at haction'
  exact ⟨action, rfl, eq_ok_of_toOption haction'⟩

theorem Alike.processLine (h : Alike final streaming)
    (hread : streaming.processLine line = .ok streaming') :
    ∃ final', final.processLine line = .ok final' ∧
      ReadAlike final streaming final' streaming' := by
  unfold StreamingPatchParser.processLine at hread ⊢
  simp only [h.mode_eq, h.lineNumber_eq] at hread ⊢
  split at hread
  · split at hread
    · next hbegin =>
      cases hread
      rw [if_pos hbegin]
      exact ⟨_, rfl, ⟨rfl, rfl, h.environmentId_eq, h.shape_eq⟩, rfl⟩
    · cases hread
  · refine h.orElse (fun hok => ?_) hread
    cases hok
  · refine h.orElse (fun hok => ?_) hread
    split at hok
    · next lineToAdd path contents hlast =>
      cases hok
      obtain ⟨path', contents', hhunk⟩ := h.getLast_addFile hlast
      simp only [hhunk]
      refine ⟨_, rfl, ⟨rfl, rfl, h.environmentId_eq, by simp [shape]⟩, ?_⟩
      rw [size_of_getLast? hhunk, size_of_getLast? hlast]
      simp [size, hunkSize]
      omega
    · cases hok
  · refine h.orElse (fun hok => ?_) hread
    cases hok
  · refine h.orElse (fun hok => ?_) hread
    split at hok
    · next path movePath chunks hlast =>
      obtain ⟨read, hreadLine, hnext⟩ := exists_of_bind_eq_ok hok
      cases hnext
      obtain ⟨path', chunks', hhunk, hchunks⟩ := h.getLast_updateFile hlast
      obtain ⟨action, rfl, hread'⟩ := readUpdateLine_of_lastChunk hchunks hreadLine
      simp only [hhunk, hread', ok_bind]
      refine ⟨_, rfl, ⟨rfl, rfl, h.environmentId_eq, ?_⟩, ?_⟩
      · cases action <;> simp [shape, UpdateAction.lastChunk?_apply, hchunks] <;> rfl
      · rw [size_of_getLast? hhunk, size_of_getLast? hlast]
        simp [size, hunkSize, chunksSize_apply]
        omega
    · cases hok
  · split at hread
    · next hblank =>
      cases hread
      rw [if_pos hblank]
      exact ⟨_, rfl, h, rfl⟩
    · cases hread

end Alike

theorem updateAction_cr {last : Option LastChunk}
    (h : ¬ (last.any isEndOfFile = false ∧ (changeLine? line).isSome)) :
    updateAction movePath last (line ++ ['\r']) = updateAction movePath last line := by
  rw [updateAction, updateAction, trimEnd_cr]
  cases hmarker : markerAction movePath last (trimEnd line) with
  | some action => rfl
  | none =>
    have hended : last.any isEndOfFile = false := by
      rw [Bool.eq_false_iff]
      intro hended
      obtain ⟨action, haction⟩ := exists_markerAction movePath (trimEnd line) hended
      rw [hmarker] at haction
      cases haction
    have hnone : changeLine? line = none := by
      by_contra hsome
      exact h ⟨hended, isSome_iff_ne_none.mpr hsome⟩
    have hne : line ≠ [] := by
      rintro rfl
      cases hnone
    rw [changeLine?_cr hne, hnone]
    rfl

theorem orElse_toOption_congr {trimmed : Text} {a b : Except ParseError StreamingPatchParser}
    (h : a.toOption = b.toOption) :
    (self.orElse trimmed a).toOption = (self.orElse trimmed b).toOption := by
  unfold orElse
  cases self.handleHunkHeadersAndEndPatch trimmed with
  | error e => rfl
  | ok found =>
    cases found with
    | some found => rfl
    | none => exact h

theorem processLine_cr (h : self.At place) (hline : place.isFileLine line = false) :
    (self.processLine (line ++ ['\r'])).toOption = (self.processLine line).toOption := by
  unfold processLine
  simp only [trim_cr, trimEnd_cr]
  cases place with
  | outside => rcases h with hmode | hmode | hmode | hmode <;> simp [hmode]
  | add =>
    simp only [h.1]
    have hplus : line.head? ≠ some '+' := by simpa [Place.isFileLine] using hline
    cases line with
    | nil => rfl
    | cons c rest =>
      split
      · next heq _ =>
        cases heq
        exact absurd rfl hplus
      · split
        · next heq _ =>
          cases heq
          exact absurd rfl hplus
        · rfl
  | update last =>
    obtain ⟨⟨n, hmode⟩, hunks, path, movePath, chunks, hhunks, rfl⟩ := h
    simp only [hmode, hhunks, getLast?_concat]
    apply orElse_toOption_congr
    apply toOption_bind_congr
    rw [readUpdateLine_toOption, readUpdateLine_toOption, updateAction_cr]
    rintro ⟨hended, hsome⟩
    have hopen : (lastChunk? chunks).map isEndOfFile ≠ some true := by
      cases hlast : lastChunk? chunks <;> simp_all
    simp [Place.isFileLine, hopen, hsome] at hline

theorem processLine_change {n : Nat} {hunks : List Hunk} {path : Text}
    {chunks : List UpdateFileChunk} {change : ChangeLine} (hmode : self.mode = .updateFile n)
    (hhunks : self.hunks = hunks ++ [.updateFile path movePath chunks])
    (hended : (lastChunk? chunks).any isEndOfFile = false)
    (hchange : changeLine? line = some change) : self.processLine line = .ok
      { self with
        hunks := hunks ++ [.updateFile path movePath
          (pushLine (fun chunk => change.pushTo chunk) chunks)]
        mode := .updateFile n } := by
  have hsome : (changeLine? line).isSome := by rw [hchange]; rfl
  have hheader : header? (trimEnd line) = none :=
    header?_of_head (head?_trimEnd_ne (head?_of_changeLine hsome).1)
  have haction := readUpdateLine_toOption self.lineNumber movePath chunks line
  rw [updateAction, markerAction_of_changeLine movePath hended hsome, hchange] at haction
  rw [processLine_update hmode hhunks hheader, eq_ok_of_toOption haction]
  rfl

theorem processLine_lone_cr {n : Nat} {hunks : List Hunk} {path : Text}
    {chunks : List UpdateFileChunk} (hmode : self.mode = .updateFile n)
    (hhunks : self.hunks = hunks ++ [.updateFile path movePath chunks])
    (hended : (lastChunk? chunks).any isEndOfFile = false) :
    self.processLine ['\r'] ≠ .ok next := by
  intro hread
  have hmarker : markerAction movePath (lastChunk? chunks) (trimEnd []) = none :=
    markerAction_of_changeLine movePath hended rfl
  have haction := readUpdateLine_toOption self.lineNumber movePath chunks ['\r']
  rw [updateAction, show trimEnd ['\r'] = trimEnd [] by decide, hmarker] at haction
  rw [processLine_update hmode hhunks (by decide)] at hread
  obtain ⟨read, hreadLine, _⟩ := exists_of_bind_eq_ok hread
  rw [hreadLine] at haction
  cases haction

theorem processLine_fileLine (h : self.At place) (hline : place.isFileLine line)
    (hread : self.processLine (line ++ ['\r']) = .ok next) :
    ∃ final, self.processLine line = .ok final ∧ Alike final next ∧ final.size < next.size := by
  cases place with
  | outside => cases hline
  | add =>
    obtain ⟨hmode, hunks, path, contents, hhunks⟩ := h
    obtain ⟨text, rfl⟩ := head?_eq_some_iff.mp (of_decide_eq_true hline)
    rw [cons_append, processLine_addLine hmode hhunks] at hread
    cases hread
    refine ⟨_, processLine_addLine hmode hhunks, ⟨rfl, rfl, rfl, by simp [shape]⟩, ?_⟩
    simp [size, hunkSize]
  | update last =>
    obtain ⟨⟨n, hmode⟩, hunks, path, movePath, chunks, hhunks, rfl⟩ := h
    obtain ⟨hopen, hsome⟩ : (lastChunk? chunks).map isEndOfFile ≠ some true ∧
        (changeLine? line).isSome := by
      simpa [Place.isFileLine] using hline
    obtain ⟨change, hchange⟩ := isSome_iff_exists.mp hsome
    have hended : (lastChunk? chunks).any isEndOfFile = false := by
      cases hlast : lastChunk? chunks <;> simp_all
    refine ⟨_, processLine_change hmode hhunks hended hchange, ?_⟩
    have hne : line ≠ [] := by
      rintro rfl
      exact processLine_lone_cr hmode hhunks hended hread
    have hcr : changeLine? (line ++ ['\r']) = some change.withCr := by
      rw [changeLine?_cr hne, hchange]
      rfl
    rw [processLine_change hmode hhunks hended hcr] at hread
    cases hread
    have hsize := size_lt_withCr change
    have happly : ∀ line, chunksSize (pushLine (fun chunk => ChangeLine.pushTo chunk line) chunks) =
        chunksSize chunks + line.size := fun line => chunksSize_apply movePath chunks (.change line)
    refine ⟨⟨rfl, rfl, rfl, ?_⟩, ?_⟩
    · have hstatus : ∀ line,
          lastChunk? (pushLine (fun chunk => ChangeLine.pushTo chunk line) chunks) =
            some ⟨(lastChunk? chunks).any isEndOfFile, false⟩ :=
        fun line => UpdateAction.lastChunk?_apply movePath chunks (.change line)
      simp [shape, hstatus]
    · simp only [size, map_append, map_cons, map_nil, sum_append, hunkSize,
        sum_cons, sum_nil, happly]
      omega

theorem At.nextLine (h : self.At place) : self.nextLine.At place := by
  cases place <;> exact h

theorem Alike.at {final streaming : StreamingPatchParser} (h : Alike final streaming)
    (hat : final.At place) : streaming.At place := by
  have hsymm : Alike streaming final :=
    ⟨h.lineNumber_eq.symm, h.mode_eq.symm, h.environmentId_eq.symm, h.shape_eq.symm⟩
  cases place with
  | outside => simpa [At, h.mode_eq] using hat
  | add =>
    obtain ⟨hmode, hunks, path, contents, hhunks⟩ := hat
    obtain ⟨path', contents', hlast⟩ := hsymm.getLast_addFile (by rw [hhunks, getLast?_concat])
    obtain ⟨before, hbefore⟩ := getLast?_eq_some_iff.mp hlast
    exact ⟨by rw [← h.mode_eq, hmode], before, _, _, hbefore⟩
  | update last =>
    obtain ⟨⟨n, hmode⟩, hunks, path, movePath, chunks, hhunks, rfl⟩ := hat
    obtain ⟨path', chunks', hlast, hchunks⟩ :=
      hsymm.getLast_updateFile (by rw [hhunks, getLast?_concat])
    obtain ⟨before, hbefore⟩ := getLast?_eq_some_iff.mp hlast
    exact ⟨⟨n, by rw [← h.mode_eq, hmode]⟩, before, _, _, _, hbefore, by rw [hchunks]⟩

theorem Alike.trans {a b c : StreamingPatchParser} (hab : Alike a b) (hbc : Alike b c) :
    Alike a c :=
  ⟨hab.lineNumber_eq.trans hbc.lineNumber_eq, hab.mode_eq.trans hbc.mode_eq,
    hab.environmentId_eq.trans hbc.environmentId_eq, hab.shape_eq.trans hbc.shape_eq⟩

theorem processLine_stripCr {once : Text} (h : self.At place)
    (hline : ¬ (once.getLast? = some '\r' ∧ place.isFileLine (stripCr once))) :
    (self.processLine once).toOption = (self.processLine (stripCr once)).toOption := by
  by_cases hcr : once.getLast? = some '\r'
  · have hfile : place.isFileLine (stripCr once) = false := by simpa [hcr] using hline
    conv_lhs => rw [← stripCr_append_cr hcr]
    exact processLine_cr h hfile
  · rw [stripCr_of_ne hcr]

theorem foldlM_readLine_toOption (h : self.At place) (hnone : doubledCrs place parts = 0) :
    (parts.foldlM readLine self).toOption =
      ((parts.map stripCr).foldlM readLine self).toOption := by
  induction parts generalizing self place with
  | nil => rfl
  | cons part parts ih =>
    obtain ⟨hline, hrest⟩ := Nat.add_eq_zero_iff.mp hnone
    have hstep : (self.readLine part).toOption = (self.readLine (stripCr part)).toOption := by
      exact processLine_stripCr h.nextLine (by simpa using hline)
    rw [map_cons, foldlM_cons, foldlM_cons, toOption_bind_congr hstep]
    cases hread : self.readLine (stripCr part) with
    | error e => rfl
    | ok next => exact ih (h.nextLine.step hread) hrest

theorem Alike.readLine {final streaming streaming' : StreamingPatchParser} {part : Text}
    (h : Alike final streaming) (hat : final.At place)
    (hread : streaming.readLine part = .ok streaming') :
    ∃ final', final.readLine (stripCr part) = .ok final' ∧ Alike final' streaming' ∧
      final'.size + streaming.size + doubledCrs place [part] ≤ final.size + streaming'.size := by
  simp only [StreamingPatchParser.readLine, doubledCrs] at hread ⊢
  generalize stripCr part = once at hread
  have hstreaming := (h.at hat).nextLine
  by_cases hfile : once.getLast? = some '\r' ∧ place.isFileLine (stripCr once)
  · rw [← stripCr_append_cr hfile.1] at hread
    obtain ⟨between, hbetween, halike, hless⟩ := processLine_fileLine hstreaming hfile.2 hread
    obtain ⟨final', hfinal, halike', hsize⟩ := h.nextLine.processLine hbetween
    refine ⟨final', hfinal, halike'.trans halike, ?_⟩
    have hsame : final'.size + streaming.size = final.size + between.size := hsize
    rw [if_pos hfile]
    omega
  · have hplain := processLine_stripCr hstreaming hfile
    rw [hread] at hplain
    obtain ⟨final', hfinal, halike, hsize⟩ := h.nextLine.processLine (eq_ok_of_toOption hplain.symm)
    rw [if_neg hfile]
    exact ⟨final', hfinal, halike, hsize.le⟩

theorem foldlM_readLine_alike {final streaming streaming' : StreamingPatchParser}
    (h : Alike final streaming) (hat : final.At place)
    (hread : parts.foldlM readLine streaming = .ok streaming') :
    ∃ final', (parts.map stripCr).foldlM readLine final = .ok final' ∧
      Alike final' streaming' ∧
      final'.size + streaming.size + doubledCrs place parts ≤ final.size + streaming'.size := by
  induction parts generalizing final streaming place with
  | nil =>
    cases hread
    exact ⟨final, rfl, h, le_rfl⟩
  | cons part parts ih =>
    obtain ⟨between, hbetween, hrest⟩ := exists_of_bind_eq_ok hread
    obtain ⟨next, hnext, halike, hsize⟩ := h.readLine hat hbetween
    obtain ⟨final', hfinal, halike', hsize'⟩ := ih halike (hat.nextLine.step hnext) hrest
    refine ⟨final', ?_, halike', ?_⟩
    · rw [map_cons, foldlM_cons, hnext, ok_bind, hfinal]
    · simp only [doubledCrs] at hsize ⊢
      omega

def run (parts : List Text) : Except ParseError StreamingPatchParser :=
  parts.foldlM readLine new >>= close

theorem exists_run_stripCr {streaming : StreamingPatchParser} (hread : run parts = .ok streaming) :
    ∃ final, run (parts.map stripCr) = .ok final ∧
      final.size + doubledCrs .outside parts ≤ streaming.size := by
  obtain ⟨before, hbefore, hclose⟩ := exists_of_bind_eq_ok hread
  obtain ⟨_, hensure, hok⟩ := exists_of_bind_eq_ok hclose
  cases hok
  have hstart : new.At .outside := Or.inl rfl
  obtain ⟨last, hlast, halike, hsize⟩ := foldlM_readLine_alike ⟨rfl, rfl, rfl, rfl⟩ hstart hbefore
  refine ⟨{ last.nextLine with mode := .endedPatch }, ?_, ?_⟩
  · rw [run, hlast, ok_bind, close, halike.nextLine.ensure hensure]
    rfl
  · have hnew : new.size = 0 := rfl
    rw [hnew, Nat.add_zero, Nat.zero_add] at hsize
    exact hsize

theorem run_toOption (h : doubledCrs .outside parts = 0) :
    (run parts).toOption = (run (parts.map stripCr)).toOption := by
  have hstart : new.At .outside := Or.inl rfl
  exact toOption_bind_congr (foldlM_readLine_toOption hstart h)

end StreamingPatchParser

/-- The texts that both parsers are given: a trimmed text between the two markers. -/
structure IsPatchText (text : Text) : Prop where
  trimmed : Text.trim text = text
  begins : (Text.lines text).head?.map Text.trim = some beginPatchMarker
  ends : (Text.lines text).getLast?.map Text.trim = some endPatchMarker

theorem IsPatchText.exists_lines {text : Text} (h : IsPatchText text) :
    ∃ parts last, (text.splitOn '\n').dropLast = parts ∧
      text = parts.flatMap (· ++ ['\n']) ++ last ∧ (∀ part ∈ parts, '\n' ∉ part) ∧ '\n' ∉ last ∧
      parts.head?.map trim = some beginPatchMarker ∧ trim last = endPatchMarker := by
  obtain ⟨parts, last, hsplit, hfeed, htext⟩ := Split.exists_eq_flatMap_append '\n' text
  have hparts : ∀ part ∈ parts, '\n' ∉ part := fun part hpart => hfeed part (by simp [hpart])
  have hlast : '\n' ∉ last := hfeed last (by simp)
  have hne : last ≠ [] := by
    rintro rfl
    rcases eq_nil_or_concat parts with rfl | ⟨before, part, rfl⟩
    · have hbegins := h.begins
      rw [htext] at hbegins
      cases hbegins
    · have htrimmed := trimEnd_of_trim h.trimmed
      have hend : text.getLast? ≠ some '\n' := getLast?_ne_of_trimEnd htrimmed (by decide)
      exact hend (by rw [htext]; simp)
  have hlines := lines_flatMap_append hparts hlast hne
  rw [← htext] at hlines
  have hends : trim last = endPatchMarker := by simpa [hlines] using h.ends
  refine ⟨parts, last, by rw [hsplit, dropLast_concat], htext, hparts, hlast, ?_, hends⟩
  have hbegins := h.begins
  rw [hlines] at hbegins
  cases parts with
  | nil =>
    simp only [map_nil, nil_append, head?_cons, map_some, hends] at hbegins
    exact absurd hbegins (by decide)
  | cons part parts =>
    simpa [trim_stripCr] using hbegins

/-- `parse_patch` and the streaming parser, in whatever deltas, give the same result. -/
def Agrees (text : Text) : Prop :=
  ∀ deltas : List Text, deltas.flatten = text → ∀ hunks environmentId,
    (∃ args, parsePatch text = .ok (args, environmentId) ∧ args.hunks = hunks) ↔
      ∃ parser, StreamingPatchParser.feed deltas = .ok parser ∧ parser.hunks = hunks ∧
        parser.environmentId = environmentId

theorem IsPatchText.exists_runs {text : Text} (h : IsPatchText text) :
    ∃ parts, (text.splitOn '\n').dropLast = parts ∧
      (∀ hunks environmentId,
        (∃ args, parsePatch text = .ok (args, environmentId) ∧ args.hunks = hunks) ↔
          ∃ final, run (parts.map stripCr) = .ok final ∧
            final.hunks = hunks ∧ final.environmentId = environmentId) ∧
      ∀ deltas : List Text, deltas.flatten = text → feed deltas = run parts := by
  obtain ⟨parts, last, hsplit, htext, hparts, hlast, hbegin, hend⟩ := h.exists_lines
  have hparse := parsePatch_lines (h.trimmed.trans htext) hparts hlast hbegin hend
  rw [← run] at hparse
  refine ⟨parts, hsplit, fun hunks environmentId => ?_,
    fun deltas => feed_lines htext hparts hlast hend⟩
  rw [hparse]
  cases run (parts.map stripCr) with
  | error e =>
    refine ⟨?_, ?_⟩
    · rintro ⟨args, hargs, -⟩
      cases hargs
    · rintro ⟨final, hfinal, -⟩
      cases hfinal
  | ok final =>
    refine ⟨?_, ?_⟩
    · rintro ⟨args, hargs, rfl⟩
      cases hargs
      exact ⟨final, rfl, rfl, rfl⟩
    · rintro ⟨other, hother, rfl, rfl⟩
      cases hother
      exact ⟨_, rfl, rfl⟩

def fileLinesWithDoubledCr (text : Text) : Nat :=
  doubledCrs .outside (text.splitOn '\n').dropLast

/-- A patch that is accepted is read the same by both parsers just if no line of a file in it ends
in two carriage returns; one that `parse_patch` rejects is rejected by both. -/
theorem streaming_agrees_iff {text : Text} (h : IsPatchText text) :
    (∀ parsed, parsePatch text = .ok parsed → (Agrees text ↔ fileLinesWithDoubledCr text = 0)) ∧
    ((∀ parsed, parsePatch text ≠ .ok parsed) → Agrees text) := by
  obtain ⟨parts, hsplit, hfinal, hfeed⟩ := h.exists_runs
  rw [fileLinesWithDoubledCr, hsplit]
  refine ⟨fun ⟨args, environmentId⟩ hparsed => ⟨fun hagrees => ?_, fun hnone => ?_⟩,
    fun hreject => ?_⟩
  · have hself : [text].flatten = text := by simp
    obtain ⟨streaming, hstreaming, hhunks, -⟩ :=
      (hagrees [text] hself args.hunks environmentId).mp ⟨args, hparsed, rfl⟩
    rw [hfeed [text] hself] at hstreaming
    obtain ⟨final, hrun, hsize⟩ := exists_run_stripCr hstreaming
    obtain ⟨other, hother, hsame, -⟩ := (hfinal args.hunks environmentId).mp ⟨args, hparsed, rfl⟩
    rw [hrun] at hother
    cases hother
    rw [size, size, hsame, hhunks] at hsize
    omega
  · intro deltas hdeltas hunks environmentId'
    have hsame := run_toOption hnone
    rw [hfinal, hfeed deltas hdeltas]
    simp [← toOption_eq_some_iff, hsame]
  · intro deltas hdeltas hunks environmentId
    rw [hfeed deltas hdeltas]
    refine ⟨?_, ?_⟩
    · rintro ⟨args, hparsed, -⟩
      exact absurd hparsed (hreject _)
    · rintro ⟨streaming, hstreaming, -⟩
      obtain ⟨final, hrun, -⟩ := exists_run_stripCr hstreaming
      obtain ⟨args, hparsed, -⟩ :=
        (hfinal final.hunks final.environmentId).mpr ⟨final, hrun, rfl, rfl⟩
      exact absurd hparsed (hreject _)

theorem streaming_agrees_iff_crlf :
    let text : Text :=
      "*** Begin Patch\r\n*** Add File: f\r\n+a\r\n+b\r\n*** End Patch".toList
    (parsePatch text).toOption.map (·.1.hunks) = some [.addFile ['f'] ['a', '\n', 'b', '\n']] ∧
      fileLinesWithDoubledCr text = 0 ∧ Agrees text := by
  intro text
  have htext : IsPatchText text := ⟨by decide +kernel, by decide +kernel, by decide +kernel⟩
  have hhunks : (parsePatch text).toOption.map (·.1.hunks) =
      some [.addFile ['f'] ['a', '\n', 'b', '\n']] := by decide +kernel
  have hnone : fileLinesWithDoubledCr text = 0 := by decide +kernel
  obtain ⟨parsed, hparsed, -⟩ := map_eq_some_iff.mp hhunks
  exact ⟨hhunks, hnone,
    ((streaming_agrees_iff htext).1 parsed (eq_ok_of_toOption hparsed)).mpr hnone⟩

/-- The preview keeps one of two carriage returns, and the patch that is applied has none. -/
theorem preview_keeps_doubled_cr :
    let text : Text := "*** Begin Patch\n*** Add File: f\n+a\r\r\n*** End Patch".toList
    (Text.trim text = text ∧ (Text.lines text).head?.map Text.trim = some beginPatchMarker ∧
      (Text.lines text).getLast?.map Text.trim = some endPatchMarker) ∧
    (parsePatch text).toOption.map (·.1.hunks) = some [.addFile ['f'] ['a', '\n']] ∧
    (StreamingPatchParser.feed [text]).toOption.map (·.hunks) =
      some [.addFile ['f'] ['a', '\r', '\n']] := by
  decide +kernel

end Codex.ApplyPatch

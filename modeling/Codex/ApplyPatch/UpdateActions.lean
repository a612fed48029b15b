import Codex.ApplyPatch.PatchFormat
import Mathlib.Algebra.Order.Ring.Nat

/-! A line of an update hunk is a marker, which is recognised without the white space at its end, or
a line of the file, which keeps it. -/

namespace Codex.ApplyPatch
open Codex.Lib List UpdateFileChunk

structure LastChunk where
  isEndOfFile : Bool
  hasNoLines : Bool
  deriving DecidableEq, Repr

def UpdateFileChunk.status (chunk : UpdateFileChunk) : LastChunk :=
  ⟨chunk.isEndOfFile, chunk.hasNoLines⟩

def lastChunk? (chunks : List UpdateFileChunk) : Option LastChunk :=
  chunks.getLast?.map UpdateFileChunk.status

inductive UpdateAction where
  | skip
  | moveTo (path : Text)
  | openChunk (changeContext : Option Text)
  | endFile
  | change (line : ChangeLine)

def UpdateAction.apply (movePath : Option Text) (chunks : List UpdateFileChunk) :
    UpdateAction → Option Text × List UpdateFileChunk
  | skip => (movePath, chunks)
  | moveTo path => (some path, chunks)
  | openChunk changeContext => (movePath, chunks ++ [.opened changeContext])
  | endFile => (movePath, onLast .endOfFile chunks)
  | change line => (movePath, pushLine (fun chunk => line.pushTo chunk) chunks)

/-- The line as a line of the file; an empty one is an empty context line. -/
def changeLine? : Text → Option ChangeLine
  | [] => some (.context [])
  | ' ' :: rest => some (.context rest)
  | '+' :: rest => some (.add rest)
  | '-' :: rest => some (.remove rest)
  | _ => none

/-- What the trimmed line decides, if anything; `some none` is an error. -/
def markerAction (movePath : Option Text) (last : Option LastChunk) (updateLine : Text) :
    Option (Option UpdateAction) :=
  let ended := last.any LastChunk.isEndOfFile
  let noLines := last.any LastChunk.hasNoLines
  if ended && updateLine = [] then some (some .skip)
  else if ended && !isChangeContext updateLine then some none
  else
    match if last = none ∧ movePath = none then updateLine.dropPrefix? moveToMarker else none with
    | some path => some (some (.moveTo path))
    | none =>
      if isChangeContext updateLine && noLines then some none
      else if updateLine = emptyChangeContextMarker then some (some (.openChunk none))
      else
        match updateLine.dropPrefix? changeContextMarker with
        | some changeContext => some (some (.openChunk (some changeContext)))
        | none =>
          if updateLine = eofMarker then if noLines then some none else some (some .endFile)
          else none

def updateAction (movePath : Option Text) (last : Option LastChunk) (line : Text) :
    Option UpdateAction :=
  (markerAction movePath last (Text.trimEnd line)).getD ((changeLine? line).map .change)

theorem readChange_toOption (lineNumber : Nat) (movePath : Option Text)
    (chunks : List UpdateFileChunk) (line : Text) :
    (match line with
      | [] => Except.ok (movePath, pushLine (·.pushContextLine []) chunks)
      | ' ' :: rest => .ok (movePath, pushLine (·.pushContextLine rest) chunks)
      | '+' :: rest => .ok (movePath, pushLine (·.pushNewLine rest) chunks)
      | '-' :: rest => .ok (movePath, pushLine (·.pushOldLine rest) chunks)
      | _ =>
        if chunks.getLast?.any (fun chunk : UpdateFileChunk => !chunk.hasNoLines) then
          .error (ParseError.invalidHunkError (expectedContextMarker line) lineNumber)
        else .error (.invalidHunkError (unexpectedLine line) lineNumber)).toOption =
      ((changeLine? line).map UpdateAction.change).map (·.apply movePath chunks) := by
  unfold changeLine?
  split
  · rfl
  · rfl
  · rfl
  · rfl
  · split <;> rfl

theorem readUpdateLine_toOption (lineNumber : Nat) (movePath : Option Text)
    (chunks : List UpdateFileChunk) (line : Text) :
    (readUpdateLine lineNumber movePath chunks line).toOption =
      (updateAction movePath (lastChunk? chunks) line).map (·.apply movePath chunks) := by
  have hended : (lastChunk? chunks).any LastChunk.isEndOfFile =
      chunks.getLast?.any isEndOfFile := by
    cases h : chunks.getLast? <;> simp [lastChunk?, h, status]
  have hnoLines : (lastChunk? chunks).any LastChunk.hasNoLines =
      chunks.getLast?.any hasNoLines := by
    cases h : chunks.getLast? <;> simp [lastChunk?, h, status]
  have hempty : lastChunk? chunks = none ↔ chunks = [] := by simp [lastChunk?]
  have hchange := readChange_toOption lineNumber movePath chunks line
  simp only [readUpdateLine, updateAction, markerAction, hended, hnoLines, hempty]
  -- The two sides make the same tests; the optional results are named so that both are rewritten.
  generalize (if chunks = [] ∧ movePath = none then
    (Text.trimEnd line).dropPrefix? moveToMarker else none) = moveTo
  generalize (Text.trimEnd line).dropPrefix? changeContextMarker = changeContext
  split
  · rfl
  · split
    · rfl
    · cases moveTo with
      | some path => rfl
      | none =>
        simp only
        split
        · rfl
        · split
          · rfl
          · cases changeContext with
            | some context => rfl
            | none =>
              simp only
              split
              · split <;> rfl
              · exact hchange

namespace UpdateAction

def nextLast (last : Option LastChunk) : UpdateAction → Option LastChunk
  | skip | moveTo _ => last
  | openChunk _ => some ⟨false, true⟩
  | endFile => last.map fun chunk => ⟨true, chunk.hasNoLines⟩
  | change _ => some ⟨last.any LastChunk.isEndOfFile, false⟩

theorem lastChunk?_apply (movePath : Option Text) (chunks : List UpdateFileChunk)
    (action : UpdateAction) :
    lastChunk? (action.apply movePath chunks).2 = action.nextLast (lastChunk? chunks) := by
  have hpush : ∀ (line : ChangeLine) (chunk : UpdateFileChunk),
      (line.pushTo chunk).status = ⟨chunk.isEndOfFile, false⟩ := by
    intro line chunk
    rw [status, hasNoLines_pushTo]
    cases line <;> rfl
  rcases eq_nil_or_concat chunks with rfl | ⟨before, chunk, rfl⟩
  · cases action with
    | change line => simp [apply, nextLast, lastChunk?, pushLine, onLast, hpush]; rfl
    | skip | moveTo path | openChunk context | endFile => rfl
  · rw [concat_eq_append]
    cases action with
    | change line =>
      simp [apply, nextLast, lastChunk?, hpush]
      rfl
    | skip | moveTo path | endFile =>
      simp [apply, nextLast, lastChunk?, status, endOfFile, hasNoLines]
    | openChunk context =>
      simp [apply, nextLast, lastChunk?, status, opened, hasNoLines]

end UpdateAction

def UpdateFileChunk.size (chunk : UpdateFileChunk) : Nat :=
  (chunk.oldLines.map List.length).sum + (chunk.newLines.map List.length).sum

def ChangeLine.size : ChangeLine → Nat
  | context text => text.length + text.length
  | add text | remove text => text.length

def UpdateAction.size : UpdateAction → Nat
  | change line => line.size
  | _ => 0

def chunksSize (chunks : List UpdateFileChunk) : Nat := (chunks.map UpdateFileChunk.size).sum

theorem size_pushTo (line : ChangeLine) (chunk : UpdateFileChunk) :
    (line.pushTo chunk).size = chunk.size + line.size := by
  cases line <;> simp [ChangeLine.pushTo, size, ChangeLine.size,
    pushContextLine, pushNewLine, pushOldLine] <;>
    omega

variable (movePath : Option Text)

theorem chunksSize_apply (chunks : List UpdateFileChunk) (action : UpdateAction) :
    chunksSize (action.apply movePath chunks).2 = chunksSize chunks + action.size := by
  have hopened : ∀ context, (opened context).size = 0 := fun _ => rfl
  have hended : ∀ chunk : UpdateFileChunk, chunk.endOfFile.size = chunk.size := fun _ => rfl
  rcases eq_nil_or_concat chunks with rfl | ⟨before, chunk, rfl⟩
  · cases action with
    | change line =>
      simp [UpdateAction.apply, UpdateAction.size, chunksSize, pushLine, onLast, size_pushTo,
        hopened]
    | skip | moveTo path | openChunk context | endFile => rfl
  · rw [concat_eq_append]
    cases action with
    | change line =>
      simp [UpdateAction.apply, UpdateAction.size, chunksSize, size_pushTo]
      omega
    | skip | moveTo path | openChunk context | endFile =>
      simp [UpdateAction.apply, UpdateAction.size, chunksSize, hopened, hended]

def ChangeLine.withCr : ChangeLine → ChangeLine
  | context text => .context (text ++ ['\r'])
  | add text => .add (text ++ ['\r'])
  | remove text => .remove (text ++ ['\r'])

theorem size_lt_withCr (line : ChangeLine) : line.size < line.withCr.size := by
  cases line with
  | context text => simp [ChangeLine.withCr, ChangeLine.size]; omega
  | add text | remove text => simp [ChangeLine.withCr, ChangeLine.size]

theorem changeLine?_cr {line : Text} (hne : line ≠ []) :
    changeLine? (line ++ ['\r']) = (changeLine? line).map ChangeLine.withCr := by
  obtain ⟨c, rest, rfl⟩ := exists_cons_of_ne_nil hne
  unfold changeLine?
  split
  · next heq => cases heq
  · next heq => cases heq; rfl
  · next heq => cases heq; rfl
  · next heq => cases heq; rfl
  · next h1 h2 h3 h4 =>
    split
    · next heq => cases heq
    · next heq => cases heq; exact absurd rfl (h2 _)
    · next heq => cases heq; exact absurd rfl (h3 _)
    · next heq => cases heq; exact absurd rfl (h4 _)
    · rfl

theorem trimEnd_cr (line : Text) : Text.trimEnd (line ++ ['\r']) = Text.trimEnd line := by
  rw [Text.trimEnd_append, if_pos (by decide)]

theorem trim_cr (line : Text) : Text.trim (line ++ ['\r']) = Text.trim line :=
  Text.trim_concat rfl

theorem exists_markerAction {last : Option LastChunk} (updateLine : Text)
    (h : last.any LastChunk.isEndOfFile) :
    ∃ action, markerAction movePath last updateLine = some action := by
  have hne : last ≠ none := by
    rintro rfl
    cases h
  simp only [markerAction, h, Bool.true_and, hne, false_and, if_false]
  split
  · exact ⟨_, rfl⟩
  · split
    · exact ⟨_, rfl⟩
    · next hcontext =>
      split
      · exact ⟨_, rfl⟩
      · split
        · exact ⟨_, rfl⟩
        · next hne =>
          have hprefix : changeContextMarker.isPrefixOf updateLine := by
            simpa [isChangeContext, hne] using hcontext
          obtain ⟨context, rfl⟩ := List.isPrefixOf_iff_prefix.mp hprefix
          rw [dropPrefix?_append_of_beq _ (by simp)]
          exact ⟨_, rfl⟩

theorem head?_of_changeLine {line : Text} (h : (changeLine? line).isSome) :
    line.head? ≠ some '*' ∧ line.head? ≠ some '@' := by
  unfold changeLine? at h
  split at h <;> simp_all

theorem markerAction_of_changeLine {last : Option LastChunk} {line : Text}
    (hended : last.any LastChunk.isEndOfFile = false) (h : (changeLine? line).isSome) :
    markerAction movePath last (Text.trimEnd line) = none := by
  have hhead := head?_of_changeLine h
  have hstar := Text.head?_trimEnd_ne hhead.1
  have hat := Text.head?_trimEnd_ne hhead.2
  have hmove : (Text.trimEnd line).dropPrefix? moveToMarker = none :=
    dropPrefix?_of_head (by decide) hstar
  have hcontext : (Text.trimEnd line).dropPrefix? changeContextMarker = none :=
    dropPrefix?_of_head (by decide) hat
  have hempty : Text.trimEnd line ≠ emptyChangeContextMarker := by
    intro heq
    exact hat (by rw [heq]; decide)
  have heof : Text.trimEnd line ≠ eofMarker := by
    intro heq
    exact hstar (by rw [heq]; decide)
  simp [markerAction, hended, hmove, isChangeContext_of_head hat, hempty, hcontext, heof]

end Codex.ApplyPatch

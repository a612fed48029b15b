import Codex.ApplyPatch.Verify
import Codex.Lib.Lines

/-! `apply-patch/src/streaming_parser.rs`. What the parser has read when it fails is not kept. -/

namespace Codex.ApplyPatch
open Codex.Lib

def beginPatchMarker : Text := "*** Begin Patch".toList
def endPatchMarker : Text := "*** End Patch".toList
def addFileMarker : Text := "*** Add File: ".toList
def deleteFileMarker : Text := "*** Delete File: ".toList
def updateFileMarker : Text := "*** Update File: ".toList
def moveToMarker : Text := "*** Move to: ".toList
def eofMarker : Text := "*** End of File".toList
def changeContextMarker : Text := "@@ ".toList
def emptyChangeContextMarker : Text := "@@".toList
def environmentIdMarker : Text := "*** Environment ID:".toList

inductive ParseError where
  | invalidPatchError (message : Text)
  | invalidHunkError (message : Text) (lineNumber : Nat)
  deriving DecidableEq, Repr

inductive StreamingParserMode where
  | notStarted
  | startedPatch
  | addFile
  | deleteFile
  | updateFile (hunkLineNumber : Nat)
  | endedPatch
  deriving DecidableEq, Repr

structure StreamingPatchParser where
  lineBuffer : Text
  mode : StreamingParserMode
  hunks : List Hunk
  environmentId : Option Text
  lineNumber : Nat
  deriving DecidableEq, Repr

namespace UpdateFileChunk

def opened (changeContext : Option Text) : UpdateFileChunk := ⟨changeContext, [], [], [], false⟩

def hasNoLines (self : UpdateFileChunk) : Bool := self.oldLines = [] && self.newLines = []

def pushContextLine (self : UpdateFileChunk) (line : Text) : UpdateFileChunk :=
  { self with
    contextLineIndices := self.contextLineIndices ++ [(self.oldLines.length, self.newLines.length)]
    oldLines := self.oldLines ++ [line]
    newLines := self.newLines ++ [line] }

def pushNewLine (self : UpdateFileChunk) (line : Text) : UpdateFileChunk :=
  { self with newLines := self.newLines ++ [line] }

def pushOldLine (self : UpdateFileChunk) (line : Text) : UpdateFileChunk :=
  { self with oldLines := self.oldLines ++ [line] }

def endOfFile (self : UpdateFileChunk) : UpdateFileChunk := { self with isEndOfFile := true }

end UpdateFileChunk

/-- What `last_mut` gives is changed in place. -/
def onLast {α : Type} (f : α → α) (xs : List α) : List α :=
  xs.dropLast ++ (xs.getLast?.map f).toList

@[simp] theorem onLast_concat {α : Type} (f : α → α) (xs : List α) (x : α) :
    onLast f (xs ++ [x]) = xs ++ [f x] := by
  simp [onLast]

def pushLine (f : UpdateFileChunk → UpdateFileChunk) (chunks : List UpdateFileChunk) :
    List UpdateFileChunk :=
  onLast f (if chunks = [] then [.opened none] else chunks)

@[simp] theorem pushLine_concat (f : UpdateFileChunk → UpdateFileChunk)
    (chunks : List UpdateFileChunk) (chunk : UpdateFileChunk) :
    pushLine f (chunks ++ [chunk]) = chunks ++ [f chunk] := by
  simp [pushLine]

def notAHeader (trimmed : Text) : Text :=
  "'".toList ++ trimmed ++ ("' is not a valid hunk header. Valid hunk headers: ".toList ++
    "'*** Add File: \x7bpath\x7d', '*** Delete File: \x7bpath\x7d', ".toList ++
    "'*** Update File: \x7bpath\x7d'".toList)

def emptyUpdateHunk (path : Text) : Text :=
  "Update file hunk for path '".toList ++ path ++ "' is empty".toList

def noUpdateLines : Text := "Update hunk does not contain any lines".toList

def unexpectedLine (line : Text) : Text :=
  "Unexpected line found in update hunk: '".toList ++ line ++
    ("'. Every line should start with ' ' (context line), '+' (added line), ".toList ++
      "or '-' (removed line)".toList)

def expectedContextMarker (line : Text) : Text :=
  "Expected update hunk to start with a @@ context marker, got: '".toList ++ line ++ "'".toList

def firstLineMustBegin : Text := "The first line of the patch must be '*** Begin Patch'".toList

def lastLineMustEnd : Text := "The last line of the patch must be '*** End Patch'".toList

inductive Header where
  | endPatch
  | addFile (path : Text)
  | deleteFile (path : Text)
  | updateFile (path : Text)
  deriving DecidableEq, Repr

def header? (trimmed : Text) : Option Header :=
  if trimmed = endPatchMarker then some .endPatch
  else
    ((trimmed.dropPrefix? addFileMarker).map .addFile).or <|
      ((trimmed.dropPrefix? deleteFileMarker).map .deleteFile).or <|
        (trimmed.dropPrefix? updateFileMarker).map .updateFile

def isChangeContext (updateLine : Text) : Bool :=
  updateLine = emptyChangeContextMarker || changeContextMarker.isPrefixOf updateLine

/-- A line of an update hunk that is no header: the new destination and chunks. -/
def readUpdateLine (lineNumber : Nat) (movePath : Option Text) (chunks : List UpdateFileChunk)
    (line : Text) : Except ParseError (Option Text × List UpdateFileChunk) :=
  let updateLine := Text.trimEnd line
  let ended := chunks.getLast?.any UpdateFileChunk.isEndOfFile
  let noLines := chunks.getLast?.any UpdateFileChunk.hasNoLines
  if ended && updateLine = [] then .ok (movePath, chunks)
  else if ended && !isChangeContext updateLine then
    .error (.invalidHunkError (expectedContextMarker line) lineNumber)
  else
    match if chunks = [] ∧ movePath = none then updateLine.dropPrefix? moveToMarker else none with
    | some moveToPath => .ok (some moveToPath, chunks)
    | none =>
      if isChangeContext updateLine && noLines then
        .error (.invalidHunkError (unexpectedLine line) lineNumber)
      else if updateLine = emptyChangeContextMarker then
        .ok (movePath, chunks ++ [.opened none])
      else
        match updateLine.dropPrefix? changeContextMarker with
        | some changeContext => .ok (movePath, chunks ++ [.opened (some changeContext)])
        | none =>
          if updateLine = eofMarker then
            if noLines then .error (.invalidHunkError noUpdateLines lineNumber)
            else .ok (movePath, onLast .endOfFile chunks)
          else
            match line with
            | [] => .ok (movePath, pushLine (·.pushContextLine []) chunks)
            | ' ' :: rest => .ok (movePath, pushLine (·.pushContextLine rest) chunks)
            | '+' :: rest => .ok (movePath, pushLine (·.pushNewLine rest) chunks)
            | '-' :: rest => .ok (movePath, pushLine (·.pushOldLine rest) chunks)
            | _ =>
              if chunks.getLast?.any (!·.hasNoLines) then
                .error (.invalidHunkError (expectedContextMarker line) lineNumber)
              else .error (.invalidHunkError (unexpectedLine line) lineNumber)

namespace StreamingPatchParser

def new : StreamingPatchParser := ⟨[], .notStarted, [], none, 0⟩

def ensureUpdateHunkIsNotEmpty (self : StreamingPatchParser) (line : Text) :
    Except ParseError Unit :=
  match self.hunks.getLast? with
  | some (.updateFile path _ chunks) =>
    match chunks.getLast?, self.mode with
    | none, .updateFile hunkLineNumber =>
      .error (.invalidHunkError (emptyUpdateHunk path) hunkLineNumber)
    | none, _ => .ok ()
    | some chunk, _ =>
      if chunk.hasNoLines then
        .error (.invalidHunkError
          (if line = endPatchMarker then noUpdateLines else unexpectedLine line) self.lineNumber)
      else .ok ()
  | _ => .ok ()

def openHeader (self : StreamingPatchParser) : Header → StreamingPatchParser
  | .endPatch => { self with mode := .endedPatch }
  | .addFile path => { self with hunks := self.hunks ++ [.addFile path []], mode := .addFile }
  | .deleteFile path => { self with hunks := self.hunks ++ [.deleteFile path], mode := .deleteFile }
  | .updateFile path =>
    { self with
      hunks := self.hunks ++ [.updateFile path none []]
      mode := .updateFile self.lineNumber }

/-- The new state, or none for a line that is not handled here. -/
def handleHunkHeadersAndEndPatch (self : StreamingPatchParser) (trimmed : Text) :
    Except ParseError (Option StreamingPatchParser) :=
  match self.mode, trimmed.dropPrefix? environmentIdMarker with
  | .startedPatch, some environmentId =>
    if self.environmentId.isSome then
      .error (.invalidPatchError
        "apply_patch environment_id cannot be specified more than once".toList)
    else if Text.trim environmentId = [] then
      .error (.invalidPatchError "apply_patch environment_id cannot be empty".toList)
    else .ok (some { self with environmentId := some (Text.trim environmentId) })
  | _, _ =>
    match header? trimmed with
    | none => .ok none
    | some header => do
      self.ensureUpdateHunkIsNotEmpty trimmed
      .ok (some (self.openHeader header))

def orElse (self : StreamingPatchParser) (trimmed : Text)
    (otherwise : Except ParseError StreamingPatchParser) :
    Except ParseError StreamingPatchParser := do
  match ← self.handleHunkHeadersAndEndPatch trimmed with
  | some next => .ok next
  | none => otherwise

def processLine (self : StreamingPatchParser) (line : Text) :
    Except ParseError StreamingPatchParser :=
  let trimmed := Text.trim line
  let invalid := .error (.invalidHunkError (notAHeader trimmed) self.lineNumber)
  match self.mode with
  | .notStarted =>
    if trimmed = beginPatchMarker then .ok { self with mode := .startedPatch }
    else .error (.invalidPatchError firstLineMustBegin)
  | .startedPatch => self.orElse trimmed invalid
  | .addFile =>
    self.orElse trimmed <|
      match line, self.hunks.getLast? with
      | '+' :: lineToAdd, some (.addFile path contents) =>
        .ok { self with
          hunks := self.hunks.dropLast ++ [.addFile path (contents ++ lineToAdd ++ ['\n'])] }
      | _, _ => invalid
  | .deleteFile => self.orElse trimmed invalid
  | .updateFile hunkLineNumber =>
    self.orElse (Text.trimEnd line) <|
      match self.hunks.getLast? with
      | some (.updateFile path movePath chunks) => do
        let (movePath, chunks) ← readUpdateLine self.lineNumber movePath chunks line
        .ok { self with
          hunks := self.hunks.dropLast ++ [.updateFile path movePath chunks]
          mode := .updateFile hunkLineNumber }
      | _ => .error (.invalidHunkError (unexpectedLine line) self.lineNumber)
  | .endedPatch =>
    if trimmed = [] then .ok self else .error (.invalidPatchError lastLineMustEnd)

def nextLine (self : StreamingPatchParser) : StreamingPatchParser :=
  { self with lineBuffer := [], lineNumber := self.lineNumber + 1 }

def pushChar (self : StreamingPatchParser) (ch : Char) : Except ParseError StreamingPatchParser :=
  if ch = '\n' then self.nextLine.processLine (Text.stripCr self.lineBuffer)
  else .ok { self with lineBuffer := self.lineBuffer ++ [ch] }

/-- The hunks that `push_delta` returns are those of the new state. -/
def pushDelta (self : StreamingPatchParser) (delta : Text) :
    Except ParseError StreamingPatchParser :=
  delta.foldlM pushChar self

def finish (self : StreamingPatchParser) : Except ParseError StreamingPatchParser := do
  let next ←
    if self.lineBuffer = [] then .ok self
    else if Text.trim self.lineBuffer = endPatchMarker then do
      self.nextLine.ensureUpdateHunkIsNotEmpty (Text.trim self.lineBuffer)
      .ok { self.nextLine with mode := .endedPatch }
    else self.nextLine.processLine self.lineBuffer
  if next.mode = .endedPatch then .ok next
  else .error (.invalidPatchError lastLineMustEnd)

end StreamingPatchParser

def checkStartAndEndLinesStrict (firstLine lastLine : Option Text) : Except ParseError Unit :=
  match firstLine.map Text.trim, lastLine.map Text.trim with
  | some first, some last =>
    if first = beginPatchMarker ∧ last = endPatchMarker then .ok ()
    else if first ≠ beginPatchMarker then .error (.invalidPatchError firstLineMustBegin)
    else .error (.invalidPatchError lastLineMustEnd)
  | some first, none =>
    if first ≠ beginPatchMarker then .error (.invalidPatchError firstLineMustBegin)
    else .error (.invalidPatchError lastLineMustEnd)
  | none, _ => .error (.invalidPatchError lastLineMustEnd)

def checkPatchBoundariesStrict (lines : List Text) : Except ParseError (List Text) := do
  checkStartAndEndLinesStrict lines.head? lines.getLast?
  .ok lines

def checkPatchBoundariesLenient (originalLines : List Text) : Except ParseError (List Text) :=
  match checkPatchBoundariesStrict originalLines with
  | .ok lines => .ok lines
  | .error originalParseError =>
    match originalLines.head?, originalLines.getLast? with
    | some first, some last =>
      if (first = "<<EOF".toList ∨ first = "<<'EOF'".toList ∨ first = "<<\"EOF\"".toList) ∧
          "EOF".toList.isSuffixOf last ∧ 4 ≤ originalLines.length then
        checkPatchBoundariesStrict originalLines.tail.dropLast
      else .error originalParseError
    | _, _ => .error originalParseError

/-- `parse_patch`, which is lenient. The `environment_id` of the arguments stands beside them. -/
def parsePatch (patch : Text) : Except ParseError (ApplyPatchArgs × Option Text) := do
  let patchLines ← checkPatchBoundariesLenient (Text.lines (Text.trim patch))
  let patch := List.intercalate ['\n'] patchLines
  let parser ← StreamingPatchParser.new.pushDelta patch
  let parser ← parser.finish
  .ok (⟨patch, parser.hunks, none⟩, parser.environmentId)

end Codex.ApplyPatch

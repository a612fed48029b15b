import Codex.ApplyPatch.TextFile
import Codex.Lib.Trim
import Mathlib.Data.List.Sort

/-! `apply-patch/src/file_update.rs` and `seek_sequence.rs`. A panic of the source is an error of
its own. -/

namespace Codex.ApplyPatch
open Codex.Lib

inductive ApplyPatchFileUpdateMode where
  | normalizeToLf
  | preserveLineEndings
  deriving DecidableEq, Repr

structure UpdateFileChunk where
  changeContext : Option Text
  oldLines : List Text
  newLines : List Text
  contextLineIndices : List (Nat × Nat)
  isEndOfFile : Bool
  deriving DecidableEq, Repr

/-- Failures of `compute_replacements`: its message, or a slice out of range. -/
inductive UpdateError where
  | computeReplacements (message : Text)
  | panicked
  deriving DecidableEq, Repr

def normaliseChar (c : Char) : Char :=
  let n := c.toNat
  if (0x2010 ≤ n && n ≤ 0x2015) || n = 0x2212 then '-'
  else if 0x2018 ≤ n && n ≤ 0x201B then Char.ofNat 39
  else if 0x201C ≤ n && n ≤ 0x201F then Char.ofNat 34
  else if n = 0xA0 || (0x2002 ≤ n && n ≤ 0x200A) || n = 0x202F || n = 0x205F || n = 0x3000 then ' '
  else c

def normalise (s : Text) : Text := (Text.trim s).map normaliseChar

def seekBy (view : Text → Text) (lines pattern : List Text) (searchStart : Nat) : Option Nat :=
  (List.range' searchStart (lines.length - pattern.length + 1 - searchStart)).find? fun i =>
    ((lines.drop i).take pattern.length).map view = pattern.map view

def seekSequence (lines pattern : List Text) (start : Nat) (eof : Bool)
    (mode : ApplyPatchFileUpdateMode) : Option Nat :=
  if pattern = [] then some start
  else if lines.length < pattern.length then none
  else
    let eofStart := lines.length - pattern.length
    let searchStart :=
      if eof then
        match mode with
        | .normalizeToLf => eofStart
        | .preserveLineEndings => max eofStart start
      else start
    (seekBy id lines pattern searchStart).or <|
      (seekBy Text.trimEnd lines pattern searchStart).or <|
        (seekBy Text.trim lines pattern searchStart).or <|
          seekBy normalise lines pattern searchStart

def lastIsEmpty (lines : List Text) : Bool := lines.getLast? = some []

def contextReplacements (startIdx patternLen : Nat) (newSlice : List Text) :
    List (Nat × Nat) → Nat → Nat → Except UpdateError (List Replacement)
  | [], oldStart, newStart => .ok (remaining oldStart newStart)
  | (oldContext, newContext) :: rest, oldStart, newStart =>
    if patternLen ≤ oldContext ∨ newSlice.length ≤ newContext then
      .ok (remaining oldStart newStart)
    else if oldContext < oldStart ∨ newContext < newStart then .error .panicked
    else do
      let later ← contextReplacements startIdx patternLen newSlice rest (oldContext + 1)
        (newContext + 1)
      if oldStart ≠ oldContext ∨ newStart ≠ newContext then
        .ok ((startIdx + oldStart, oldContext - oldStart,
          (newSlice.drop newStart).take (newContext - newStart)) :: later)
      else .ok later
where
  remaining (oldStart newStart : Nat) : List Replacement :=
    if oldStart ≠ patternLen ∨ newStart ≠ newSlice.length then
      [(startIdx + oldStart, patternLen - oldStart, newSlice.drop newStart)]
    else []

def seekContext (originalLines : List Text) (path : Text) (mode : ApplyPatchFileUpdateMode)
    (lineIndex : Nat) (changeContext : Option Text) : Except UpdateError Nat :=
  match changeContext with
  | none => .ok lineIndex
  | some ctxLine =>
    match seekSequence originalLines [ctxLine] lineIndex false mode with
    | some idx => .ok (idx + 1)
    | none => .error (.computeReplacements
        ("Failed to find context '".toList ++ ctxLine ++ "' in ".toList ++ path))

def insertionIndex (originalLines : List Text) : ApplyPatchFileUpdateMode → Nat
  | .normalizeToLf =>
    if lastIsEmpty originalLines then originalLines.length - 1 else originalLines.length
  | .preserveLineEndings => originalLines.length

def seekChunk (originalLines : List Text) (chunk : UpdateFileChunk) (lineIndex : Nat)
    (mode : ApplyPatchFileUpdateMode) : Option (Nat × List Text × List Text) :=
  match seekSequence originalLines chunk.oldLines lineIndex chunk.isEndOfFile mode with
  | some start => some (start, chunk.oldLines, chunk.newLines)
  | none =>
    if lastIsEmpty chunk.oldLines then
      let pattern := chunk.oldLines.dropLast
      let newSlice := if lastIsEmpty chunk.newLines then chunk.newLines.dropLast else chunk.newLines
      (seekSequence originalLines pattern lineIndex chunk.isEndOfFile mode).map fun start =>
        (start, pattern, newSlice)
    else none

/-- One round of the loop of `compute_replacements`: what is pushed, and the new `line_index`. -/
def chunkReplacements (originalLines : List Text) (path : Text) (mode : ApplyPatchFileUpdateMode)
    (lineIndex : Nat) (chunk : UpdateFileChunk) : Except UpdateError (List Replacement × Nat) := do
  let lineIndex ← seekContext originalLines path mode lineIndex chunk.changeContext
  if chunk.oldLines = [] then
    .ok ([(insertionIndex originalLines mode, 0, chunk.newLines)], lineIndex)
  else
    match seekChunk originalLines chunk lineIndex mode with
    | none => .error (.computeReplacements
        ("Failed to find expected lines in ".toList ++ path ++ ":\n".toList ++
          List.intercalate ['\n'] chunk.oldLines))
    | some (start, pattern, newSlice) =>
      match mode with
      | .normalizeToLf => .ok ([(start, pattern.length, newSlice)], start + pattern.length)
      | .preserveLineEndings => do
        let regions ← contextReplacements start pattern.length newSlice chunk.contextLineIndices 0 0
        .ok (regions, start + pattern.length)

def collectReplacements (originalLines : List Text) (path : Text)
    (mode : ApplyPatchFileUpdateMode) :
    List UpdateFileChunk → Nat → Except UpdateError (List Replacement)
  | [], _ => .ok []
  | chunk :: rest, lineIndex => do
    let (pushed, lineIndex) ← chunkReplacements originalLines path mode lineIndex chunk
    let later ← collectReplacements originalLines path mode rest lineIndex
    .ok (pushed ++ later)

/-- The final sort is stable, as insertion sort is. -/
def computeReplacements (originalLines : List Text) (path : Text) (chunks : List UpdateFileChunk)
    (mode : ApplyPatchFileUpdateMode) : Except UpdateError (List Replacement) :=
  (collectReplacements originalLines path mode chunks 0).map
    (List.insertionSort fun r s => r.1 ≤ s.1)

def removeLines (start : Nat) : Nat → List Text → List Text
  | 0, lines => lines
  | n + 1, lines => removeLines start n (lines.eraseIdx start)

def insertLines (start : Nat) : List Text → List Text → List Text
  | [], lines => lines
  | line :: rest, lines => insertLines (start + 1) rest (lines.insertIdx start line)

def applyReplacement (lines : List Text) : Replacement → List Text
  | (start, oldLen, segment) => insertLines start segment (removeLines start oldLen lines)

def applyReplacements (lines : List Text) (replacements : List Replacement) : List Text :=
  replacements.reverse.foldl applyReplacement lines

def newContents (path : Text) (chunks : List UpdateFileChunk) (mode : ApplyPatchFileUpdateMode)
    (original : Text) : Except UpdateError Text :=
  match mode with
  | .normalizeToLf => do
    let split := original.splitOn '\n'
    let originalLines := if lastIsEmpty split then split.dropLast else split
    let replacements ← computeReplacements originalLines path chunks mode
    let newLines := applyReplacements originalLines replacements
    .ok (List.intercalate ['\n'] (if lastIsEmpty newLines then newLines else newLines ++ [[]]))
  | .preserveLineEndings => do
    let sourceFile := SourceFile.parse original
    let replacements ← computeReplacements sourceFile.lineTexts path chunks mode
    match sourceFile.applyReplacements replacements with
    | some updated => .ok updated.intoContents
    | none => .error .panicked

end Codex.ApplyPatch

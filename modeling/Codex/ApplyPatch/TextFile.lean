import Codex.Lib.Text

/-! `apply-patch/src/text_file.rs`. -/

namespace Codex.ApplyPatch
open Codex.Lib

abbrev Replacement := Nat × Nat × List Text

inductive LineEnding where
  | lf
  | crLf
  | cr
  deriving DecidableEq, Repr

def LineEnding.asStr : LineEnding → Text
  | lf => ['\n']
  | crLf => ['\r', '\n']
  | cr => ['\r']

structure SourceLine where
  text : Text
  ending : Option LineEnding
  deriving DecidableEq, Repr

structure SourceFile where
  lines : List SourceLine
  preferredEnding : LineEnding
  deriving DecidableEq, Repr

namespace SourceFile

def parseLines (line : Text) : Text → List SourceLine
  | [] => if line = [] then [] else [⟨line, none⟩]
  | '\r' :: '\n' :: rest => ⟨line, some .crLf⟩ :: parseLines [] rest
  | '\r' :: rest => ⟨line, some .cr⟩ :: parseLines [] rest
  | '\n' :: rest => ⟨line, some .lf⟩ :: parseLines [] rest
  | c :: rest => parseLines (line ++ [c]) rest

def parse (contents : Text) : SourceFile :=
  let lines := parseLines [] contents
  ⟨lines, (lines.findSome? SourceLine.ending).getD .lf⟩

def lineTexts (self : SourceFile) : List Text := self.lines.map SourceLine.text

/-- The loop of `apply_replacements` over what is left of the source lines. `none` is the
overflow of `start_idx - source_index`. -/
def replaceFrom (preferred : LineEnding) :
    List Replacement → List SourceLine → Nat → Option (List SourceLine)
  | [], source, _ => some source
  | (start, oldLen, segment) :: rest, source, index =>
    if start < index then none
    else
      let kept := source.take (start - index)
      let inserted := segment.map fun text => (⟨text, some preferred⟩ : SourceLine)
      (replaceFrom preferred rest ((source.drop (start - index)).drop oldLen)
        (start + oldLen)).map fun tail => kept ++ inserted ++ tail

def applyReplacements (self : SourceFile) (replacements : List Replacement) : Option SourceFile :=
  (replaceFrom self.preferredEnding replacements self.lines 0).map fun lines =>
    { self with
      lines := lines.map fun line =>
        { line with ending := some (line.ending.getD self.preferredEnding) } }

def intoContents (self : SourceFile) : Text :=
  self.lines.flatMap fun line => line.text ++ (line.ending.map LineEnding.asStr).getD []

end SourceFile

end Codex.ApplyPatch

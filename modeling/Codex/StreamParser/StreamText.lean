import Codex.Lib.Chunked
import Codex.Lib.Text

/-! `utils/stream-parser/src/stream_text.rs`. -/

namespace Codex.StreamParser
open Codex.Lib

structure StreamTextChunk (T : Type) where
  visibleText : Text
  extracted : List T
  deriving DecidableEq, Repr

namespace StreamTextChunk
variable {T : Type}

def empty : StreamTextChunk T := ⟨[], []⟩

def append (self other : StreamTextChunk T) : StreamTextChunk T :=
  ⟨self.visibleText ++ other.visibleText, self.extracted ++ other.extracted⟩

@[simp] theorem empty_append (chunk : StreamTextChunk T) : empty.append chunk = chunk := rfl

@[simp] theorem append_empty (chunk : StreamTextChunk T) : chunk.append empty = chunk := by
  simp [append, empty]

theorem append_assoc (a b c : StreamTextChunk T) :
    (a.append b).append c = a.append (b.append c) := by
  simp [append]

end StreamTextChunk

/-- The trait `StreamTextParser`, for parsers with the states `σ`. -/
structure StreamTextParser (σ T : Type) where
  pushStr : σ → Text → StreamTextChunk T × σ
  finish : σ → StreamTextChunk T × σ

namespace StreamTextParser
variable {σ T : Type} (parser : StreamTextParser σ T)

def feed (all : StreamTextChunk T × σ) (chunk : Text) : StreamTextChunk T × σ :=
  (all.1.append (parser.pushStr all.2 chunk).1, (parser.pushStr all.2 chunk).2)

def collectChunks (s : σ) (chunks : List Text) : StreamTextChunk T :=
  let all := chunks.foldl parser.feed (.empty, s)
  all.1.append (parser.finish all.2).1

def ChunkIndependent (s : σ) : Prop :=
  ∀ chunks, parser.collectChunks s chunks = parser.collectChunks s [chunks.flatten]

def Additive : Prop :=
  ∀ s a b, parser.pushStr s (a ++ b) =
    ((parser.pushStr s a).1.append (parser.pushStr (parser.pushStr s a).2 b).1,
      (parser.pushStr (parser.pushStr s a).2 b).2)

variable {parser}

theorem Additive.chunkIndependent (h : parser.Additive) {s : σ}
    (hnil : parser.pushStr s [] = (.empty, s)) : parser.ChunkIndependent s := by
  have happend : ∀ all a b, parser.feed all (a ++ b) = parser.feed (parser.feed all a) b := by
    intro all a b
    simp only [feed, h all.2 a b, StreamTextChunk.append_assoc]
  have hstart : parser.feed (.empty, s) [] = (.empty, s) := by
    rw [feed, hnil]
    rfl
  intro chunks
  rw [collectChunks, collectChunks, Chunked.foldl_eq_flatten happend chunks hstart]
  rfl

end StreamTextParser

end Codex.StreamParser

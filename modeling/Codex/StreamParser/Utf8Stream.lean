import Codex.Lib.Utf8
import Codex.StreamParser.InlineHiddenTag

/-! `utils/stream-parser/src/utf8_stream.rs`: a character that a chunk cuts off waits for its other
bytes. -/

namespace Codex.StreamParser
open Codex.Lib List

inductive Utf8StreamParserError where
  | invalidUtf8 (validUpTo errorLen : Nat)
  | incompleteUtf8AtEof
  deriving DecidableEq, Repr

/-- `Utf8StreamParser`, with `σ` the states of the inner parser. -/
structure Utf8StreamParser (σ : Type) where
  inner : σ
  pendingUtf8 : Bytes

namespace Utf8StreamParser
variable {σ T : Type} (parser : StreamTextParser σ T)

def new (inner : σ) : Utf8StreamParser σ := ⟨inner, []⟩

def pushBytes (self : Utf8StreamParser σ) (chunk : Bytes) :
    Except Utf8StreamParserError (StreamTextChunk T) × Utf8StreamParser σ :=
  let oldLen := self.pendingUtf8.length
  let pending := self.pendingUtf8 ++ chunk
  match Text.fromUtf8 pending with
  | .ok text =>
    let (out, inner) := parser.pushStr self.inner text
    (.ok out, ⟨inner, []⟩)
  | .error err =>
    match err.errorLen with
    | some errorLen =>
      (.error (.invalidUtf8 err.validUpTo errorLen), ⟨self.inner, pending.take oldLen⟩)
    | none =>
      if err.validUpTo = 0 then (.ok .empty, ⟨self.inner, pending⟩)
      else
        match Text.fromUtf8 (pending.take err.validUpTo) with
        | .ok text =>
          let (out, inner) := parser.pushStr self.inner text
          (.ok out, ⟨inner, pending.drop err.validUpTo⟩)
        | .error prefixErr =>
          (.error (.invalidUtf8 prefixErr.validUpTo (prefixErr.errorLen.getD 0)),
            ⟨self.inner, pending.take oldLen⟩)

def finish (self : Utf8StreamParser σ) :
    Except Utf8StreamParserError (StreamTextChunk T) × Utf8StreamParser σ :=
  if self.pendingUtf8 = [] then
    let (tail, inner) := parser.finish self.inner
    (.ok (StreamTextChunk.empty.append tail), ⟨inner, []⟩)
  else
    match Text.fromUtf8 self.pendingUtf8 with
    | .error err =>
      match err.errorLen with
      | some errorLen => (.error (.invalidUtf8 err.validUpTo errorLen), self)
      | none => (.error .incompleteUtf8AtEof, self)
    | .ok text =>
      let (out, inner) := parser.pushStr self.inner text
      let (tail, inner) := parser.finish inner
      (.ok (out.append tail), ⟨inner, []⟩)

def pushAll (self : Utf8StreamParser σ) :
    List Bytes → Except Utf8StreamParserError (StreamTextChunk T × Utf8StreamParser σ)
  | [] => .ok (.empty, self)
  | chunk :: chunks =>
    match pushBytes parser self chunk with
    | (.error err, _) => .error err
    | (.ok out, self) => (pushAll self chunks).map fun (rest, self) => (out.append rest, self)

def collectBytes (self : Utf8StreamParser σ) (chunks : List Bytes) :
    Except Utf8StreamParserError (StreamTextChunk T) := do
  let (out, self) ← pushAll parser self chunks
  let tail ← (finish parser self).1
  return out.append tail

/-- One more chunk for a caller that drops the chunks with an error, with the output so far. -/
def feedDropping (all : StreamTextChunk T × Utf8StreamParser σ) (chunk : Bytes) :
    StreamTextChunk T × Utf8StreamParser σ :=
  match pushBytes parser all.2 chunk with
  | (.error _, self) => (all.1, self)
  | (.ok out, self) => (all.1.append out, self)

/-- The output of the chunks that have no error, and what `finish` gives after them. -/
def collectDropping (self : Utf8StreamParser σ) (chunks : List Bytes) :
    StreamTextChunk T × Except Utf8StreamParserError (StreamTextChunk T) :=
  let all := chunks.foldl (feedDropping parser) (.empty, self)
  (all.1, (finish parser all.2).1)

variable {parser}

theorem pushBytes_of_error {self : Utf8StreamParser σ} {chunk : Bytes}
    {err : Utf8StreamParserError} (h : (pushBytes parser self chunk).1 = .error err) :
    (pushBytes parser self chunk).2 = self := by
  have hback : (self.pendingUtf8 ++ chunk).take self.pendingUtf8.length = self.pendingUtf8 :=
    take_left
  revert h
  simp only [pushBytes, hback]
  split
  · simp
  · split
    · simp
    · split
      · simp
      · split <;> simp

theorem feedDropping_of_error {all : StreamTextChunk T × Utf8StreamParser σ} {chunk : Bytes}
    {err : Utf8StreamParserError} (h : (pushBytes parser all.2 chunk).1 = .error err) :
    feedDropping parser all chunk = all := by
  have hstate := pushBytes_of_error h
  unfold feedDropping
  split
  · next heq =>
    rw [heq] at hstate
    exact Prod.ext rfl hstate
  · next heq =>
    rw [heq] at h
    cases h

theorem foldl_feed (all : StreamTextChunk T × σ) (texts : List Text) :
    texts.foldl parser.feed all =
      (all.1.append (texts.foldl parser.feed (.empty, all.2)).1,
        (texts.foldl parser.feed (.empty, all.2)).2) := by
  induction texts generalizing all with
  | nil => simp
  | cons text texts ih =>
    rw [foldl_cons, foldl_cons, ih, ih (parser.feed (.empty, all.2) text)]
    simp only [StreamTextParser.feed, StreamTextChunk.empty_append, StreamTextChunk.append_assoc]

variable (parser)

theorem pushBytes_unfinished {self : Utf8StreamParser σ} {chunk tail : Bytes} {text rest : Text}
    (h : self.pendingUtf8 ++ chunk = Text.bytes text ++ tail)
    (htail : Framing.Unfinished String.utf8EncodeChar rest tail) :
    ∃ texts : List Text, texts.flatten = text ∧
      pushBytes parser self chunk =
        (.ok (texts.foldl parser.feed (.empty, self.inner)).1,
          ⟨(texts.foldl parser.feed (.empty, self.inner)).2, tail⟩) := by
  unfold pushBytes
  simp only [h]
  by_cases hnil : tail = []
  · rw [hnil, append_nil, Text.fromUtf8_bytes]
    exact ⟨[text], by simp, rfl⟩
  · rw [Text.fromUtf8_unfinished hnil htail]
    by_cases hempty : text = []
    · exact ⟨[], by simp [hempty], by simp [hempty]⟩
    · have hlen : (Text.bytes text).length ≠ 0 := by
        intro hzero
        exact hempty (Text.bytes_injective (eq_nil_of_length_eq_zero hzero))
      simp only [if_neg hlen, take_left, drop_left, Text.fromUtf8_bytes]
      exact ⟨[text], by simp, rfl⟩

theorem pushAll_bytes {chunks : List Bytes} {self : Utf8StreamParser σ} {rest : Text}
    (hpending : Framing.Unfinished String.utf8EncodeChar rest self.pendingUtf8)
    (h : self.pendingUtf8 ++ chunks.flatten = Text.bytes rest) :
    ∃ texts : List Text, texts.flatten = rest ∧
      pushAll parser self chunks =
        .ok ((texts.foldl parser.feed (.empty, self.inner)).1,
          ⟨(texts.foldl parser.feed (.empty, self.inner)).2, []⟩) := by
  induction chunks generalizing self rest with
  | nil =>
    rw [flatten_nil, append_nil] at h
    have hrest : rest = [] := hpending.eq_nil h
    have hnil : self.pendingUtf8 = [] := by rw [h, hrest]; rfl
    refine ⟨[], hrest.symm, ?_⟩
    cases self
    simp only at hnil
    simp [pushAll, hnil]
  | cons chunk chunks ih =>
    have hcome : self.pendingUtf8 ++ chunk <+: Text.bytes rest :=
      ⟨chunks.flatten, by rw [← h, flatten_cons, append_assoc]⟩
    obtain ⟨text, later, tail, rfl, hbytes, htail⟩ := Framing.exists_unfinished hcome
    have hlater : tail ++ chunks.flatten = Text.bytes later := by
      rw [flatten_cons, ← append_assoc, hbytes, Text.bytes_append, append_assoc] at h
      exact append_cancel_left h
    obtain ⟨texts, rfl, hpush⟩ := pushBytes_unfinished parser hbytes htail
    obtain ⟨others, rfl, hothers⟩ :=
      @ih ⟨(texts.foldl parser.feed (.empty, self.inner)).2, tail⟩ later htail hlater
    refine ⟨texts ++ others, flatten_append, ?_⟩
    rw [pushAll, hpush]
    simp only [hothers, Except.map, foldl_append]
    rw [foldl_feed (texts.foldl parser.feed (.empty, self.inner)) others]

/-- However the bytes of a text are split, the output is that of the inner parser on the text. A
chunk with an error changes nothing: without it the outputs are the same. -/
theorem byte_streaming_is_transparent_and_rolls_back :
    (∀ s, parser.ChunkIndependent s → ∀ text chunks, chunks.flatten = Text.bytes text →
      collectBytes parser (.new s) chunks = .ok (parser.collectChunks s [text])) ∧
    (∀ self chunk err, (pushBytes parser self chunk).1 = .error err →
      (pushBytes parser self chunk).2 = self) ∧
    ∀ self before chunk after err,
      (pushBytes parser (before.foldl (feedDropping parser) (.empty, self)).2 chunk).1 =
        .error err →
      collectDropping parser self (before ++ chunk :: after) =
        collectDropping parser self (before ++ after) := by
  refine ⟨?_, fun _ _ _ => pushBytes_of_error, ?_⟩
  · intro s hinner text chunks hchunks
    have hstart : Framing.Unfinished String.utf8EncodeChar text (new s).pendingUtf8 :=
      Framing.unfinished_nil fun _ _ => String.utf8EncodeChar_ne_nil
    obtain ⟨texts, rfl, hall⟩ := pushAll_bytes parser hstart hchunks
    have hfinish : collectBytes parser (new s) chunks = .ok (parser.collectChunks s texts) := by
      rw [collectBytes, hall]
      rfl
    rw [hfinish, hinner texts]
  · intro self before chunk after err herr
    simp only [collectDropping, foldl_append, foldl_cons, feedDropping_of_error herr]

theorem byte_streaming_split_code_point :
    let chunks : List Bytes := [[0x41, 0xC3], [0xA9, 0x42, 0xE4, 0xB8], [0xAD]]
    let cut : Utf8StreamParser CitationStreamParser := ⟨.new, [0xC3]⟩
    chunks.flatten = Text.bytes ['A', 'é', 'B', '中'] ∧
    collectBytes citationStreamParser (.new .new) chunks =
      .ok (citationStreamParser.collectChunks .new [['A', 'é', 'B', '中']]) ∧
    (pushBytes citationStreamParser cut [0x28]).1 = .error (.invalidUtf8 0 1) ∧
    (pushBytes citationStreamParser cut [0x28]).2 = cut ∧
    collectDropping citationStreamParser cut [[0x28], [0xA9]] =
      collectDropping citationStreamParser cut [[0xA9]] := by
  have hall := byte_streaming_is_transparent_and_rolls_back citationStreamParser
  have herr : (pushBytes citationStreamParser ⟨.new, [0xC3]⟩ [0x28]).1 =
    .error (.invalidUtf8 0 1) := rfl
  exact ⟨by decide, hall.1 _ citations_chunkIndependent _ _ (by decide), herr,
    hall.2.1 _ _ _ herr, hall.2.2 _ [] _ [[0xA9]] _ herr⟩

end Utf8StreamParser
end Codex.StreamParser

import Mathlib.Algebra.Group.Nat.Defs
import Codex.Lib.Text

/-! `HeadTailBuffer` of `core/src/unified_exec/head_tail_buffer.rs`. `push_buffer` appends the
output that another buffer stands for without having it; it works as if it had. -/

namespace Codex.UnifiedExec
open Codex.Lib List

def saturatingAdd (a b : Nat) : Nat := min (a + b) (2 ^ 64 - 1)

theorem saturatingAdd_eq {a b : Nat} (h : a + b < 2 ^ 64) : saturatingAdd a b = a + b := by
  rw [saturatingAdd]
  omega

/-- `MAX_BYTES` is a parameter of the type, as in the source. -/
@[ext]
structure HeadTailBuffer (maxBytes : Nat) where
  head : Bytes
  tail : Bytes
  omittedBytes : Nat
  deriving DecidableEq, Repr

namespace HeadTailBuffer

def headBudget (maxBytes : Nat) : Nat := maxBytes / 2

def tailBudget (maxBytes : Nat) : Nat := maxBytes - headBudget maxBytes

variable {maxBytes : Nat}

def default : HeadTailBuffer maxBytes := ⟨[], [], 0⟩

def fillHead (self : HeadTailBuffer maxBytes) (chunk : Bytes) : HeadTailBuffer maxBytes × Bytes :=
  let remainingHead := headBudget maxBytes - self.head.length
  -- `split_at_checked`: a shorter chunk fits entirely
  let (chunkHead, chunkTail) :=
    if remainingHead ≤ chunk.length then (chunk.take remainingHead, chunk.drop remainingHead)
    else (chunk, [])
  ({ self with head := self.head ++ chunkHead }, chunkTail)

def pushTail (self : HeadTailBuffer maxBytes) (chunk : Bytes) : HeadTailBuffer maxBytes :=
  let remainingTail := tailBudget maxBytes - self.tail.length
  let excessTail := chunk.length - remainingTail
  { self with
    omittedBytes := saturatingAdd self.omittedBytes excessTail
    tail :=
      if excessTail < self.tail.length then self.tail.drop excessTail ++ chunk
      else chunk.drop (excessTail - self.tail.length) }

def pushChunk (self : HeadTailBuffer maxBytes) (chunk : Bytes) : HeadTailBuffer maxBytes :=
  let (self, chunk) := self.fillHead chunk
  self.pushTail chunk

/-- Where the destination of `push_buffer` has no head it takes over the one of the source. -/
def takeHead (self : HeadTailBuffer maxBytes) (head : Bytes) : HeadTailBuffer maxBytes × Bytes :=
  if self.head.isEmpty then ({ self with head }, []) else self.fillHead head

/-- The second half of `push_buffer`. A full source tail displaces the old tail and the unused
part of the source head; `middle` is where its ring wraps, which `as_slices` shows. -/
def takeTail (self : HeadTailBuffer maxBytes) (overflow tail : Bytes) (middle : Nat) :
    HeadTailBuffer maxBytes :=
  if tail.length = tailBudget maxBytes then
    { self with
      omittedBytes :=
        saturatingAdd (saturatingAdd self.omittedBytes self.tail.length) overflow.length
      tail }
  else
    let self := self.pushTail overflow
    if self.tail.isEmpty then { self with tail }
    else (self.pushTail (tail.take middle)).pushTail (tail.drop middle)

def pushBuffer (self : HeadTailBuffer maxBytes) (middle : Nat) (buffer : HeadTailBuffer maxBytes) :
    HeadTailBuffer maxBytes :=
  let self := { self with omittedBytes := saturatingAdd self.omittedBytes buffer.omittedBytes }
  let (self, overflow) := self.takeHead buffer.head
  self.takeTail overflow buffer.tail middle

def ofChunks (chunks : List Bytes) : HeadTailBuffer maxBytes := chunks.foldl pushChunk default

def summary (maxBytes : Nat) (output : Bytes) : HeadTailBuffer maxBytes where
  head := output.take (headBudget maxBytes)
  tail := (output.drop (headBudget maxBytes)).rtake (tailBudget maxBytes)
  omittedBytes := output.length - headBudget maxBytes - tailBudget maxBytes

theorem length_rtake {α : Type} (xs : List α) (k : Nat) :
    (xs.rtake k).length = min xs.length k := by
  rw [List.rtake, length_drop]
  omega

theorem rtake_of_le {α : Type} {xs : List α} {k : Nat} (h : xs.length ≤ k) : xs.rtake k = xs := by
  rw [List.rtake, Nat.sub_eq_zero_of_le h, drop_zero]

theorem rtake_append_of_le {α : Type} {xs ys : List α} {k : Nat} (h : k ≤ ys.length) :
    (xs ++ ys).rtake k = ys.rtake k := by
  rw [List.rtake, List.rtake, drop_append, length_append, drop_eq_nil_of_le (by omega), nil_append]
  congr 1
  omega

theorem rtake_rtake_append {α : Type} (xs ys : List α) (k : Nat) :
    (xs.rtake k ++ ys).rtake k = (xs ++ ys).rtake k := by
  rcases le_total xs.length k with h | h
  · rw [rtake_of_le h]
  · have hsplit : xs ++ ys = xs.take (xs.length - k) ++ (xs.rtake k ++ ys) := by
      rw [List.rtake, ← append_assoc, take_append_drop]
    have hlong : k ≤ (xs.rtake k ++ ys).length := by
      rw [length_append, length_rtake]
      omega
    rw [hsplit, rtake_append_of_le hlong]

theorem rtake_append_rtake {α : Type} (xs ys : List α) (k : Nat) :
    (xs ++ ys.rtake k).rtake k = (xs ++ ys).rtake k := by
  rcases le_total ys.length k with h | h
  · rw [rtake_of_le h]
  · have hlast : k ≤ (ys.rtake k).length := by
      rw [length_rtake]
      omega
    rw [rtake_append_of_le hlast, rtake_append_of_le h, rtake_of_le]
    rw [length_rtake]
    exact Nat.min_le_right _ _

section

variable {self : HeadTailBuffer maxBytes} {chunk xs ys : Bytes}

theorem fillHead_eq :
    self.fillHead chunk =
      ({ self with head := self.head ++ chunk.take (headBudget maxBytes - self.head.length) },
        chunk.drop (headBudget maxBytes - self.head.length)) := by
  rw [fillHead]
  by_cases h : headBudget maxBytes - self.head.length ≤ chunk.length
  · simp only [if_pos h]
  · simp only [if_neg h]
    rw [take_of_length_le (by omega), drop_eq_nil_of_le (by omega)]

theorem fillHead_of_head (h : self.head = xs.take (headBudget maxBytes)) :
    self.fillHead ys =
      ({ self with head := (xs ++ ys).take (headBudget maxBytes) },
        ys.drop (headBudget maxBytes - xs.length)) := by
  have hmissing : headBudget maxBytes - self.head.length = headBudget maxBytes - xs.length := by
    rw [h, length_take]
    omega
  rw [fillHead_eq, hmissing, take_append, h]

theorem takeHead_of_head (h : self.head = xs.take (headBudget maxBytes)) :
    self.takeHead (ys.take (headBudget maxBytes)) =
      ({ self with head := (xs ++ ys).take (headBudget maxBytes) },
        (ys.take (headBudget maxBytes)).drop (headBudget maxBytes - xs.length)) := by
  have hhead : (xs ++ ys.take (headBudget maxBytes)).take (headBudget maxBytes) =
      (xs ++ ys).take (headBudget maxBytes) := by
    rw [List.take_append, List.take_append, List.take_take, Nat.min_eq_left (Nat.sub_le _ _)]
  rw [takeHead]
  split
  case isTrue hempty =>
    rw [List.isEmpty_iff, h, List.take_eq_nil_iff] at hempty
    rcases hempty with hbudget | rfl
    · simp [hbudget]
    · simp
  case isFalse => rw [fillHead_of_head h, hhead]

theorem pushTail_eq (h : self.tail.length ≤ tailBudget maxBytes)
    (hlimit : self.omittedBytes + chunk.length < 2 ^ 64) :
    self.pushTail chunk =
      { self with
        tail := (self.tail ++ chunk).rtake (tailBudget maxBytes)
        omittedBytes :=
          self.omittedBytes + (self.tail.length + chunk.length - tailBudget maxBytes) } := by
  have hexcess : chunk.length - (tailBudget maxBytes - self.tail.length) =
      self.tail.length + chunk.length - tailBudget maxBytes := by omega
  rw [pushTail, hexcess, saturatingAdd_eq (by omega)]
  congr 1
  rw [List.rtake, length_append, drop_append]
  split
  · rw [Nat.sub_eq_zero_of_le (by omega : _ ≤ self.tail.length), drop_zero]
  · rw [drop_eq_nil_of_le (by omega : self.tail.length ≤ _), nil_append]

theorem pushTail_pushTail (h : self.tail.length ≤ tailBudget maxBytes)
    (hlimit : self.omittedBytes + self.tail.length + (xs ++ ys).length < 2 ^ 64) :
    (self.pushTail xs).pushTail ys = self.pushTail (xs ++ ys) := by
  rw [length_append] at hlimit
  have hxs : self.omittedBytes + xs.length < 2 ^ 64 := by omega
  rw [pushTail_eq h hxs, pushTail_eq, pushTail_eq h]
  · ext1
    · rfl
    · simp only [rtake_rtake_append, append_assoc]
    · simp only [length_rtake, length_append]
      omega
  · rw [length_append]
    omega
  · rw [length_rtake]
    exact Nat.min_le_right _ _
  · dsimp only
    omega

theorem takeTail_eq {overflow tail : Bytes} (middle : Nat)
    (h : self.tail.length ≤ tailBudget maxBytes) (hsource : tail.length ≤ tailBudget maxBytes)
    (hlimit : self.omittedBytes + self.tail.length + (overflow ++ tail).length < 2 ^ 64) :
    self.takeTail overflow tail middle = self.pushTail (overflow ++ tail) := by
  rw [List.length_append] at hlimit
  rw [takeTail]
  split
  case isTrue hfull =>
    rw [pushTail_eq h (by rw [List.length_append]; omega)]
    ext1
    · rfl
    · dsimp only
      rw [← List.append_assoc, rtake_append_of_le hfull.ge, rtake_of_le hsource]
    · dsimp only
      rw [saturatingAdd_eq (b := self.tail.length) (by omega), saturatingAdd_eq (by omega),
        List.length_append]
      omega
  case isFalse hpartial =>
    dsimp only
    split
    case isTrue hempty =>
      -- nothing was there and nothing has been added
      rw [List.isEmpty_iff, pushTail_eq h (by omega)] at hempty
      have hnothing : self.tail = [] ∧ overflow = [] := by
        have hlength := congrArg List.length hempty
        simp only [length_rtake, List.length_append, List.length_nil] at hlength
        exact ⟨List.eq_nil_of_length_eq_zero (by omega), List.eq_nil_of_length_eq_zero (by omega)⟩
      obtain ⟨htail, rfl⟩ := hnothing
      rw [List.length_nil] at hlimit
      rw [List.nil_append, pushTail_eq h (by rw [List.length_nil]; omega), pushTail_eq h (by omega)]
      ext1
      · rfl
      · simp only [htail, List.nil_append, rtake_of_le hsource]
      · simp only [htail, List.length_nil]
        omega
    case isFalse =>
      have hpushed : (self.pushTail overflow).tail.length ≤ tailBudget maxBytes := by
        rw [pushTail_eq h (by omega), length_rtake]
        exact Nat.min_le_right _ _
      rw [pushTail_pushTail hpushed, List.take_append_drop, pushTail_pushTail h]
      · rw [List.length_append]
        omega
      · rw [pushTail_eq h (by omega), List.take_append_drop]
        simp only [length_rtake, List.length_append]
        omega

end

section

variable {xs ys : Bytes}

theorem length_summary_tail :
    (summary maxBytes xs).tail.length =
      min (xs.length - headBudget maxBytes) (tailBudget maxBytes) := by
  rw [summary, length_rtake, length_drop]

theorem pushChunk_summary (hlimit : (xs ++ ys).length < 2 ^ 64) :
    (summary maxBytes xs).pushChunk ys = summary maxBytes (xs ++ ys) := by
  rw [length_append] at hlimit
  rw [pushChunk, fillHead_of_head rfl]
  dsimp only
  rw [pushTail_eq]
  · ext1
    · rfl
    · simp only [summary, rtake_rtake_append, drop_append]
    · simp only [summary, length_rtake, length_drop, length_append]
      omega
  · exact length_summary_tail.trans_le (Nat.min_le_right _ _)
  · simp only [summary, length_drop]
    omega

theorem ofChunks_eq {chunks : List Bytes} (hlimit : chunks.flatten.length < 2 ^ 64) :
    (ofChunks chunks : HeadTailBuffer maxBytes) = summary maxBytes chunks.flatten := by
  induction chunks using List.reverseRecOn with
  | nil => simp [ofChunks, summary, default, List.rtake]
  | append_singleton chunks chunk ih =>
    rw [flatten_append, flatten_singleton] at hlimit ⊢
    have hshorter : chunks.flatten.length < 2 ^ 64 := by
      rw [length_append] at hlimit
      omega
    rw [← pushChunk_summary hlimit, ← ih hshorter, ofChunks, foldl_append]
    rfl

theorem drop_append_eq :
    (xs ++ ys).drop (headBudget maxBytes) =
      xs.drop (headBudget maxBytes) ++
        ((ys.take (headBudget maxBytes)).drop (headBudget maxBytes - xs.length) ++
          ys.drop (headBudget maxBytes)) := by
  have hle : headBudget maxBytes - xs.length ≤ headBudget maxBytes := Nat.sub_le _ _
  have hlater : ys.drop (headBudget maxBytes) =
      (ys.drop (headBudget maxBytes - xs.length)).drop
        (headBudget maxBytes - (headBudget maxBytes - xs.length)) := by
    rw [drop_drop, Nat.add_sub_cancel' hle]
  rw [drop_append, drop_take, hlater, take_append_drop]

theorem pushBuffer_summary (middle : Nat) (hlimit : (xs ++ ys).length < 2 ^ 64) :
    (summary maxBytes xs).pushBuffer middle (summary maxBytes ys) =
      summary maxBytes (xs ++ ys) := by
  rw [length_append] at hlimit
  have hle (zs : Bytes) : (summary maxBytes zs).tail.length ≤ tailBudget maxBytes :=
    length_summary_tail.trans_le (Nat.min_le_right _ _)
  rw [pushBuffer, saturatingAdd_eq (by simp only [summary]; omega)]
  dsimp only
  have hhead (omitted : Nat) :
      ({ summary maxBytes xs with omittedBytes := omitted } : HeadTailBuffer maxBytes).head =
        xs.take (headBudget maxBytes) := rfl
  rw [show (summary maxBytes ys).head = ys.take (headBudget maxBytes) from rfl,
    takeHead_of_head (hhead _)]
  dsimp only
  rw [takeTail_eq middle, pushTail_eq]
  · ext1
    · rfl
    · simp only [summary]
      rw [drop_append_eq, rtake_rtake_append, ← append_assoc, rtake_append_rtake, append_assoc]
    · simp only [summary, length_rtake, length_drop, length_append, length_take]
      omega
  · exact hle xs
  · simp only [summary, length_rtake, length_drop, length_append, length_take]
    omega
  · exact hle xs
  · exact hle ys
  · simp only [summary, length_rtake, length_drop, length_append, length_take]
    omega

/-- Buffers are combined from left to right. Each comes with the place where its ring wraps. -/
def combine (first : HeadTailBuffer maxBytes) (later : List (Nat × HeadTailBuffer maxBytes)) :
    HeadTailBuffer maxBytes :=
  later.foldl (fun self buffer => self.pushBuffer buffer.1 buffer.2) first

theorem combine_ofChunks {first : Bytes} {groups : List (Nat × List Bytes)}
    (hlimit : (first ++ (groups.flatMap (·.2)).flatten).length < 2 ^ 64) :
    combine (summary maxBytes first) (groups.map fun group => (group.1, ofChunks group.2)) =
      summary maxBytes (first ++ (groups.flatMap (·.2)).flatten) := by
  induction groups generalizing first with
  | nil => simp [combine]
  | cons group groups ih =>
    rw [flatMap_cons, flatten_append, ← append_assoc] at hlimit ⊢
    have hfirst : (first ++ group.2.flatten).length < 2 ^ 64 := by
      rw [length_append] at hlimit
      omega
    have hgroup : group.2.flatten.length < 2 ^ 64 := by
      rw [length_append] at hfirst
      omega
    rw [← ih hlimit, ← pushBuffer_summary group.1 hfirst, ← ofChunks_eq hgroup]
    rfl

/-- Chunks are put into separate buffers, which are then combined. The result has the ends of the
whole output, and counts what it leaves out. -/
theorem combined_buffers_summarise (maxBytes : Nat) (first : List Bytes)
    (groups : List (Nat × List Bytes)) :
    let output := (first ++ groups.flatMap (·.2)).flatten
    let n := output.length
    let combined : HeadTailBuffer maxBytes :=
      combine (ofChunks first) (groups.map fun group => (group.1, ofChunks group.2))
    n < 2 ^ 64 →
      combined.head = output.take (min n (maxBytes / 2)) ∧
      combined.tail = output.drop (n - min (n - combined.head.length) (maxBytes - maxBytes / 2)) ∧
      combined.omittedBytes = n - combined.head.length - combined.tail.length := by
  intro output n combined hlimit
  have houtput : output = first.flatten ++ (groups.flatMap (·.2)).flatten := flatten_append
  have hfirst : first.flatten.length < 2 ^ 64 := by
    have hn : n = first.flatten.length + (groups.flatMap (·.2)).flatten.length := by
      rw [← length_append, ← houtput]
    omega
  have hcombined : combined = summary maxBytes output := by
    rw [houtput, ← combine_ofChunks (houtput ▸ hlimit), ← ofChunks_eq hfirst]
  have hhead : combined.head = output.take (maxBytes / 2) := by
    rw [hcombined]
    rfl
  have hlength : combined.head.length = min (maxBytes / 2) n := by
    rw [hhead, length_take]
  have htail : combined.tail =
      output.drop (n - min (n - combined.head.length) (maxBytes - maxBytes / 2)) := by
    have hends : combined.tail = (output.drop (maxBytes / 2)).drop
        ((output.drop (maxBytes / 2)).length - (maxBytes - maxBytes / 2)) := by
      rw [hcombined]
      rfl
    rw [hends, drop_drop, length_drop, hlength, drop_eq_drop_iff]
    omega
  refine ⟨?_, htail, ?_⟩
  · rw [hhead, take_eq_take_iff]
    omega
  · have homitted : combined.omittedBytes = n - maxBytes / 2 - (maxBytes - maxBytes / 2) := by
      rw [hcombined]
      rfl
    rw [homitted, htail, length_drop, hlength]
    omega

theorem combined_buffers_summarise_seven :
    let combined : HeadTailBuffer 4 :=
      combine (ofChunks [[1, 2, 3]]) [(1, ofChunks [[4, 5], [6]]), (0, ofChunks [[7]])]
    combined.head = [1, 2] ∧ combined.tail = [6, 7] ∧ combined.omittedBytes = 3 :=
  combined_buffers_summarise 4 [[1, 2, 3]] [(1, [[4, 5], [6]]), (0, [[7]])] (by decide)

end

end HeadTailBuffer

end Codex.UnifiedExec

import Codex.ApplyPatch.FileUpdate
import Codex.Lib.IndexedEdit
import Codex.Lib.Splice

/-! What `seek_sequence` finds lies in the file, and `apply_replacements`, which goes from the back
to the front, replaces separate regions in one pass. -/

namespace Codex.ApplyPatch
open Codex.Lib Codex.Lib.Splice List

theorem removeLines_eq {start : Nat} {lines : List Text} (h : start ≤ lines.length) (n : Nat) :
    removeLines start n lines = lines.take start ++ lines.drop (start + n) := by
  induction n generalizing lines with
  | zero => exact (take_append_drop start lines).symm
  | succ n ih =>
    have hlen : (lines.take start).length = start := by
      rw [length_take]
      omega
    have hdrop : (lines.take start ++ lines.drop (start + 1)).drop (start + n) =
        lines.drop (start + (n + 1)) := by
      rw [← drop_drop, drop_left' hlen, drop_drop, Nat.add_assoc, Nat.add_comm 1]
    rw [removeLines, eraseIdx_eq_take_drop_succ, ih (by simp; omega), take_left' hlen, hdrop]

theorem insertLines_eq {start : Nat} {lines : List Text} (h : start ≤ lines.length)
    (segment : List Text) :
    insertLines start segment lines = lines.take start ++ segment ++ lines.drop start := by
  induction segment generalizing start lines with
  | nil => simp [insertLines]
  | cons line segment ih =>
    have hlen : (lines.take start).length = start := by
      rw [length_take]
      omega
    have hinsert : lines.insertIdx start line = lines.take start ++ [line] ++ lines.drop start := by
      have happend := IndexedEdit.insertIdx_append_length (lines.take start) (lines.drop start) line
      rw [hlen, take_append_drop] at happend
      rw [happend, append_assoc]
      rfl
    have hlen' : (lines.take start ++ [line]).length = start + 1 := by
      rw [length_append, hlen, length_singleton]
    have hlong : start + 1 ≤ (lines.insertIdx start line).length := by
      rw [hinsert, length_append, hlen']
      omega
    rw [insertLines, ih hlong, hinsert, take_left' hlen', drop_left' hlen']
    simp

theorem applyReplacement_eq {lines : List Text} {replacement : Replacement}
    (h : replacement.1 ≤ lines.length) :
    applyReplacement lines replacement = replace lines replacement := by
  obtain ⟨start, oldLen, segment⟩ := replacement
  have hlen : (lines.take start).length = start := by
    rw [length_take]
    exact Nat.min_eq_left h
  rw [applyReplacement, removeLines_eq h, insertLines_eq (by simp [hlen]), take_left' hlen,
    drop_left' hlen]
  rfl

theorem applyReplacements_eq_splice {lines : List Text} {replacements : List Replacement}
    (hsep : Separate replacements) (hbound : ∀ r ∈ replacements, stop r ≤ lines.length) :
    applyReplacements lines replacements = splice 0 replacements lines := by
  have hfold : applyReplacements lines replacements =
      replacements.foldr (fun r lines => replace lines r) lines := by
    rw [applyReplacements, foldl_reverse]
    induction replacements with
    | nil => rfl
    | cons r replacements ih =>
      obtain ⟨hfirst, hrest⟩ := pairwise_cons.mp hsep
      have hbound' := fun e he => hbound e (mem_cons_of_mem r he)
      have hle : stop r ≤ (replacements.foldr (fun r lines => replace lines r) lines).length := by
        rw [foldr_replace_eq lines hrest hfirst hbound', length_append, length_take,
          Nat.min_eq_left (hbound r mem_cons_self)]
        omega
      rw [foldr_cons, foldr_cons, ih hrest hbound',
        applyReplacement_eq ((start_le_stop r).trans hle)]
  rw [hfold, foldr_replace_eq lines hsep (fun _ _ => Nat.zero_le _) hbound]
  rfl

theorem seekBy_bounds {view : Text → Text} {lines pattern : List Text} {searchStart i : Nat}
    (hlen : pattern.length ≤ lines.length) (h : seekBy view lines pattern searchStart = some i) :
    searchStart ≤ i ∧ i + pattern.length ≤ lines.length := by
  have hmem := mem_of_find?_eq_some h
  rw [mem_range'_1] at hmem
  omega

section Seek
variable {lines pattern : List Text} {start i : Nat} {eof : Bool} {mode : ApplyPatchFileUpdateMode}

theorem seekSequence_bounds (hpattern : pattern ≠ [])
    (h : seekSequence lines pattern start eof mode = some i) :
    i + pattern.length ≤ lines.length ∧ (eof → i + pattern.length = lines.length) ∧
      (eof = false ∨ mode = .preserveLineEndings → start ≤ i) := by
  unfold seekSequence at h
  rw [if_neg hpattern] at h
  split at h
  · cases h
  · next hlen =>
    have hle : pattern.length ≤ lines.length := not_lt.mp hlen
    have hpasses : ∀ {searchStart},
        ((seekBy id lines pattern searchStart).or <|
          (seekBy Text.trimEnd lines pattern searchStart).or <|
            (seekBy Text.trim lines pattern searchStart).or <|
              seekBy normalise lines pattern searchStart) = some i →
        searchStart ≤ i ∧ i + pattern.length ≤ lines.length := by
      intro searchStart hfound
      simp only [Option.or_eq_some_iff] at hfound
      rcases hfound with hfound | ⟨-, hfound | ⟨-, hfound | ⟨-, hfound⟩⟩⟩ <;>
        exact seekBy_bounds hle hfound
    obtain ⟨hstart, hstop⟩ := hpasses h
    cases eof with
    | false =>
      exact ⟨hstop, nofun, fun _ => hstart⟩
    | true =>
      cases mode with
      | normalizeToLf =>
        simp only [if_true] at hstart
        exact ⟨hstop, fun _ => by omega, by simp⟩
      | preserveLineEndings =>
        simp only [if_true] at hstart
        exact ⟨hstop, fun _ => by omega, fun _ => by omega⟩

end Seek

theorem seekChunk_bounds {lines pattern newSlice : List Text} {chunk : UpdateFileChunk}
    {lineIndex start : Nat} {mode : ApplyPatchFileUpdateMode} (hindex : lineIndex ≤ lines.length)
    (h : seekChunk lines chunk lineIndex mode = some (start, pattern, newSlice)) :
    start + pattern.length ≤ lines.length ∧
      (pattern ≠ [] → chunk.isEndOfFile → start + pattern.length = lines.length) ∧
      (pattern = [] ∨ chunk.isEndOfFile = false ∨ mode = .preserveLineEndings →
        lineIndex ≤ start) := by
  have hfound : seekSequence lines pattern lineIndex chunk.isEndOfFile mode = some start := by
    unfold seekChunk at h
    split at h
    · next hsome =>
      cases h
      exact hsome
    · split at h
      · obtain ⟨found, hsome, heq⟩ := Option.map_eq_some_iff.mp h
        cases heq
        exact hsome
      · cases h
  by_cases hpattern : pattern = []
  · have hstart : lineIndex = start := by
      rw [seekSequence, if_pos hpattern] at hfound
      exact Option.some.inj hfound
    subst hpattern hstart
    exact ⟨hindex, fun hne => absurd rfl hne, fun _ => le_rfl⟩
  · obtain ⟨hstop, heof, hfrom⟩ := seekSequence_bounds hpattern hfound
    exact ⟨hstop, fun _ => heof, fun hcase => hfrom (hcase.resolve_left hpattern)⟩

theorem seekContext_bounds {lines : List Text} {path : Text} {mode : ApplyPatchFileUpdateMode}
    {lineIndex cursor : Nat} {changeContext : Option Text} (hindex : lineIndex ≤ lines.length)
    (h : seekContext lines path mode lineIndex changeContext = .ok cursor) :
    lineIndex ≤ cursor ∧ cursor ≤ lines.length := by
  unfold seekContext at h
  split at h
  · cases h
    exact ⟨le_rfl, hindex⟩
  · next context =>
    split at h
    · next i hfound =>
      cases h
      obtain ⟨hstop, -, hfrom⟩ := seekSequence_bounds (cons_ne_nil context []) hfound
      have hstart := hfrom (Or.inl rfl)
      simp only [length_singleton] at hstop
      omega
    · cases h

end Codex.ApplyPatch

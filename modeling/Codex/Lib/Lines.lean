import Codex.Lib.Split
import Codex.Lib.Text

/-! `str::lines` of the Rust library, and joining lines again. -/

namespace Codex.Lib.Text
open List

def stripCr (line : Text) : Text := if line.getLast? = some '\r' then line.dropLast else line

def dropLineEnding (piece : Text) : Text :=
  if piece.getLast? = some '\n' then stripCr piece.dropLast else piece

def lines (text : Text) : List Text := (Split.splitInclusive '\n' text).map dropLineEnding

theorem stripCr_of_ne {line : Text} (h : line.getLast? ≠ some '\r') : stripCr line = line :=
  if_neg h

theorem stripCr_concat (line : Text) : stripCr (line ++ ['\r']) = line := by
  rw [stripCr, if_pos getLast?_concat, dropLast_concat]

theorem stripCr_append_cr {line : Text} (h : line.getLast? = some '\r') :
    stripCr line ++ ['\r'] = line := by
  obtain ⟨before, rfl⟩ := getLast?_eq_some_iff.mp h
  rw [stripCr_concat]

theorem notMem_stripCr {line : Text} {c : Char} (h : c ∉ line) : c ∉ stripCr line := by
  rw [stripCr]
  split
  · exact fun hc => h (dropLast_subset line hc)
  · exact h

theorem lines_flatMap_append {parts : List Text} (h : ∀ part ∈ parts, '\n' ∉ part) {last : Text}
    (hlast : '\n' ∉ last) (hne : last ≠ []) :
    lines (parts.flatMap (· ++ ['\n']) ++ last) = parts.map stripCr ++ [last] := by
  induction parts with
  | nil =>
    have hend : last.getLast? ≠ some '\n' := fun hl => hlast (mem_of_getLast? hl)
    simp [lines, Split.splitInclusive_of_notMem hlast hne, dropLineEnding, hend]
  | cons part parts ih =>
    have hassoc : (part :: parts).flatMap (· ++ ['\n']) ++ last =
        part ++ '\n' :: (parts.flatMap (· ++ ['\n']) ++ last) := by simp
    have hrest := ih fun p hp => h p (mem_cons_of_mem part hp)
    rw [lines] at hrest
    rw [hassoc, lines, Split.splitInclusive_append_cons (h part mem_cons_self), map_cons, hrest]
    simp [dropLineEnding]

theorem intercalate_concat (parts : List Text) (last : Text) :
    List.intercalate ['\n'] (parts ++ [last]) = parts.flatMap (· ++ ['\n']) ++ last := by
  induction parts with
  | nil => simp
  | cons part parts ih =>
    obtain ⟨next, more, hnext⟩ : ∃ next more, parts ++ [last] = next :: more :=
      exists_cons_of_ne_nil (by simp)
    rw [cons_append, hnext, intercalate_cons_cons, ← hnext, ih]
    simp

end Codex.Lib.Text

import Codex.ApplyPatch.UpdateActions

/-! The context lines of a chunk stand on both of its sides, in the same order. -/

namespace Codex.ApplyPatch
open Codex.Lib List

structure UpdateFileChunk.Aligned (chunk : UpdateFileChunk) : Prop where
  increasing : chunk.contextLineIndices.Pairwise fun a b => a.1 < b.1 ∧ a.2 < b.2
  inside : ∀ c ∈ chunk.contextLineIndices, c.1 < chunk.oldLines.length ∧ c.2 < chunk.newLines.length

namespace UpdateFileChunk

theorem aligned_opened (changeContext : Option Text) : (opened changeContext).Aligned :=
  ⟨List.Pairwise.nil, nofun⟩

theorem Aligned.pushTo {chunk : UpdateFileChunk} (h : chunk.Aligned) (line : ChangeLine) :
    (line.pushTo chunk).Aligned := by
  cases line with
  | add text =>
    refine ⟨h.increasing, fun c hc => ⟨(h.inside c hc).1, ?_⟩⟩
    have hc := (h.inside c hc).2
    simp only [ChangeLine.pushTo, pushNewLine, length_append, length_singleton]
    omega
  | remove text =>
    refine ⟨h.increasing, fun c hc => ⟨?_, (h.inside c hc).2⟩⟩
    have hc := (h.inside c hc).1
    simp only [ChangeLine.pushTo, pushOldLine, length_append, length_singleton]
    omega
  | context text =>
    refine ⟨?_, fun c hc => ?_⟩
    · refine pairwise_append.mpr ⟨h.increasing, pairwise_singleton _ _, ?_⟩
      intro a ha b hb
      rw [mem_singleton.mp hb]
      exact h.inside a ha
    · simp only [ChangeLine.pushTo, pushContextLine, length_append, length_singleton]
      rcases mem_append.mp hc with hc | hc
      · have hc := h.inside c hc
        omega
      · rw [mem_singleton.mp hc]
        exact ⟨Nat.lt_succ_self _, Nat.lt_succ_self _⟩

end UpdateFileChunk

theorem forall_mem_onLast {α : Type} {P : α → Prop} {f : α → α} {xs : List α}
    (h : ∀ x ∈ xs, P x) (hf : ∀ x, P x → P (f x)) : ∀ x ∈ onLast f xs, P x := by
  intro x hx
  rcases mem_append.mp hx with hx | hx
  · exact h x (dropLast_subset xs hx)
  · obtain ⟨y, hy, rfl⟩ := Option.map_eq_some_iff.mp (Option.mem_toList.mp hx)
    exact hf y (h y (mem_of_getLast? hy))

theorem aligned_apply {chunks : List UpdateFileChunk} (h : ∀ c ∈ chunks, c.Aligned)
    (movePath : Option Text) (action : UpdateAction) :
    ∀ c ∈ (action.apply movePath chunks).2, c.Aligned := by
  cases action with
  | skip => exact h
  | moveTo path => exact h
  | openChunk changeContext =>
    intro c hc
    rcases mem_append.mp hc with hc | hc
    · exact h c hc
    · rw [mem_singleton.mp hc]
      exact UpdateFileChunk.aligned_opened changeContext
  | endFile => exact forall_mem_onLast h fun chunk hchunk => ⟨hchunk.increasing, hchunk.inside⟩
  | change line =>
    refine forall_mem_onLast (fun c hc => ?_) fun chunk hchunk => hchunk.pushTo line
    split at hc
    · rw [mem_singleton.mp hc]
      exact UpdateFileChunk.aligned_opened none
    · exact h c hc

theorem aligned_readUpdateLine {lineNumber : Nat} {movePath : Option Text}
    {chunks : List UpdateFileChunk} {line : Text} {next : Option Text × List UpdateFileChunk}
    (h : ∀ c ∈ chunks, c.Aligned)
    (hread : readUpdateLine lineNumber movePath chunks line = .ok next) :
    ∀ c ∈ next.2, c.Aligned := by
  have haction := readUpdateLine_toOption lineNumber movePath chunks line
  rw [hread] at haction
  obtain ⟨action, -, rfl⟩ := Option.map_eq_some_iff.mp haction.symm
  exact aligned_apply h movePath action

def Hunk.Aligned : Hunk → Prop
  | .updateFile _ _ chunks => ∀ c ∈ chunks, c.Aligned
  | _ => True

namespace StreamingPatchParser
variable {self next : StreamingPatchParser} {line : Text}

def Aligned (self : StreamingPatchParser) : Prop := ∀ hunk ∈ self.hunks, hunk.Aligned

theorem Aligned.replaceLast {hunks : List Hunk} {hunk : Hunk} (h : ∀ k ∈ hunks, k.Aligned)
    (hhunk : hunk.Aligned) : ∀ k ∈ hunks.dropLast ++ [hunk], k.Aligned := by
  intro k hk
  rcases mem_append.mp hk with hk | hk
  · exact h k (dropLast_subset _ hk)
  · rwa [mem_singleton.mp hk]

theorem Aligned.openHeader (h : self.Aligned) (header : Header) :
    (self.openHeader header).Aligned := by
  have happend : ∀ hunk : Hunk, hunk.Aligned → ∀ k ∈ self.hunks ++ [hunk], k.Aligned := by
    intro hunk hhunk k hk
    rcases mem_append.mp hk with hk | hk
    · exact h k hk
    · rwa [mem_singleton.mp hk]
  cases header with
  | endPatch => exact h
  | addFile path => exact happend _ trivial
  | deleteFile path => exact happend _ trivial
  | updateFile path => exact happend _ nofun

theorem Aligned.processLine (h : self.Aligned) (hok : self.processLine line = .ok next) :
    next.Aligned := by
  cases reads_of_processLine hok with
  | header header => exact h.openHeader header
  | add path contents => exact Aligned.replaceLast h trivial
  | update n hlast hread =>
    exact Aligned.replaceLast h (aligned_readUpdateLine (h _ (mem_of_getLast? hlast)) hread)
  | _ => exact h

theorem Aligned.nextLine (h : self.Aligned) : self.nextLine.Aligned := h

theorem Aligned.pushDelta {delta : Text} (h : self.Aligned)
    (hok : self.pushDelta delta = .ok next) : next.Aligned := by
  induction delta generalizing self with
  | nil =>
    cases hok
    exact h
  | cons c delta ih =>
    obtain ⟨middle, hchar, hrest⟩ := exists_of_bind_eq_ok hok
    refine ih ?_ hrest
    unfold pushChar at hchar
    split at hchar
    · exact h.nextLine.processLine hchar
    · cases hchar
      exact h

theorem Aligned.finish (h : self.Aligned) (hok : self.finish = .ok next) : next.Aligned := by
  have hchecked : ∀ last : StreamingPatchParser, last.Aligned →
      (if last.mode = .endedPatch then .ok last
        else .error (ParseError.invalidPatchError lastLineMustEnd)) = Except.ok next →
      next.Aligned := by
    intro last hlast hend
    split at hend
    · cases hend
      exact hlast
    · cases hend
  unfold StreamingPatchParser.finish at hok
  split at hok
  · exact hchecked _ h hok
  · split at hok
    · obtain ⟨_, _, hok⟩ := exists_of_bind_eq_ok hok
      exact hchecked { self.nextLine with mode := .endedPatch } h.nextLine hok
    · obtain ⟨last, hlast, hok⟩ := exists_of_bind_eq_ok hok
      exact hchecked last (h.nextLine.processLine hlast) hok

end StreamingPatchParser

theorem aligned_of_parsePatch {patch : Text} {parsed : ApplyPatchArgs × Option Text}
    (h : parsePatch patch = .ok parsed) : ∀ hunk ∈ parsed.1.hunks, hunk.Aligned := by
  obtain ⟨_, _, h⟩ := exists_of_bind_eq_ok h
  obtain ⟨parser, hpush, h⟩ := exists_of_bind_eq_ok h
  obtain ⟨finished, hfinish, h⟩ := exists_of_bind_eq_ok h
  cases h
  have hnew : StreamingPatchParser.new.Aligned := nofun
  exact (hnew.pushDelta hpush).finish hfinish

end Codex.ApplyPatch

import Codex.Lib.Text

/-! The reverse pass that chooses a checkpoint, in `core/src/session/rollout_reconstruction.rs` and
again in `thread-store/src/local/rollout_migration/rollback_replay.rs`; the two differ in what they
keep of a checkpoint and in which records they see. -/

namespace Codex.Rollout
open Codex.Lib List

inductive ReplayRecord (γ : Type)
  /-- a compaction, with its checkpoint if it has a replacement history -/
  | compacted (checkpoint : Option γ)
  | rollback (numTurns : Nat)
  | turnStarted (turnId : Text)
  | turnComplete (turnId : Text)
  | turnAborted (turnId : Option Text)
  | turnContext (turnId : Option Text)
  /-- any other record of a turn, and whether it is a user boundary -/
  | item (boundary : Bool)

@[ext] structure ReverseSegment (γ : Type) where
  turnId : Option Text
  countsAsUserTurn : Bool
  checkpoint : Option γ

def ReverseSegment.default {γ : Type} : ReverseSegment γ := ⟨none, false, none⟩

/-- `suffixStart` is the checkpoint that a segment took last; only the migration reads it. -/
@[ext] structure ReverseState (γ : Type) where
  selected : Option γ
  suffixStart : Option γ
  pendingRollbackTurns : Nat
  active : Option (ReverseSegment γ)

variable {γ : Type}

def turnIdsAreCompatible (activeTurnId itemTurnId : Option Text) : Bool :=
  activeTurnId.all fun turnId => itemTurnId.all fun itemTurnId => itemTurnId = turnId

def finalizeSegment (s : ReverseState γ) (segment : ReverseSegment γ) : ReverseState γ :=
  if s.pendingRollbackTurns > 0 then
    if segment.countsAsUserTurn then
      { s with pendingRollbackTurns := s.pendingRollbackTurns - 1 }
    else s
  else { s with selected := s.selected.or segment.checkpoint }

def replayStep (record : ReplayRecord γ) (s : ReverseState γ) : ReverseState γ :=
  let segment := s.active.getD .default
  match record with
  | .compacted checkpoint =>
    match segment.checkpoint, checkpoint with
    | none, some c =>
      { s with active := some { segment with checkpoint := some c }, suffixStart := some c }
    | _, _ => { s with active := some segment }
  | .rollback numTurns =>
    { s with pendingRollbackTurns := s.pendingRollbackTurns + numTurns }
  | .turnComplete turnId =>
    { s with active := some { segment with turnId := segment.turnId.or (some turnId) } }
  | .turnAborted turnId =>
    -- an abort without an id does not open a segment
    if s.active.isNone && turnId.isNone then s
    else { s with active := some { segment with turnId := segment.turnId.or turnId } }
  | .turnContext turnId =>
    { s with active := some { segment with turnId := segment.turnId.or turnId } }
  | .item boundary =>
    let counts := segment.countsAsUserTurn || boundary
    { s with active := some { segment with countsAsUserTurn := counts } }
  | .turnStarted turnId =>
    match s.active with
    | some segment =>
      if turnIdsAreCompatible segment.turnId (some turnId) then
        finalizeSegment { s with active := none } segment
      else s
    | none => s

def finalizeActive (s : ReverseState γ) : ReverseState γ :=
  match s.active with
  | some segment => finalizeSegment { s with active := none } segment
  | none => s

def reverseScan (selected : Option γ) (records : List (ReplayRecord γ)) : ReverseState γ :=
  records.foldr replayStep ⟨selected, none, 0, none⟩

def reverseReplay (selected : Option γ) (records : List (ReplayRecord γ)) : ReverseState γ :=
  finalizeActive (reverseScan selected records)

variable {s : ReverseState γ} {body : List (ReplayRecord γ)}

theorem selected_finalizeSegment {c : γ} (segment : ReverseSegment γ) (h : s.selected = some c) :
    (finalizeSegment s segment).selected = some c := by
  unfold finalizeSegment
  split
  · split <;> exact h
  · rw [h, Option.some_or]

theorem selected_replayStep {c : γ} (record : ReplayRecord γ) (h : s.selected = some c) :
    (replayStep record s).selected = some c := by
  cases record with
  | compacted checkpoint =>
    simp only [replayStep]
    split <;> exact h
  | rollback | turnComplete | turnContext | item => exact h
  | turnAborted turnId =>
    simp only [replayStep]
    split <;> exact h
  | turnStarted turnId =>
    simp only [replayStep]
    split
    · split
      · exact selected_finalizeSegment _ h
      · exact h
    · exact h

theorem selected_foldr {c : γ} (records : List (ReplayRecord γ)) (h : s.selected = some c) :
    (records.foldr replayStep s).selected = some c := by
  induction records with
  | nil => exact h
  | cons record records ih => exact selected_replayStep record ih

theorem selected_of_reverseScan {c : γ} {selected : Option γ} {records : List (ReplayRecord γ)}
    (h : (reverseScan selected records).selected = some c) :
    (reverseReplay selected records).selected = some c := by
  rw [reverseReplay, finalizeActive]
  split
  · exact selected_finalizeSegment _ h
  · exact h

theorem selected_reverseReplay (c : γ) (records : List (ReplayRecord γ)) :
    (reverseReplay (some c) records).selected = some c :=
  selected_of_reverseScan (selected_foldr records rfl)

def lastCheckpoint : List (ReplayRecord γ) → Option γ
  | [] => none
  | .compacted checkpoint :: records => (lastCheckpoint records).or checkpoint
  | _ :: records => lastCheckpoint records

def ReplayRecord.IsBody : ReplayRecord γ → Prop
  | .compacted _ => True
  | .item boundary => boundary = false
  | _ => False

def turnRecords (boundary : Bool) (turnId : Text) (body : List (ReplayRecord γ)) :
    List (ReplayRecord γ) :=
  .turnStarted turnId :: .item boundary :: (body ++ [.turnComplete turnId])

abbrev ReverseState.segment (s : ReverseState γ) : ReverseSegment γ := s.active.getD .default

theorem foldr_body (hbody : ∀ record ∈ body, record.IsBody) {segment : ReverseSegment γ}
    (hs : s.active = some segment) : body.foldr replayStep s =
      { s with
        active := some { segment with checkpoint := segment.checkpoint.or (lastCheckpoint body) }
        suffixStart := (if segment.checkpoint.isSome then none else lastCheckpoint body).or
          s.suffixStart } := by
  induction body with
  | nil =>
    obtain ⟨selected, suffixStart, pending, active⟩ := s
    obtain rfl : active = some segment := hs
    simp [lastCheckpoint]
  | cons record body ih =>
    rw [foldr_cons, ih fun x hx => hbody x (mem_cons_of_mem _ hx)]
    have hrecord := hbody record mem_cons_self
    cases record with
    | compacted checkpoint =>
      -- the newest checkpoint of the segment is taken, older ones are not
      cases hseg : segment.checkpoint <;> cases hlast : lastCheckpoint body <;>
        cases checkpoint <;> simp [replayStep, lastCheckpoint, hlast]
    | item boundary =>
      obtain rfl : boundary = false := hrecord
      simp [replayStep, lastCheckpoint]
    | rollback | turnStarted | turnComplete | turnAborted | turnContext => exact hrecord.elim

theorem foldr_turnRecords {boundary : Bool} {turnId : Text}
    (hbody : ∀ record ∈ body, record.IsBody) (hs : s.segment.turnId = none)
    (hcounts : s.segment.countsAsUserTurn = false) :
    (turnRecords boundary turnId body).foldr replayStep s =
      { selected := if s.pendingRollbackTurns = 0 then
          s.selected.or (s.segment.checkpoint.or (lastCheckpoint body)) else s.selected
        suffixStart := (if s.segment.checkpoint.isSome then none else lastCheckpoint body).or
          s.suffixStart
        pendingRollbackTurns := s.pendingRollbackTurns - boundary.toNat
        active := none } := by
  have hcomplete : replayStep (.turnComplete turnId) s =
      { s with active := some { s.segment with turnId := some turnId } } := by
    simp only [replayStep]
    rw [show (s.active.getD .default).turnId = none from hs, Option.none_or]
  rw [turnRecords, foldr_cons, foldr_cons, foldr_append, foldr_cons,
    foldr_nil, hcomplete, foldr_body hbody rfl]
  by_cases hpending : s.pendingRollbackTurns = 0
  · simp [replayStep, turnIdsAreCompatible, finalizeSegment, hpending]
  · cases boundary <;> simp [replayStep, turnIdsAreCompatible, finalizeSegment, hpending, hcounts,
      Nat.pos_of_ne_zero hpending]

theorem foldr_turnRecords_closed (boundary : Bool) {turnId : Text}
    (hbody : ∀ record ∈ body, record.IsBody) (selected start : Option γ) (pending : Nat) :
    (turnRecords boundary turnId body).foldr replayStep ⟨selected, start, pending, none⟩ =
      ⟨if pending = 0 then selected.or (lastCheckpoint body) else selected,
        (lastCheckpoint body).or start, pending - boundary.toNat, none⟩ :=
  foldr_turnRecords hbody rfl rfl

end Codex.Rollout

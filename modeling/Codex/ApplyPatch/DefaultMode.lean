import Codex.ApplyPatch.Replacements
import Codex.Lib.Fallible
import Codex.Lib.Lines

/-! Whether the regions of the chunks overlap in the mode `NormalizeToLf`, where an end-of-file
chunk is sought at the end of the file alone and an insertion goes before a blank last line. -/

namespace Codex.ApplyPatch
open Codex.Lib Codex.Lib.Splice List

structure ChunkMatch where
  isInsertion : Bool
  isEndOfFile : Bool
  replacement : Replacement
  deriving DecidableEq, Repr

def matchChunks (lines : List Text) (path : Text) :
    List UpdateFileChunk → Nat → Except UpdateError (List ChunkMatch)
  | [], _ => .ok []
  | chunk :: rest, lineIndex => do
    let cursor ← seekContext lines path .normalizeToLf lineIndex chunk.changeContext
    if chunk.oldLines = [] then
      let later ← matchChunks lines path rest cursor
      .ok (⟨true, chunk.isEndOfFile, insertionIndex lines .normalizeToLf, 0, chunk.newLines⟩ ::
        later)
    else
      match seekChunk lines chunk cursor .normalizeToLf with
      | none => .error (.computeReplacements
          ("Failed to find expected lines in ".toList ++ path ++ ":\n".toList ++
            List.intercalate ['\n'] chunk.oldLines))
      | some (start, pattern, newSlice) =>
        let later ← matchChunks lines path rest (start + pattern.length)
        .ok (⟨false, chunk.isEndOfFile, start, pattern.length, newSlice⟩ :: later)

theorem collectReplacements_eq (lines : List Text) (path : Text) (chunks : List UpdateFileChunk)
    (lineIndex : Nat) :
    collectReplacements lines path .normalizeToLf chunks lineIndex =
      (matchChunks lines path chunks lineIndex).map (List.map ChunkMatch.replacement) := by
  induction chunks generalizing lineIndex with
  | nil => rfl
  | cons chunk chunks ih =>
    rw [collectReplacements, matchChunks, chunkReplacements]
    cases seekContext lines path .normalizeToLf lineIndex chunk.changeContext with
    | error e => rfl
    | ok cursor =>
      simp only [ok_bind]
      split
      · simp only [ok_bind, ih]
        cases matchChunks lines path chunks cursor <;> rfl
      · cases seekChunk lines chunk cursor .normalizeToLf with
        | none => rfl
        | some found =>
          simp only [ok_bind, ih]
          cases matchChunks lines path chunks (found.1 + found.2.1.length) <;> rfl

def ChunkMatch.Placed (lines : List Text) (cursor : Nat) (found : ChunkMatch) : Prop :=
  if found.isInsertion then
    found.replacement.1 = insertionIndex lines .normalizeToLf ∧ found.replacement.2.1 = 0
  else
    stop found.replacement ≤ lines.length ∧
      (found.isEndOfFile = true → found.replacement.2.1 = 0 ∨
        stop found.replacement = lines.length) ∧
      (found.isEndOfFile = false ∨ found.replacement.2.1 = 0 → cursor ≤ found.replacement.1)

variable {lines : List Text} {chunks : List UpdateFileChunk} {replacements : List Replacement}

theorem ChunkMatch.Placed.mono {cursor cursor' : Nat} {found : ChunkMatch}
    (h : found.Placed lines cursor') (hle : cursor ≤ cursor') : found.Placed lines cursor := by
  unfold ChunkMatch.Placed at h ⊢
  split at h
  · next hinsertion => rwa [if_pos hinsertion]
  · next hinsertion =>
    rw [if_neg hinsertion]
    exact ⟨h.1, h.2.1, fun hcase => hle.trans (h.2.2 hcase)⟩

theorem le_stop_of_seekChunk {chunk : UpdateFileChunk} {cursor start : Nat}
    {pattern newSlice : List Text} (hcursor : cursor ≤ lines.length)
    (h : seekChunk lines chunk cursor .normalizeToLf = some (start, pattern, newSlice)) :
    cursor ≤ start + pattern.length := by
  obtain ⟨-, heof, hfrom⟩ := seekChunk_bounds hcursor h
  by_cases hcase : pattern = [] ∨ chunk.isEndOfFile = false
  · exact (hfrom (by tauto)).trans (Nat.le_add_right _ _)
  · rw [not_or, Bool.not_eq_false] at hcase
    rwa [heof hcase.1 hcase.2]

theorem placed_of_matchChunks {path : Text} {lineIndex : Nat} {found : List ChunkMatch}
    (hindex : lineIndex ≤ lines.length) (h : matchChunks lines path chunks lineIndex = .ok found) :
    (∀ m ∈ found, m.Placed lines lineIndex) ∧
      found.Pairwise fun a b => a.isInsertion = false → b.Placed lines (stop a.replacement) := by
  induction chunks generalizing lineIndex found with
  | nil =>
    cases h
    exact ⟨by simp, List.Pairwise.nil⟩
  | cons chunk chunks ih =>
    obtain ⟨cursor, hcursor, h⟩ := exists_of_bind_eq_ok h
    obtain ⟨hforward, hinside⟩ := seekContext_bounds hindex hcursor
    split at h
    · obtain ⟨later, hlater, h⟩ := exists_of_bind_eq_ok h
      cases h
      obtain ⟨hall, hpairs⟩ := ih hinside hlater
      refine ⟨?_, pairwise_cons.mpr ⟨nofun, hpairs⟩⟩
      intro m hm
      rcases mem_cons.mp hm with rfl | hm
      · exact ⟨rfl, rfl⟩
      · exact (hall m hm).mono hforward
    · split at h
      · cases h
      · next start pattern newSlice hfound =>
        obtain ⟨later, hlater, h⟩ := exists_of_bind_eq_ok h
        cases h
        obtain ⟨hstop, heof, hfrom⟩ := seekChunk_bounds hinside hfound
        obtain ⟨hall, hpairs⟩ := ih hstop hlater
        have hempty : pattern = [] ↔ pattern.length = 0 := length_eq_zero_iff.symm
        have hreach := hforward.trans (le_stop_of_seekChunk hinside hfound)
        refine ⟨?_, pairwise_cons.mpr ⟨fun b hb _ => hall b hb, hpairs⟩⟩
        intro m hm
        rcases mem_cons.mp hm with rfl | hm
        · refine ⟨hstop, fun hend => ?_, fun hcase => ?_⟩
          · by_cases hpattern : pattern = []
            · exact Or.inl (hempty.mp hpattern)
            · exact Or.inr (heof hpattern hend)
          · exact hforward.trans (hfrom (by rw [hempty]; tauto))
        · exact (hall m hm).mono hreach

/-- What the chunks so far have done: where the last region ends that they replace and that begins
before the end of the file, and whether they insert lines. -/
structure Progress where
  replacedTo : Nat
  inserts : Bool
  deriving DecidableEq, Repr

/-- An insertion goes before a blank last line, which must not be replaced. -/
def Progress.admitsInsertion (lines : List Text) (progress : Progress) : Bool :=
  !lastIsEmpty lines || progress.replacedTo < lines.length

/-- An end-of-file chunk needs room after what is replaced, and lines that are inserted before a
blank last line must not be in the region of a chunk. -/
def Progress.admitsRegion (lines : List Text) (progress : Progress) (isEndOfFile : Bool)
    (start length : Nat) : Bool :=
  (!isEndOfFile || progress.replacedTo + length ≤ lines.length) &&
    !(progress.inserts && lastIsEmpty lines && start + 1 < lines.length &&
      start + length = lines.length)

/-- Each chunk in turn, at the line index that the chunks before it leave, keeps off their
regions. -/
def keepsOff (lines : List Text) (path : Text) :
    List UpdateFileChunk → Nat → Progress → Bool
  | [], _, _ => true
  | chunk :: rest, lineIndex, progress =>
    match seekContext lines path .normalizeToLf lineIndex chunk.changeContext with
    | .error _ => true
    | .ok cursor =>
      if chunk.oldLines = [] then
        progress.admitsInsertion lines &&
          keepsOff lines path rest cursor { progress with inserts := true }
      else match seekChunk lines chunk cursor .normalizeToLf with
        | none => true
        | some (start, pattern, _) =>
          progress.admitsRegion lines chunk.isEndOfFile start pattern.length &&
            keepsOff lines path rest (start + pattern.length)
              { progress with replacedTo :=
                  if start < lines.length then start + pattern.length else progress.replacedTo }

/-- The later of two matches does not touch the earlier one: the lines after the earlier one have
room for an end-of-file chunk, and an insertion before the blank last line of the file is not in a
region that is replaced. -/
def ChunkMatch.Clear (lines : List Text) (earlier later : ChunkMatch) : Prop :=
  match earlier.isInsertion, later.isInsertion with
  | false, false => later.isEndOfFile = true →
      stop earlier.replacement + later.replacement.2.1 ≤ lines.length ∨
        earlier.replacement.1 = lines.length
  | true, false => lastIsEmpty lines = true →
      ¬ (later.replacement.1 + 1 < lines.length ∧ stop later.replacement = lines.length)
  | false, true => lastIsEmpty lines = true →
      ¬ (earlier.replacement.1 < lines.length ∧ stop earlier.replacement = lines.length)
  | true, true => True

theorem insertionIndex_add (lines : List Text) :
    insertionIndex lines .normalizeToLf + (if lastIsEmpty lines then 1 else 0) = lines.length := by
  by_cases hlast : lastIsEmpty lines
  · have hne : lines ≠ [] := by
      rintro rfl
      cases hlast
    have hpos := length_pos_iff.mpr hne
    rw [insertionIndex, if_pos hlast, if_pos hlast]
    omega
  · rw [insertionIndex, if_neg hlast, if_neg hlast]
    rfl

theorem apart_iff_clear {a b : ChunkMatch} (ha : a.Placed lines 0) (hb : b.Placed lines 0)
    (hab : a.isInsertion = false → b.Placed lines (stop a.replacement)) :
    Apart a.replacement b.replacement ↔ a.Clear lines b := by
  have hindex := insertionIndex_add lines
  obtain ⟨aInsertion, aEof, aStart, aLen, aNew⟩ := a
  obtain ⟨bInsertion, bEof, bStart, bLen, bNew⟩ := b
  cases aInsertion <;> cases bInsertion <;>
    simp only [ChunkMatch.Placed, ChunkMatch.Clear, Apart, stop, Bool.false_eq_true, if_false,
      if_true, forall_const] at ha hb hab ⊢
  case false.false =>
    cases bEof with
    | false =>
      have hafter := hab.2.2 (Or.inl rfl)
      omega
    | true =>
      have hend := hb.2.1 rfl
      simp only [forall_const]
      omega
  case true.true => exact iff_of_true (by omega) trivial
  all_goals
    split at hindex
    · next hlast =>
      simp only [hlast, forall_const]
      omega
    · next hlast => exact iff_of_true (by omega) fun h => absurd h hlast

theorem pairwise_apart_iff_clear {found : List ChunkMatch} (hplaced : ∀ m ∈ found, m.Placed lines 0)
    (hpairs : found.Pairwise fun a b =>
      a.isInsertion = false → b.Placed lines (stop a.replacement)) :
    (found.map ChunkMatch.replacement).Pairwise Apart ↔
      found.Pairwise (ChunkMatch.Clear lines) := by
  rw [pairwise_map]
  have hiff : ∀ {a b}, a ∈ found → b ∈ found →
      (a.isInsertion = false → b.Placed lines (stop a.replacement)) →
      (Apart a.replacement b.replacement ↔ a.Clear lines b) :=
    fun ha hb => apart_iff_clear (hplaced _ ha) (hplaced _ hb)
  refine ⟨fun h => ?_, fun h => ?_⟩
  · exact (h.and hpairs).imp_of_mem fun ha hb hab => (hiff ha hb hab.2).mp hab.1
  · exact (h.and hpairs).imp_of_mem fun ha hb hab => (hiff ha hb hab.2).mpr hab.1

/-- `progress` sums up the matches `earlier`. -/
structure Progress.Covers (lines : List Text) (progress : Progress) (earlier : List ChunkMatch) :
    Prop where
  inserts : progress.inserts = true ↔ ∃ m ∈ earlier, m.isInsertion = true
  le : ∀ m ∈ earlier, m.isInsertion = false → m.replacement.1 < lines.length →
    stop m.replacement ≤ progress.replacedTo
  reached : progress.replacedTo = 0 ∨ ∃ m ∈ earlier, m.isInsertion = false ∧
    m.replacement.1 < lines.length ∧ stop m.replacement = progress.replacedTo

variable {progress : Progress} {earlier : List ChunkMatch}

section
variable (h : progress.Covers lines earlier)
  (hbound : ∀ m ∈ earlier, stop m.replacement ≤ lines.length) {b : ChunkMatch}
include h hbound

theorem Progress.Covers.admitsInsertion (hb : b.isInsertion = true) :
    progress.admitsInsertion lines = true ↔ ∀ a ∈ earlier, a.Clear lines b := by
  rw [Progress.admitsInsertion, Bool.or_eq_true, Bool.not_eq_true', decide_eq_true_iff]
  constructor
  · intro hadmits a ha
    cases hinsertion : a.isInsertion <;> simp only [ChunkMatch.Clear, hinsertion, hb]
    rintro hlast ⟨hstart, hstop⟩
    have hle := h.le a ha hinsertion hstart
    rw [hlast] at hadmits
    simp only [Bool.true_eq_false, false_or] at hadmits
    omega
  · intro hclear
    rw [or_iff_not_imp_left, Bool.not_eq_false]
    intro hlast
    rcases h.reached with hzero | ⟨a, ha, hinsertion, hstart, hstop⟩
    · rw [hzero, length_pos_iff]
      rintro rfl
      cases hlast
    · have hnot := hclear a ha
      simp only [ChunkMatch.Clear, hinsertion, hb] at hnot
      have hne : progress.replacedTo ≠ lines.length := fun heq =>
        hnot hlast ⟨hstart, hstop.trans heq⟩
      have hle := hbound a ha
      omega

theorem Progress.Covers.admitsRegion (hb : b.isInsertion = false)
    (hstop : stop b.replacement ≤ lines.length) :
    progress.admitsRegion lines b.isEndOfFile b.replacement.1 b.replacement.2.1 = true ↔
      ∀ a ∈ earlier, a.Clear lines b := by
  have hadmits : progress.admitsRegion lines b.isEndOfFile b.replacement.1 b.replacement.2.1 =
      true ↔ (b.isEndOfFile = true → progress.replacedTo + b.replacement.2.1 ≤ lines.length) ∧
        (progress.inserts = true → lastIsEmpty lines = true →
          ¬ (b.replacement.1 + 1 < lines.length ∧ stop b.replacement = lines.length)) := by
    rw [Progress.admitsRegion, stop]
    cases b.isEndOfFile <;> cases progress.inserts <;> cases lastIsEmpty lines <;> simp <;> omega
  rw [hadmits]
  constructor
  · rintro ⟨hroom, hinserted⟩ a ha
    cases hinsertion : a.isInsertion <;> simp only [ChunkMatch.Clear, hinsertion, hb]
    · intro heof
      have hroom := hroom heof
      rcases Nat.lt_or_ge a.replacement.1 lines.length with hstart | hstart
      · have hle := h.le a ha hinsertion hstart
        omega
      · have hle := hbound a ha
        rw [stop] at hle
        omega
    · exact hinserted (h.inserts.mpr ⟨a, ha, hinsertion⟩)
  · intro hclear
    constructor
    · intro heof
      rcases h.reached with hzero | ⟨a, ha, hinsertion, hstart, hreached⟩
      · rw [stop] at hstop
        omega
      · have hroom := hclear a ha
        simp only [ChunkMatch.Clear, hinsertion, hb] at hroom
        have hroom := hroom heof
        omega
    · intro hinserts
      obtain ⟨a, ha, hinsertion⟩ := h.inserts.mp hinserts
      have hnot := hclear a ha
      simp only [ChunkMatch.Clear, hinsertion, hb] at hnot
      exact hnot

end

theorem ChunkMatch.Placed.stop_le {cursor : Nat} {found : ChunkMatch}
    (h : found.Placed lines cursor) : stop found.replacement ≤ lines.length := by
  have hindex := insertionIndex_add lines
  unfold ChunkMatch.Placed at h
  split at h
  · rw [stop, h.1, h.2]
    omega
  · exact h.1

theorem Progress.Covers.insertion (h : progress.Covers lines earlier) {b : ChunkMatch}
    (hb : b.isInsertion = true) :
    { progress with inserts := true }.Covers lines (b :: earlier) where
  inserts := iff_of_true rfl ⟨b, mem_cons_self, hb⟩
  le m hm hinsertion := by
    rcases mem_cons.mp hm with rfl | hm
    · rw [hb] at hinsertion
      cases hinsertion
    · exact h.le m hm hinsertion
  reached := h.reached.imp_right fun ⟨m, hm, hreached⟩ => ⟨m, mem_cons_of_mem b hm, hreached⟩

theorem Progress.Covers.region (h : progress.Covers lines earlier) {b : ChunkMatch}
    (hb : b.isInsertion = false)
    (hreach : ∀ m ∈ earlier, m.isInsertion = false → stop m.replacement ≤ stop b.replacement) :
    { progress with replacedTo :=
        if b.replacement.1 < lines.length then stop b.replacement else progress.replacedTo }.Covers
      lines (b :: earlier) where
  inserts := by simpa [hb] using h.inserts
  le m hm hinsertion hstart := by
    rcases mem_cons.mp hm with rfl | hm
    · rw [if_pos hstart]
    · dsimp only
      split
      · exact hreach m hm hinsertion
      · exact h.le m hm hinsertion hstart
  reached := by
    dsimp only
    split
    · next hstart => exact .inr ⟨b, mem_cons_self, hb, hstart, rfl⟩
    · exact h.reached.imp_right fun ⟨m, hm, hreached⟩ => ⟨m, mem_cons_of_mem b hm, hreached⟩

theorem forall_clear_cons {b : ChunkMatch} {later : List ChunkMatch} :
    (∀ a ∈ earlier, ∀ c ∈ b :: later, a.Clear lines c) ∧
        (b :: later).Pairwise (ChunkMatch.Clear lines) ↔
      (∀ a ∈ earlier, a.Clear lines b) ∧ (∀ a ∈ b :: earlier, ∀ c ∈ later, a.Clear lines c) ∧
        later.Pairwise (ChunkMatch.Clear lines) := by
  simp only [forall_mem_cons, pairwise_cons, forall_and]
  tauto

/-- The chunks keep off the regions of the matches before them just if all matches are clear. -/
theorem keepsOff_iff {path : Text} {lineIndex : Nat} {found : List ChunkMatch}
    (hindex : lineIndex ≤ lines.length) (h : matchChunks lines path chunks lineIndex = .ok found)
    (hcovers : progress.Covers lines earlier)
    (hearlier : ∀ m ∈ earlier, stop m.replacement ≤ lines.length)
    (hfrom : ∀ m ∈ earlier, m.isInsertion = false → stop m.replacement ≤ lineIndex) :
    keepsOff lines path chunks lineIndex progress = true ↔
      (∀ a ∈ earlier, ∀ b ∈ found, a.Clear lines b) ∧ found.Pairwise (ChunkMatch.Clear lines) := by
  induction chunks generalizing lineIndex progress earlier found with
  | nil =>
    cases h
    simp [keepsOff]
  | cons chunk chunks ih =>
    obtain ⟨cursor, hcursor, h⟩ := exists_of_bind_eq_ok h
    obtain ⟨hforward, hinside⟩ := seekContext_bounds hindex hcursor
    simp only [keepsOff, hcursor]
    split at h
    · next hold =>
      obtain ⟨later, hlater, h⟩ := exists_of_bind_eq_ok h
      cases h
      let insertion : ChunkMatch :=
        ⟨true, chunk.isEndOfFile, insertionIndex lines .normalizeToLf, 0, chunk.newLines⟩
      have hplaced : insertion.Placed lines 0 := ⟨rfl, rfl⟩
      have hstop := hplaced.stop_le
      rw [if_pos hold, Bool.and_eq_true, forall_clear_cons]
      refine and_congr (hcovers.admitsInsertion hearlier rfl) (ih hinside hlater
        (hcovers.insertion rfl) (forall_mem_cons.mpr ⟨hstop, hearlier⟩)
        (forall_mem_cons.mpr ⟨?_, ?_⟩))
      · intro hfalse
        cases hfalse
      · exact fun m hm hinsertion => (hfrom m hm hinsertion).trans hforward
    · next hold =>
      rw [if_neg hold]
      split at h
      · cases h
      · next start pattern newSlice hfound =>
        obtain ⟨later, hlater, h⟩ := exists_of_bind_eq_ok h
        cases h
        have hstop := (seekChunk_bounds hinside hfound).1
        have hreach : ∀ m ∈ earlier, m.isInsertion = false →
            stop m.replacement ≤ start + pattern.length := fun m hm hinsertion =>
          (hfrom m hm hinsertion).trans (hforward.trans (le_stop_of_seekChunk hinside hfound))
        let b : ChunkMatch := ⟨false, chunk.isEndOfFile, start, pattern.length, newSlice⟩
        rw [Bool.and_eq_true, forall_clear_cons]
        exact and_congr (hcovers.admitsRegion hearlier (b := b) rfl hstop)
          (ih hstop hlater (hcovers.region (b := b) rfl hreach)
            (forall_mem_cons.mpr ⟨hstop, hearlier⟩)
            (forall_mem_cons.mpr ⟨fun _ => le_rfl, hreach⟩))

theorem computeReplacements_eq_ok {path : Text}
    (h : computeReplacements lines path chunks .normalizeToLf = .ok replacements) :
    ∃ found, matchChunks lines path chunks 0 = .ok found ∧
      replacements = List.insertionSort startLe (found.map ChunkMatch.replacement) := by
  rw [computeReplacements, collectReplacements_eq] at h
  cases hfound : matchChunks lines path chunks 0 with
  | error e =>
    rw [hfound] at h
    cases h
  | ok found =>
    rw [hfound] at h
    cases h
    exact ⟨found, rfl, rfl⟩

theorem replacements_in_bounds {path : Text}
    (h : computeReplacements lines path chunks .normalizeToLf = .ok replacements) :
    ∀ r ∈ replacements, stop r ≤ lines.length := by
  obtain ⟨found, hfound, rfl⟩ := computeReplacements_eq_ok h
  intro r hr
  obtain ⟨m, hm, rfl⟩ := mem_map.mp ((perm_insertionSort startLe _).mem_iff.mp hr)
  exact ((placed_of_matchChunks (Nat.zero_le _) hfound).1 m hm).stop_le

/-- The replacements are separate, and each region is replaced by the lines of its own chunk, just
if every chunk keeps off what the chunks before it have done. -/
theorem replacements_separate_iff {lines : List Text} {path : Text}
    {chunks : List UpdateFileChunk} {replacements : List Replacement}
    (h : computeReplacements lines path chunks .normalizeToLf = .ok replacements) :
    ∃ found, matchChunks lines path chunks 0 = .ok found ∧
      replacements.Perm (found.map ChunkMatch.replacement) ∧
      (((∀ r ∈ replacements, stop r ≤ lines.length) ∧ Separate replacements ∧
          applyReplacements lines replacements = splice 0 replacements lines) ↔
        keepsOff lines path chunks 0 ⟨0, false⟩ = true) := by
  have hbound := replacements_in_bounds h
  obtain ⟨found, hfound, rfl⟩ := computeReplacements_eq_ok h
  obtain ⟨hplaced, hpairs⟩ := placed_of_matchChunks (Nat.zero_le _) hfound
  have hcovers : Progress.Covers lines ⟨0, false⟩ [] := ⟨by simp, by simp, .inl rfl⟩
  have hsep : Separate (List.insertionSort startLe (found.map ChunkMatch.replacement)) ↔
      keepsOff lines path chunks 0 ⟨0, false⟩ = true := by
    rw [separate_insertionSort_iff, pairwise_apart_iff_clear hplaced hpairs,
      keepsOff_iff (Nat.zero_le _) hfound hcovers (by simp) (by simp)]
    simp
  refine ⟨found, hfound, perm_insertionSort startLe _, fun hall => hsep.mp hall.2.1,
    fun hclear => ?_⟩
  exact ⟨hbound, hsep.mpr hclear, applyReplacements_eq_splice (hsep.mpr hclear) hbound⟩

theorem replacements_separate_iff_in_order :
    let lines : List Text := [['a'], ['b'], ['c']]
    let chunks : List UpdateFileChunk :=
      [⟨none, [], [['z']], [], false⟩, ⟨none, [['a']], [['x']], [], false⟩,
        ⟨none, [['c']], [], [], true⟩]
    let replacements : List Replacement := [(0, 1, [['x']]), (2, 1, []), (3, 0, [['z']])]
    computeReplacements lines [] chunks .normalizeToLf = .ok replacements ∧
      Separate replacements ∧
        applyReplacements lines replacements = splice 0 replacements lines := by
  intro lines chunks replacements
  have hok : computeReplacements lines [] chunks .normalizeToLf = .ok replacements := by
    decide +kernel
  obtain ⟨_, _, -, hiff⟩ := replacements_separate_iff hok
  exact ⟨hok, (hiff.mpr (by decide +kernel)).2⟩

/-- A chunk at the end of the file that another one has replaced, and an insertion before a blank
last line that is replaced: the lines of one chunk are removed with those of the other. -/
theorem overlapping_chunks_lose_lines : (let lines : List Text := [['a'], ['b']]
      let chunks : List UpdateFileChunk :=
        [⟨none, [['a'], ['b']], [['x']], [], false⟩, ⟨none, [['b']], [['y']], [], true⟩]
      let replacements : List Replacement := [(0, 2, [['x']]), (1, 1, [['y']])]
      computeReplacements lines [] chunks .normalizeToLf = .ok replacements ∧
        ¬ Separate replacements ∧ applyReplacements lines replacements = [['x']]) ∧
    (let lines : List Text := [['a'], []]
      let chunks : List UpdateFileChunk :=
        [⟨none, [['a'], []], [['b'], []], [], false⟩, ⟨none, [], [['c']], [], false⟩]
      let replacements : List Replacement := [(0, 2, [['b'], []]), (1, 0, [['c']])]
      computeReplacements lines [] chunks .normalizeToLf = .ok replacements ∧
        ¬ Separate replacements ∧
        applyReplacements lines replacements = [['b'], [], []]) := by
  refine ⟨?_, ?_⟩
  · intro lines chunks replacements
    unfold Separate
    decide +kernel
  · intro lines chunks replacements
    unfold Separate
    decide +kernel

def endLines (lines : List Text) : Text := lines.flatMap (· ++ ['\n'])

theorem splitOn_endLines (h : ∀ line ∈ lines, '\n' ∉ line) :
    (endLines lines).splitOn '\n' = lines ++ [[]] := by
  have hsplit := Split.splitOn_flatMap_append '\n' lines h []
  rwa [append_nil, splitOn_nil] at hsplit

theorem newContents_endLines {path : Text} (hlines : ∀ line ∈ lines, '\n' ∉ line)
    (hok : computeReplacements lines path chunks .normalizeToLf = .ok replacements)
    (hsep : Separate replacements) : newContents path chunks .normalizeToLf (endLines lines) =
      let updated := splice 0 replacements lines
      .ok (endLines (if lastIsEmpty updated then updated.dropLast else updated)) := by
  have hlast : lastIsEmpty (lines ++ [[]]) := by simp [lastIsEmpty]
  simp only [newContents, splitOn_endLines hlines, hlast, if_true, dropLast_concat, hok,
    ok_bind, applyReplacements_eq_splice hsep (replacements_in_bounds hok)]
  congr 1
  split
  · next hempty =>
    obtain ⟨before, hbefore⟩ := getLast?_eq_some_iff.mp (of_decide_eq_true hempty)
    rw [hbefore, dropLast_concat, Text.intercalate_concat, append_nil, endLines]
  · rw [Text.intercalate_concat, append_nil, endLines]

/-- The update of a file whose lines are all ended has the lines that the patch asks for, just if
the last of them is not blank. -/
theorem update_has_spliced_lines_iff {lines : List Text} {path : Text}
    {chunks : List UpdateFileChunk} {replacements : List Replacement}
    (hlines : ∀ line ∈ lines, '\n' ∉ line)
    (hok : computeReplacements lines path chunks .normalizeToLf = .ok replacements)
    (hsep : Separate replacements) :
    newContents path chunks .normalizeToLf (endLines lines) =
        .ok (endLines (splice 0 replacements lines)) ↔
      (splice 0 replacements lines).getLast? ≠ some [] := by
  rw [newContents_endLines hlines hok hsep]
  generalize splice 0 replacements lines = updated
  by_cases hempty : updated.getLast? = some []
  · obtain ⟨before, rfl⟩ := getLast?_eq_some_iff.mp hempty
    have hlength : endLines before ≠ endLines (before ++ [[]]) := by
      intro heq
      have hlen := congrArg List.length heq
      simp [endLines] at hlen
    simp [lastIsEmpty, hlength]
  · simp [lastIsEmpty, hempty]

theorem update_has_spliced_lines_iff_first_line :
    newContents [] [⟨none, [['a']], [['b']], [], false⟩] .normalizeToLf
        (endLines [['a'], [], ['c']]) = .ok (endLines [['b'], [], ['c']]) := by
  have hsep : Separate [(0, 1, [['b']])] := pairwise_singleton _ _
  exact (update_has_spliced_lines_iff (by decide) (by decide +kernel) hsep).mpr (by decide)

/-- Of the two ended lines, the blank one is lost with the change of the other. -/
theorem update_drops_blank_last_line :
    computeReplacements [['a'], []] [] [⟨none, [['a']], [['b']], [], false⟩] .normalizeToLf =
        .ok [(0, 1, [['b']])] ∧
      newContents [] [⟨none, [['a']], [['b']], [], false⟩] .normalizeToLf
        (endLines [['a'], []]) = .ok (endLines [['b']]) ∧
      endLines [['b']] ≠ endLines [['b'], []] := by
  decide +kernel

end Codex.ApplyPatch

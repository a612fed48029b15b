import Codex.RemoteControl.WebsocketState

/-! For one message, the state behind the websocket comes down to what its stream holds of a message
and to whether the message has been delivered. -/

namespace Codex.RemoteControl.Segment
open Codex.Lib List Option ClientSegmentReassembler WebsocketState

structure Chunk where
  text : Text
  part : Bytes
  cursor : Option Text
  wireSizeBytes : Nat

structure ChunkedMessage {Message : Type} (codec : Codec Message) where
  clientId : Text
  streamId : Text
  metadata : ClientSegmentMetadata
  chunks : List Chunk
  message : Message
  length_chunks : chunks.length = metadata.segmentCount
  count_pos : 0 < metadata.segmentCount
  valid : ∀ i < metadata.segmentCount, ∀ chunk ∈ chunks,
    ClientSegmentReassembler.isInvalid metadata i chunk.text = false
  decodes : ∀ chunk ∈ chunks, codec.decode chunk.text = some chunk.part
  wire_le : ∀ chunk ∈ chunks, chunk.wireSizeBytes ≤ remoteControlSegmentMaxBytes
  size_eq : (chunks.map (·.part)).flatten.length = metadata.messageSizeBytes
  fromSlice_eq : codec.fromSlice (chunks.map (·.part)).flatten = some message

/-- `decoded_len_estimate` is not below what is decoded. -/
def Codec.Estimates {Message : Type} (codec : Codec Message) : Prop :=
  ∀ text part, codec.decode text = some part →
    part.length ≤ decodedLenEstimate (Text.bytes text).length

variable {Message RequestId Payload : Type} {codec : Codec Message} {m : ChunkedMessage codec}

def ChunkedMessage.envelope (m : ChunkedMessage codec) (i : Nat) (chunk : Chunk) :
    ClientEnvelope Message :=
  ⟨.clientMessageChunk i m.metadata.segmentCount m.metadata.messageSizeBytes chunk.text,
    m.clientId, some m.streamId, some m.metadata.seqId, chunk.cursor⟩

def deliver (codec : Codec Message) (moment : Moment) (state : WebsocketState RequestId Payload)
    (envelope : ClientEnvelope Message) (wireSizeBytes : Nat) :
    List (ClientEnvelope Message) × WebsocketState RequestId Payload :=
  match state.observeClientMessage codec moment envelope wireSizeBytes with
  | (.forward forwarded, state) =>
    ([forwarded], state.recordClientMessageDelivery forwarded
      (WebsocketState.clientMessageKey envelope))
  | (_, state) => ([], state)

def send (m : ChunkedMessage codec) (moment : Nat → Moment) :
    Nat → List Chunk → WebsocketState RequestId Payload →
      List (ClientEnvelope Message) × WebsocketState RequestId Payload
  | _, [], state => ([], state)
  | i, chunk :: chunks, state =>
    let first := deliver codec (moment i) state (m.envelope i chunk) chunk.wireSizeBytes
    let rest := send m moment (i + 1) chunks first.2
    (first.1 ++ rest.1, rest.2)

def assemblyOn (m : ChunkedMessage codec) (state : WebsocketState RequestId Payload) :
    Option ClientSegmentAssembly :=
  (state.clientSegmentReassembler.assembly? m.clientId).filter (·.streamId = m.streamId)

structure Held where
  metadata : ClientSegmentMetadata
  raw : Bytes
  nextSegmentId : Nat

structure View where
  held : Option Held
  completed : Bool

def viewOf (m : ChunkedMessage codec) (state : WebsocketState RequestId Payload) : View :=
  ⟨(assemblyOn m state).map fun a => ⟨a.metadata, a.raw, a.nextSegmentId⟩,
    state.isCompleted (m.clientId, some m.streamId) m.metadata.seqId⟩

namespace View

def step (m : ChunkedMessage codec) (i : Nat) (part : Bytes) (v : View) : List Message × View :=
  let h := v.held.getD ⟨m.metadata, [], 0⟩
  if v.completed then ([], v)
  else if m.metadata.seqId < h.metadata.seqId ∨
      m.metadata.seqId = h.metadata.seqId ∧ i < h.nextSegmentId then ([], v)
  else if h.metadata = m.metadata ∧ i = h.nextSegmentId ∧
      h.raw.length + part.length ≤ m.metadata.messageSizeBytes then
    if i + 1 < m.metadata.segmentCount then ([], ⟨some ⟨m.metadata, h.raw ++ part, i + 1⟩, false⟩)
    else if (h.raw ++ part).length = m.metadata.messageSizeBytes then
      match codec.fromSlice (h.raw ++ part) with
      | some message => ([message], ⟨none, true⟩)
      | none => ([], ⟨none, false⟩)
    else ([], ⟨none, false⟩)
  else ([], ⟨none, false⟩)

def run (m : ChunkedMessage codec) : Nat → List Bytes → View → List Message × View
  | _, [], v => ([], v)
  | i, part :: parts, v =>
    let first := v.step m i part
    let rest := run m (i + 1) parts first.2
    (first.1 ++ rest.1, rest.2)

/-- What becomes of the bytes of all segments. -/
def finish (m : ChunkedMessage codec) (raw : Bytes) : List Message × View :=
  if raw.length = m.metadata.messageSizeBytes then
    match codec.fromSlice raw with
    | some message => ([message], ⟨none, true⟩)
    | none => ([], ⟨none, false⟩)
  else ([], ⟨none, false⟩)

theorem finish_message :
    finish m (m.chunks.map (·.part)).flatten = ([m.message], ⟨none, true⟩) := by
  rw [finish, if_pos m.size_eq, m.fromSlice_eq]

variable {v : View} {h : Held} {held : Option Held} {i : Nat} {part : Bytes} {parts : List Bytes}

theorem step_ignored (hseq : m.metadata.seqId = h.metadata.seqId) (hi : i < h.nextSegmentId) :
    step m i part ⟨some h, false⟩ = ([], ⟨some h, false⟩) := by
  simp [step, hseq, hi]

theorem step_dropped (hheld : held.getD ⟨m.metadata, [], 0⟩ = h)
    (hseq : h.metadata.seqId ≤ m.metadata.seqId)
    (hi : m.metadata.seqId = h.metadata.seqId → h.nextSegmentId ≤ i)
    (hne : ¬ (h.metadata = m.metadata ∧ i = h.nextSegmentId ∧
      h.raw.length + part.length ≤ m.metadata.messageSizeBytes)) :
    step m i part ⟨held, false⟩ = ([], ⟨none, false⟩) := by
  simp only [step, hheld, Bool.false_eq_true, if_false]
  rw [if_neg (by omega), if_neg hne]

theorem step_accepted (hheld : held.getD ⟨m.metadata, [], 0⟩ = h) (hmeta : h.metadata = m.metadata)
    (hfits : h.raw.length + part.length ≤ m.metadata.messageSizeBytes) :
    step m h.nextSegmentId part ⟨held, false⟩ =
      if h.nextSegmentId + 1 < m.metadata.segmentCount then
        ([], ⟨some ⟨m.metadata, h.raw ++ part, h.nextSegmentId + 1⟩, false⟩)
      else finish m (h.raw ++ part) := by
  simp only [step, hheld, Bool.false_eq_true, if_false]
  rw [hmeta, if_neg (by omega), if_pos ⟨rfl, trivial, hfits⟩]
  rfl

theorem run_cons {v' : View} {result : List Message × View} (hstep : step m i part v = ([], v'))
    (hrest : run m (i + 1) parts v' = result) : run m i (part :: parts) v = result := by
  rw [run, hstep, ← hrest]
  rfl

theorem run_completed (parts : List Bytes) (held : Option Held) :
    run m i parts ⟨held, true⟩ = ([], ⟨held, true⟩) := by
  induction parts generalizing i with
  | nil => rfl
  | cons part parts ih => exact run_cons (by simp [step]) ih

theorem run_none (hi : 0 < i) (parts : List Bytes) :
    run m i parts ⟨none, false⟩ = ([], ⟨none, false⟩) := by
  induction parts generalizing i with
  | nil => rfl
  | cons part parts ih =>
    exact run_cons (step_dropped rfl (Nat.le_refl _) (fun _ => Nat.zero_le i)
      fun hstart => hi.ne' hstart.2.1) (ih (Nat.succ_pos i))

theorem run_ignored (hseq : m.metadata.seqId = h.metadata.seqId)
    (hle : i + parts.length ≤ h.nextSegmentId) :
    run m i parts ⟨some h, false⟩ = ([], ⟨some h, false⟩) := by
  induction parts generalizing i with
  | nil => rfl
  | cons part parts ih =>
    rw [length_cons] at hle
    exact run_cons (step_ignored hseq (by omega)) (ih (by omega))

theorem run_other (hne : h.metadata ≠ m.metadata) (hseq : h.metadata.seqId ≤ m.metadata.seqId)
    (hlt : m.metadata.seqId = h.metadata.seqId → h.nextSegmentId < i + parts.length)
    (hsome : parts ≠ []) : run m i parts ⟨some h, false⟩ = ([], ⟨none, false⟩) := by
  induction parts generalizing i with
  | nil => exact absurd rfl hsome
  | cons part parts ih =>
    rw [length_cons] at hlt
    by_cases hi : m.metadata.seqId = h.metadata.seqId ∧ i < h.nextSegmentId
    · have hlater := hlt hi.1
      have hrest : parts ≠ [] := ne_nil_of_length_pos (by omega)
      exact run_cons (step_ignored hi.1 hi.2) (ih (by omega) hrest)
    · exact run_cons (step_dropped (h := h) rfl hseq (by omega) fun hsame => hne hsame.1)
        (run_none (Nat.succ_pos i) parts)

theorem run_skip (hseq : m.metadata.seqId = h.metadata.seqId) (hi : i ≤ h.nextSegmentId)
    (hle : h.nextSegmentId ≤ i + parts.length) :
    run m i parts ⟨some h, false⟩ =
      run m h.nextSegmentId (parts.drop (h.nextSegmentId - i)) ⟨some h, false⟩ := by
  induction parts generalizing i with
  | nil =>
    rw [Nat.le_antisymm hi hle, drop_nil]
  | cons part parts ih =>
    rw [length_cons] at hle
    rcases Nat.eq_or_lt_of_le hi with heq | hlt
    · rw [heq, Nat.sub_self, drop_zero]
    · have hdrop : h.nextSegmentId - i = h.nextSegmentId - (i + 1) + 1 := by omega
      rw [hdrop, drop_succ_cons]
      exact run_cons (step_ignored hseq hlt) (ih hlt (by omega))

theorem run_accepts (hheld : held.getD ⟨m.metadata, [], 0⟩ = h) (hmeta : h.metadata = m.metadata)
    (hcount : h.nextSegmentId + parts.length = m.metadata.segmentCount) (hsome : parts ≠ []) :
    run m h.nextSegmentId parts ⟨held, false⟩ = finish m (h.raw ++ parts.flatten) := by
  induction parts generalizing h held with
  | nil => exact absurd rfl hsome
  | cons part parts ih =>
    rw [length_cons] at hcount
    rw [flatten_cons, ← append_assoc]
    by_cases hfits : h.raw.length + part.length ≤ m.metadata.messageSizeBytes
    · have hstep := step_accepted hheld hmeta hfits
      cases parts with
      | nil =>
        rw [length_nil] at hcount
        rw [if_neg (by omega)] at hstep
        simp only [run, hstep, append_nil, flatten_nil]
      | cons next parts =>
        rw [length_cons] at hcount
        rw [if_pos (by omega)] at hstep
        refine run_cons hstep (ih rfl rfl ?_ (cons_ne_nil _ _))
        simp only [getD_some, length_cons]
        omega
    · have hlong : ¬ (h.raw ++ part ++ parts.flatten).length = m.metadata.messageSizeBytes := by
        rw [length_append, length_append]
        omega
      rw [finish, if_neg hlong]
      exact run_cons (step_dropped hheld (by rw [hmeta]) (fun _ => Nat.le_refl _)
        fun hok => hfits hok.2.2) (run_none (Nat.succ_pos _) parts)

end View

section Refinement
variable {state : WebsocketState RequestId Payload} {self : ClientSegmentReassembler}
  {assembly : ClientSegmentAssembly} {moment : Moment} {i : Nat} {chunk : Chunk} {text : Text}
  {part : Bytes} {key : Option (MessageKey × Nat)}

theorem updateAssembly_of_fits (hest : codec.Estimates) (hdecode : codec.decode text = some part)
    (hmeta : assembly.metadata = m.metadata) (hi : i = assembly.nextSegmentId)
    (hfits : assembly.raw.length + part.length ≤ m.metadata.messageSizeBytes) (now : Nat) :
    updateAssembly codec now m.metadata i text assembly =
      (if i + 1 < m.metadata.segmentCount then .pending
        else if (assembly.raw ++ part).length = m.metadata.messageSizeBytes then
          match codec.fromSlice (assembly.raw ++ part) with
          | some message => .complete message
          | none => .drop
        else .drop, assembly.extend now part) := by
  have hroom := hest text part hdecode
  have hslice : codec.decodeSlice text (min m.metadata.messageSizeBytes
      (assembly.raw.length + decodedLenEstimate (Text.bytes text).length) -
        assembly.raw.length) = some part :=
    Codec.decodeSlice_eq_some_iff.mpr ⟨hdecode, by omega⟩
  subst hi
  rw [updateAssembly, if_neg (by rw [hmeta]; exact Nat.lt_irrefl _), if_neg (not_not.mpr hmeta),
    if_neg (Nat.lt_irrefl _), if_neg (not_not.mpr rfl)]
  dsimp only
  rw [hslice]
  dsimp only
  by_cases hmore : assembly.nextSegmentId + 1 < m.metadata.segmentCount
  · rw [if_pos hmore, if_pos hmore]
    rfl
  · rw [if_neg hmore, if_neg hmore]
    by_cases hsize : (assembly.raw ++ part).length = m.metadata.messageSizeBytes
    · rw [if_neg (not_not.mpr hsize), if_pos hsize]
      cases codec.fromSlice (assembly.raw ++ part) <;> rfl
    · rw [if_pos hsize, if_neg hsize]
      rfl

theorem updateAssembly_of_not_fits (hdecode : codec.decode text = some part)
    (hignore : ¬ (m.metadata.seqId < assembly.metadata.seqId ∨
      m.metadata.seqId = assembly.metadata.seqId ∧ i < assembly.nextSegmentId))
    (hraw : assembly.raw.length ≤ assembly.metadata.messageSizeBytes)
    (hfits : ¬ (assembly.metadata = m.metadata ∧ i = assembly.nextSegmentId ∧
      assembly.raw.length + part.length ≤ m.metadata.messageSizeBytes)) (now : Nat) :
    ∃ assembly', updateAssembly codec now m.metadata i text assembly = (.drop, assembly') ∧
      assembly'.streamId = assembly.streamId := by
  rw [updateAssembly, if_neg fun hlt => hignore (.inl hlt)]
  by_cases hmeta : assembly.metadata = m.metadata
  case neg => exact ⟨assembly, by rw [if_pos hmeta], rfl⟩
  rw [if_neg (not_not.mpr hmeta), if_neg fun hlt => hignore (.inr ⟨by rw [hmeta], hlt⟩)]
  by_cases hi : i = assembly.nextSegmentId
  case neg => exact ⟨assembly, by rw [if_pos hi], rfl⟩
  have hover : ¬ assembly.raw.length + part.length ≤ m.metadata.messageSizeBytes :=
    fun hle => hfits ⟨hmeta, hi, hle⟩
  have hslice (size : Nat) (hle : size ≤ m.metadata.messageSizeBytes - assembly.raw.length) :
      codec.decodeSlice text size = none := by
    rw [Codec.decodeSlice, hdecode]
    rw [hmeta] at hraw
    refine filter_eq_none_iff.mpr fun _ hpart => ?_
    obtain rfl := Option.some.inj hpart
    rw [decide_eq_true_iff]
    omega
  refine ⟨{ assembly with lastChunkSeenAt := now }, ?_, rfl⟩
  rw [if_neg (not_not.mpr hi)]
  dsimp only
  rw [hslice _ (by omega)]

def AssemblyUpdate.observation (envelope : ClientEnvelope Message) :
    AssemblyUpdate Message → ClientSegmentObservation Message
  | .pending => .pending
  | .complete message => .forward { envelope with event := .clientMessage message }
  | _ => .dropped

def AssemblyUpdate.kept (assembly : ClientSegmentAssembly) :
    AssemblyUpdate Message → Option ClientSegmentAssembly
  | .pending | .ignore => some assembly
  | _ => none

def AssemblyUpdate.delivered : AssemblyUpdate Message → List Message
  | .complete message => [message]
  | _ => []

theorem observe_of_update (hvalid : isInvalid m.metadata i chunk.text =
      false)
    (hignore : self.shouldIgnoreChunk m.clientId m.streamId m.metadata.seqId i = false)
    {result : AssemblyUpdate Message} {assembly' : ClientSegmentAssembly}
    (hresumed : self.resumed moment.now m.clientId m.streamId m.metadata = assembly)
    (hupdate : updateAssembly codec moment.now m.metadata i chunk.text assembly =
      (result, assembly')) (hstream : assembly'.streamId = m.streamId) :
    (self.observe codec moment (m.envelope i chunk)).1 = result.observation (m.envelope i chunk) ∧
      (self.observe codec moment (m.envelope i chunk)).2.assembly? m.clientId =
        result.kept assembly' := by
  have hgone := removeAssembly_insert_assembly?
    (self.ensureAssembly moment m.clientId m.streamId m.metadata) m.clientId assembly'
  rw [hstream] at hgone
  have hobserve : self.observe codec moment (m.envelope i chunk) =
      (let s := self.ensureAssembly moment m.clientId m.streamId m.metadata
      let s : ClientSegmentReassembler := ⟨s.assemblies.insert m.clientId assembly'⟩
      match result with
      | .pending => (.pending, s)
      | .ignore => (.dropped, s)
      | .drop => (.dropped, s.removeAssembly m.clientId m.streamId)
      | .complete message =>
        (.forward { m.envelope i chunk with event := .clientMessage message },
          s.removeAssembly m.clientId m.streamId)) := by
    simp only [observe, ChunkedMessage.envelope,
      ClientSegmentMetadata.fromEnvelope, map_some, hignore, hvalid, Bool.false_eq_true,
      if_false, ensureAssembly_assembly?, hresumed, hupdate]
    cases result <;> rfl
  rw [hobserve]
  cases result with
  | pending => exact ⟨rfl, AList.lookup_insert _⟩
  | ignore => exact ⟨rfl, AList.lookup_insert _⟩
  | drop => exact ⟨rfl, hgone⟩
  | complete message => exact ⟨rfl, hgone⟩

theorem viewOf_of_own {state' : WebsocketState RequestId Payload}
    {own : Option ClientSegmentAssembly}
    (hown : state'.clientSegmentReassembler.assembly? m.clientId = own)
    (hstream : ∀ assembly ∈ own, assembly.streamId = m.streamId)
    (hcursor : state'.lastCompletedClientChunkSeqIdByStream =
      state.lastCompletedClientChunkSeqIdByStream) :
    viewOf m state' = ⟨own.map fun a => ⟨a.metadata, a.raw, a.nextSegmentId⟩,
      (viewOf m state).completed⟩ := by
  have hfilter : own.filter (·.streamId = m.streamId) = own := by
    cases own with
    | none => rfl
    | some assembly => simp [Option.filter, hstream assembly rfl]
  rw [viewOf, assemblyOn, hown, hfilter, viewOf, isCompleted, hcursor]
  rfl

theorem viewOf_recorded {envelope : ClientEnvelope Message}
    (hown : state.clientSegmentReassembler.assembly? m.clientId = none)
    (hkey : key = some ((m.clientId, some m.streamId), m.metadata.seqId)) :
    viewOf m (state.recordClientMessageDelivery envelope key) = ⟨none, true⟩ := by
  have hlookup (map : AList fun _ : MessageKey => Nat) :
      ((map.insert (m.clientId, some m.streamId) m.metadata.seqId).lookup
        (m.clientId, some m.streamId)).any (· ≥ m.metadata.seqId) := by
    rw [AList.lookup_insert]
    simp
  subst hkey
  rw [viewOf, assemblyOn]
  dsimp only [recordClientMessageDelivery]
  rw [hown, isCompleted, hlookup]
  rfl

theorem deliver_of_update (hchunk : chunk ∈ m.chunks) (hi : i < m.metadata.segmentCount)
    (hcompleted : (viewOf m state).completed = false)
    (hignore : state.shouldIgnore (m.envelope i chunk) m.metadata.seqId = false)
    {result : AssemblyUpdate Message} {assembly' : ClientSegmentAssembly}
    (hresumed : state.clientSegmentReassembler.resumed moment.now m.clientId m.streamId
      m.metadata = assembly)
    (hupdate : updateAssembly codec moment.now m.metadata i chunk.text assembly =
      (result, assembly')) (hstream : assembly'.streamId = m.streamId) :
    (deliver codec moment state (m.envelope i chunk) chunk.wireSizeBytes).1.map (·.event) =
        result.delivered.map .clientMessage ∧
      viewOf m (deliver codec moment state (m.envelope i chunk) chunk.wireSizeBytes).2 =
        ⟨(result.kept assembly').map fun a => ⟨a.metadata, a.raw, a.nextSegmentId⟩,
          !result.delivered.isEmpty⟩ := by
  have hkey : clientMessageKey (m.envelope i chunk) =
      some ((m.clientId, some m.streamId), m.metadata.seqId) := rfl
  have hopen : state.isCompleted (m.clientId, some m.streamId) m.metadata.seqId = false :=
    hcompleted
  obtain ⟨hobs, hown⟩ := observe_of_update (m.valid i hi chunk hchunk) hignore hresumed hupdate
    hstream
  rw [deliver, observeClientMessage, hkey]
  simp only [hopen, hignore, Bool.false_eq_true, if_false,
    if_neg (Nat.not_lt.mpr (m.wire_le chunk hchunk)), observeReassembler]
  generalize state.clientSegmentReassembler.observe codec moment (m.envelope i chunk) =
    observed at hobs hown
  obtain ⟨observation, reassembler⟩ := observed
  dsimp only at hobs hown
  subst hobs
  have hview (hkept : ∀ a ∈ result.kept assembly', a.streamId = m.streamId) :=
    @viewOf_of_own _ _ _ _ m state { state with clientSegmentReassembler := reassembler } _ hown
      hkept rfl
  rw [hcompleted] at hview
  cases result with
  | pending | ignore => exact ⟨rfl, hview (by rintro _ ⟨⟩; exact hstream)⟩
  | drop => exact ⟨rfl, hview (by rintro _ ⟨⟩)⟩
  | complete message => exact ⟨rfl, viewOf_recorded hown rfl⟩

open View

theorem deliver_view (hest : codec.Estimates) (hchunk : chunk ∈ m.chunks)
    (hi : i < m.metadata.segmentCount)
    (hraw : ∀ assembly ∈ state.clientSegmentReassembler.assembly? m.clientId,
      assembly.raw.length ≤ assembly.metadata.messageSizeBytes) :
    (deliver codec moment state (m.envelope i chunk) chunk.wireSizeBytes).1.map (·.event) =
        ((viewOf m state).step m i chunk.part).1.map .clientMessage ∧
      viewOf m (deliver codec moment state (m.envelope i chunk) chunk.wireSizeBytes).2 =
        ((viewOf m state).step m i chunk.part).2 := by
  generalize hresumed : state.clientSegmentReassembler.resumed moment.now m.clientId m.streamId
    m.metadata = assembly
  have hheld : (viewOf m state).held.getD ⟨m.metadata, [], 0⟩ =
      ⟨assembly.metadata, assembly.raw, assembly.nextSegmentId⟩ := by
    rw [← hresumed, viewOf, assemblyOn, resumed]
    cases (state.clientSegmentReassembler.assembly? m.clientId).filter (·.streamId = m.streamId)
      <;> rfl
  have hstream : assembly.streamId = m.streamId := by
    rw [← hresumed]
    exact resumed_streamId moment.now m.metadata
  have hle : assembly.raw.length ≤ assembly.metadata.messageSizeBytes := by
    rw [← hresumed, resumed]
    cases hown : (state.clientSegmentReassembler.assembly? m.clientId).filter
        (·.streamId = m.streamId) with
    | none => exact Nat.zero_le _
    | some own => exact hraw own (filter_eq_some_iff.mp hown).1
  have hkey : clientMessageKey (m.envelope i chunk) =
      some ((m.clientId, some m.streamId), m.metadata.seqId) := rfl
  have hshould : state.shouldIgnore (m.envelope i chunk) m.metadata.seqId ↔
      m.metadata.seqId < assembly.metadata.seqId ∨
        m.metadata.seqId = assembly.metadata.seqId ∧ i < assembly.nextSegmentId := by
    rw [← hresumed]
    exact shouldIgnoreChunk_iff moment.now
  rw [step, hheld]
  dsimp only
  by_cases hcompleted : (viewOf m state).completed
  · rw [if_pos hcompleted, deliver, observeClientMessage, hkey]
    dsimp only
    rw [if_pos (show state.isCompleted _ _ from hcompleted)]
    exact ⟨rfl, rfl⟩
  by_cases hignore : m.metadata.seqId < assembly.metadata.seqId ∨
      m.metadata.seqId = assembly.metadata.seqId ∧ i < assembly.nextSegmentId
  · rw [if_neg hcompleted, if_pos hignore, deliver, observeClientMessage, hkey]
    dsimp only
    rw [if_neg (show ¬ state.isCompleted _ _ from hcompleted), if_pos (hshould.mpr hignore)]
    exact ⟨rfl, rfl⟩
  rw [if_neg hcompleted, if_neg hignore]
  rw [Bool.not_eq_true] at hcompleted
  have hkept : state.shouldIgnore (m.envelope i chunk) m.metadata.seqId = false :=
    Bool.eq_false_iff.mpr (hignore ∘ hshould.mp)
  by_cases hfits : assembly.metadata = m.metadata ∧ i = assembly.nextSegmentId ∧
      assembly.raw.length + chunk.part.length ≤ m.metadata.messageSizeBytes
  · rw [if_pos hfits]
    obtain ⟨hmeta, hnext, hroom⟩ := hfits
    have hupdate := updateAssembly_of_fits hest (m.decodes chunk hchunk) hmeta hnext hroom
      moment.now
    have hresult := deliver_of_update hchunk hi hcompleted hkept hresumed hupdate hstream
    rw [hresult.1, hresult.2]
    split
    · exact ⟨rfl, by simp [AssemblyUpdate.kept, AssemblyUpdate.delivered,
        ClientSegmentAssembly.extend, hmeta, hnext]⟩
    · split
      · cases codec.fromSlice (assembly.raw ++ chunk.part) <;> exact ⟨rfl, rfl⟩
      · exact ⟨rfl, rfl⟩
  · rw [if_neg hfits]
    obtain ⟨assembly', hupdate, hstream'⟩ := updateAssembly_of_not_fits
      (m.decodes chunk hchunk) hignore hle hfits moment.now
    exact deliver_of_update hchunk hi hcompleted hkept hresumed hupdate (hstream'.trans hstream)

theorem Reachable.deliver (hreach : state.Reachable codec) (moment : Moment)
    (envelope : ClientEnvelope Message) (wireSizeBytes : Nat) :
    (deliver codec moment state envelope wireSizeBytes).2.Reachable codec := by
  have hobserve := hreach.observe moment envelope wireSizeBytes
  rw [Segment.deliver]
  split
  case h_1 forwarded state' hresult =>
    rw [hresult] at hobserve
    exact hobserve.record forwarded _
  case h_2 observation state' hother hresult =>
    rw [hresult] at hobserve
    exact hobserve

theorem send_view (hest : codec.Estimates) (hreach : state.Reachable codec) {chunks : List Chunk}
    (hchunks : chunks ⊆ m.chunks) (hcount : i + chunks.length ≤ m.metadata.segmentCount)
    (moment : Nat → Moment) :
    (send m moment i chunks state).1.map (·.event) =
        (View.run m i (chunks.map (·.part)) (viewOf m state)).1.map .clientMessage ∧
      viewOf m (send m moment i chunks state).2 =
        (View.run m i (chunks.map (·.part)) (viewOf m state)).2 ∧
      (send m moment i chunks state).2.Reachable codec := by
  induction chunks generalizing i state with
  | nil => exact ⟨rfl, rfl, hreach⟩
  | cons chunk chunks ih =>
    obtain ⟨hchunk, hrest⟩ := cons_subset.mp hchunks
    rw [length_cons] at hcount
    obtain ⟨calls, hcalls⟩ := hreach.exists_run
    have hraw := (sound_run codec calls).raw_le m.clientId
    rw [← hcalls] at hraw
    obtain ⟨hevents, hview⟩ :=
      deliver_view (m := m) hest hchunk (by omega : i < m.metadata.segmentCount) hraw
    obtain ⟨hlater, hviews, hreach'⟩ := ih
      (Reachable.deliver hreach (moment i) (m.envelope i chunk) chunk.wireSizeBytes) hrest
      (by omega : i + 1 + chunks.length ≤ m.metadata.segmentCount)
    rw [hview] at hlater hviews
    refine ⟨?_, hviews, hreach'⟩
    rw [send, map_append, hevents, hlater, map_cons, View.run, map_append]

end Refinement

theorem View.run_twice {v : View} (hcompleted : v.completed = false)
    (hheld : ∀ h ∈ v.held, h.metadata.seqId ≤ m.metadata.seqId ∧
      h.nextSegmentId < h.metadata.segmentCount ∧
      (h.metadata = m.metadata → h.raw <+: (m.chunks.map (·.part)).flatten)) :
    (v.run m 0 (m.chunks.map (·.part))).1 ++
        ((v.run m 0 (m.chunks.map (·.part))).2.run m 0 (m.chunks.map (·.part))).1 =
      if v.held.any fun h => h.metadata.seqId = m.metadata.seqId ∧ h.metadata ≠ m.metadata ∧
        m.metadata.segmentCount ≤ h.nextSegmentId then [] else [m.message] := by
  have hpos := m.count_pos
  have hlength : (m.chunks.map (·.part)).length = m.metadata.segmentCount := by
    rw [length_map, m.length_chunks]
  have hsome : m.chunks.map (·.part) ≠ [] := ne_nil_of_length_pos (by omega)
  have hfresh : run m 0 (m.chunks.map (·.part)) ⟨none, false⟩ =
      ([m.message], ⟨none, true⟩) :=
    (run_accepts (h := ⟨m.metadata, [], 0⟩) rfl rfl (by rw [hlength, Nat.zero_add])
      hsome).trans finish_message
  obtain ⟨held, completed⟩ := v
  obtain rfl : completed = false := hcompleted
  cases held with
  | none =>
    rw [hfresh, run_completed]
    rfl
  | some h =>
    obtain ⟨hseq, hnext, hprefix⟩ := hheld h rfl
    by_cases hmeta : h.metadata = m.metadata
    · rw [if_neg (by simp [hmeta])]
      rw [hmeta] at hnext
      obtain ⟨rest, hrest⟩ := hprefix hmeta
      have hleft : ((m.chunks.map (·.part)).drop h.nextSegmentId).length =
          m.metadata.segmentCount - h.nextSegmentId := by rw [length_drop, hlength]
      have hrun : run m 0 (m.chunks.map (·.part)) ⟨some h, false⟩ =
          finish m (h.raw ++ ((m.chunks.map (·.part)).drop h.nextSegmentId).flatten) := by
        rw [run_skip (congrArg _ hmeta.symm) (Nat.zero_le _) (by omega)]
        exact run_accepts rfl hmeta (by rw [Nat.sub_zero]; omega)
          (ne_nil_of_length_pos (by rw [Nat.sub_zero]; omega))
      have hsplit : (m.chunks.map (·.part)).flatten =
          ((m.chunks.map (·.part)).take h.nextSegmentId).flatten ++
            ((m.chunks.map (·.part)).drop h.nextSegmentId).flatten := by
        rw [← flatten_append, take_append_drop]
      by_cases hsize : (h.raw ++ ((m.chunks.map (·.part)).drop h.nextSegmentId).flatten).length =
          m.metadata.messageSizeBytes
      · have htotal := congrArg List.length hsplit
        rw [m.size_eq, ← hsize, length_append, length_append] at htotal
        have hraw := append_inj_left (hrest.trans hsplit) (by omega)
        rw [hrun, hraw, ← hsplit, finish_message, run_completed]
        rfl
      · rw [hrun, finish, if_neg hsize, hfresh]
        rfl
    · by_cases hstuck : h.metadata.seqId = m.metadata.seqId ∧
          m.metadata.segmentCount ≤ h.nextSegmentId
      · rw [if_pos (by simp [hmeta, hstuck]), run_ignored hstuck.1.symm (by omega),
          run_ignored hstuck.1.symm (by omega)]
        rfl
      · rw [if_neg (by simpa [hmeta] using hstuck), run_other hmeta hseq (by omega) hsome, hfresh]
        rfl

/-- The client is in the middle of another message with the same number, and has sent at least as
many segments of it as this one has. -/
def Superseded (m : ChunkedMessage codec) (state : WebsocketState RequestId Payload) : Prop :=
  ∃ assembly ∈ assemblyOn m state, assembly.metadata.seqId = m.metadata.seqId ∧
    assembly.metadata ≠ m.metadata ∧ m.metadata.segmentCount ≤ assembly.nextSegmentId

/-- Sending a message twice forwards it exactly once, unless the state takes its chunks for those
of another message with the same number. -/
theorem sent_twice_forwards_once_iff {state : WebsocketState RequestId Payload}
    (hest : codec.Estimates) (hreach : state.Reachable codec)
    (hlast : ∀ seqId ∈ state.lastCompletedClientChunkSeqIdByStream.lookup
      (m.clientId, some m.streamId), seqId < m.metadata.seqId)
    (hown : ∀ assembly ∈ assemblyOn m state, assembly.metadata.seqId ≤ m.metadata.seqId ∧
      (assembly.metadata = m.metadata → assembly.raw <+: (m.chunks.map (·.part)).flatten))
    (first second : Nat → Moment) :
    ((send m first 0 m.chunks state).1 ++
        (send m second 0 m.chunks (send m first 0 m.chunks state).2).1).map (·.event) =
      [.clientMessage m.message] ↔ ¬ Superseded m state := by
  have hcount : 0 + m.chunks.length ≤ m.metadata.segmentCount := by
    rw [Nat.zero_add, m.length_chunks]
  obtain ⟨hevents, hview, hreach'⟩ := send_view hest hreach (List.Subset.refl m.chunks) hcount first
  obtain ⟨hagain, -, -⟩ := send_view hest hreach' (List.Subset.refl m.chunks) hcount second
  have hcompleted : (viewOf m state).completed = false := by
    rw [viewOf, isCompleted]
    cases hseqId : state.lastCompletedClientChunkSeqIdByStream.lookup
        (m.clientId, some m.streamId) with
    | none => rfl
    | some seqId => simpa using hlast seqId hseqId
  have hheld : ∀ h ∈ (viewOf m state).held, h.metadata.seqId ≤ m.metadata.seqId ∧
      h.nextSegmentId < h.metadata.segmentCount ∧
      (h.metadata = m.metadata → h.raw <+: (m.chunks.map (·.part)).flatten) := by
    intro h hh
    obtain ⟨calls, hcalls⟩ := hreach.exists_run
    obtain ⟨assembly, hassembly, rfl⟩ := map_eq_some_iff.mp hh
    have hlookup := (filter_eq_some_iff.mp hassembly).1
    rw [hcalls] at hlookup
    exact ⟨(hown assembly hassembly).1,
      (sound_run codec calls).nextSegmentId_lt m.clientId assembly hlookup,
      (hown assembly hassembly).2⟩
  have hsuperseded : ((viewOf m state).held.any fun h => h.metadata.seqId = m.metadata.seqId ∧
      h.metadata ≠ m.metadata ∧ m.metadata.segmentCount ≤ h.nextSegmentId) = true ↔
      Superseded m state := by
    rw [viewOf, Superseded]
    cases assemblyOn m state <;> simp
  rw [map_append, hevents, hagain, hview, ← map_append, View.run_twice hcompleted hheld]
  by_cases hstuck : Superseded m state
  · rw [if_pos (hsuperseded.mpr hstuck)]
    simp [hstuck]
  · rw [if_neg (hstuck ∘ hsuperseded.mp)]
    simp [hstuck]

theorem plainCodec_estimates : plainCodec.Estimates := by
  intro text part hdecode
  have hle : part.length ≤ text.length / 4 * 3 := Base64.length_le_of_decode hdecode
  have hbytes : text.length ≤ (Text.bytes text).length := by
    clear hle hdecode
    induction text with
    | nil => exact Nat.le_refl _
    | cons c text ih =>
      have hchar : 0 < (String.utf8EncodeChar c).length := by
        rw [String.length_utf8EncodeChar]
        exact c.utf8Size_pos
      rw [Text.bytes, flatMap_cons, length_append, length_cons]
      rw [Text.bytes] at ih
      omega
  rw [decodedLenEstimate]
  omega

def twoChunks : ChunkedMessage plainCodec where
  clientId := ['a']
  streamId := ['s']
  metadata := ⟨7, 2, 4⟩
  chunks := [⟨['A', 'Q', 'I', '='], [1, 2], none, 90⟩, ⟨['A', 'w', 'Q', '='], [3, 4], none, 90⟩]
  message := [1, 2, 3, 4]
  length_chunks := rfl
  count_pos := by decide
  valid := by decide
  decodes := by decide
  wire_le := by decide
  size_eq := rfl
  fromSlice_eq := rfl

/-- The connection was lost after the first chunk. -/
def interruptedState : WebsocketState Nat Bytes :=
  (WebsocketState.new.observeClientMessage plainCodec (orderedMoment 0)
    (twoChunks.envelope 0 ⟨['A', 'Q', 'I', '='], [1, 2], none, 90⟩) 90).2

theorem sent_twice_forwards_once_iff_interrupted :
    (assemblyOn twoChunks interruptedState).map (·.raw) = some [1, 2] ∧
      ((send twoChunks orderedMoment 0 twoChunks.chunks interruptedState).1 ++
        (send twoChunks orderedMoment 0 twoChunks.chunks
          (send twoChunks orderedMoment 0 twoChunks.chunks interruptedState).2).1).map (·.event) =
        [.clientMessage [1, 2, 3, 4]] := by
  refine ⟨by decide +kernel, (sent_twice_forwards_once_iff plainCodec_estimates
    (WebsocketState.Reachable.new.observe _ _ _) ?_ ?_ orderedMoment orderedMoment).mpr ?_⟩
  · decide +kernel
  · decide +kernel
  · unfold Superseded
    decide +kernel

def resplitState : WebsocketState Nat Bytes :=
  let chunk (segmentId : Nat) (text : Text) : ClientEnvelope Bytes :=
    ⟨.clientMessageChunk segmentId 3 4 text, ['a'], some ['s'], some 7, none⟩
  let state := (WebsocketState.new.observeClientMessage plainCodec (orderedMoment 0)
    (chunk 0 ['A', 'Q', '=', '=']) 90).2
  (state.observeClientMessage plainCodec (orderedMoment 1) (chunk 1 ['A', 'g', '=', '=']) 90).2

/-- Cut into two chunks, the message is not forwarded any more. -/
theorem resplit_message_never_forwarded :
    resplitState.Reachable plainCodec ∧
      (∀ assembly ∈ assemblyOn twoChunks resplitState, assembly.metadata.seqId ≤ 7 ∧
        assembly.metadata ≠ twoChunks.metadata) ∧
      (send twoChunks orderedMoment 0 twoChunks.chunks resplitState).1 = [] ∧
      (send twoChunks orderedMoment 0 twoChunks.chunks
        (send twoChunks orderedMoment 0 twoChunks.chunks resplitState).2).1 = [] := by
  refine ⟨(WebsocketState.Reachable.new.observe _ _ _).observe _ _ _, ?_, ?_, ?_⟩
  all_goals decide +kernel

end Codex.RemoteControl.Segment

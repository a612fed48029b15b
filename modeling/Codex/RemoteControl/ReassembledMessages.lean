import Codex.Lib.Base64
import Codex.RemoteControl.SegmentReassembler

/-! Every assembly is traced back to the call that began it: the chunks of the client accepted since
are its segments, in order. -/

namespace Codex.RemoteControl.Segment
open Codex.Lib List ClientSegmentReassembler

variable {Message : Type}

inductive Call (Message : Type) where
  | observe (moment : Moment) (envelope : ClientEnvelope Message)
  | invalidateStream (clientId streamId : Text)
  | invalidateClient (clientId : Text)

def Call.apply (codec : Codec Message) (self : ClientSegmentReassembler) :
    Call Message → ClientSegmentReassembler
  | .observe moment envelope => (self.observe codec moment envelope).2
  | .invalidateStream clientId streamId => self.invalidateStream clientId streamId
  | .invalidateClient clientId => self.invalidateClient clientId

def Call.clientId : Call Message → Text
  | .observe _ envelope => envelope.clientId
  | .invalidateStream clientId _ => clientId
  | .invalidateClient clientId => clientId

def run (codec : Codec Message) (calls : List (Call Message)) : ClientSegmentReassembler :=
  calls.foldl (Call.apply codec) .default

def ClientSegmentObservation.isDropped : ClientSegmentObservation Message → Bool
  | .dropped => true
  | _ => false

def Call.accepted? (codec : Codec Message) (clientId : Text) (self : ClientSegmentReassembler) :
    Call Message → Option (ClientEnvelope Message)
  | .observe moment envelope =>
    if envelope.clientId = clientId ∧ envelope.segmentId?.isSome ∧
        (self.observe codec moment envelope).1.isDropped = false then
      some envelope
    else none
  | _ => none

def accepted (codec : Codec Message) (clientId : Text) (self : ClientSegmentReassembler) :
    List (Call Message) → List (ClientEnvelope Message)
  | [] => []
  | call :: calls =>
    (call.accepted? codec clientId self).toList ++
      accepted codec clientId (call.apply codec self) calls

/-- The chunks are the first segments of one message, in order, and decode to the parts. -/
structure PartsOf (codec : Codec Message) (clientId streamId : Text)
    (metadata : ClientSegmentMetadata) (chunks : List (ClientEnvelope Message))
    (parts : List Bytes) : Prop where
  segmentIds : chunks.map (·.segmentId?) = (List.range chunks.length).map some
  clientId : ∀ chunk ∈ chunks, chunk.clientId = clientId
  streamId : ∀ chunk ∈ chunks, chunk.streamId = some streamId
  metadata : ∀ chunk ∈ chunks, ClientSegmentMetadata.fromEnvelope chunk = some metadata
  decodes : chunks.map codec.decodedChunk? = parts.map some

/-- The client has had an assembly on the stream ever since the calls `earlier`, and not before. -/
structure Began (codec : Codec Message) (clientId streamId : Text)
    (earlier later : List (Call Message)) : Prop where
  notBefore : ∀ assembly ∈ (run codec earlier).assembly? clientId, assembly.streamId ≠ streamId
  since : ∀ calls ≠ [], calls <+: later →
    ∃ assembly ∈ (run codec (earlier ++ calls)).assembly? clientId, assembly.streamId = streamId

section
variable {codec : Codec Message} {clientId streamId : Text} {metadata : ClientSegmentMetadata}
  {chunks : List (ClientEnvelope Message)} {parts : List Bytes} {self : ClientSegmentReassembler}
  {earlier later calls : List (Call Message)}

theorem run_concat (calls : List (Call Message)) (call : Call Message) :
    run codec (calls ++ [call]) = call.apply codec (run codec calls) := by
  rw [run, run, foldl_append, foldl_cons, foldl_nil]

theorem accepted_append (earlier later : List (Call Message)) :
    accepted codec clientId self (earlier ++ later) =
      accepted codec clientId self earlier ++
        accepted codec clientId (earlier.foldl (Call.apply codec) self) later := by
  induction earlier generalizing self with
  | nil => rfl
  | cons call earlier ih =>
    rw [cons_append, accepted, ih, accepted, foldl_cons, append_assoc]

theorem accepted_concat (earlier later : List (Call Message)) (call : Call Message) :
    accepted codec clientId (run codec earlier) (later ++ [call]) =
      accepted codec clientId (run codec earlier) later ++
        (call.accepted? codec clientId (run codec (earlier ++ later))).toList := by
  rw [accepted_append, run, run, ← foldl_append, accepted, accepted, append_nil]

theorem PartsOf.nil : PartsOf codec clientId streamId metadata [] [] where
  segmentIds := rfl
  clientId := by simp
  streamId := by simp
  metadata := by simp
  decodes := rfl

variable {assembly : ClientSegmentAssembly} {envelope : ClientEnvelope Message}
  {call : Call Message}

theorem PartsOf.concat {decoded : Bytes}
    (h : PartsOf codec clientId assembly.streamId assembly.metadata chunks parts)
    (hclient : envelope.clientId = clientId) (hnext : chunks.length = assembly.nextSegmentId)
    (haccepts : Accepts codec assembly envelope decoded) :
    PartsOf codec clientId assembly.streamId assembly.metadata (chunks ++ [envelope])
      (parts ++ [decoded]) where
  segmentIds := by
    rw [map_append, h.segmentIds, length_append, length_singleton, range_succ,
      map_append, map_singleton, map_singleton, haccepts.segmentId, hnext]
  clientId := forall_mem_append.mpr ⟨h.clientId, forall_mem_singleton.mpr hclient⟩
  streamId := forall_mem_append.mpr ⟨h.streamId, forall_mem_singleton.mpr haccepts.streamId⟩
  metadata := forall_mem_append.mpr ⟨h.metadata, forall_mem_singleton.mpr haccepts.metadata⟩
  decodes := by
    rw [map_append, h.decodes, map_append, map_singleton, map_singleton, haccepts.decodes]

theorem Began.concat (h : Began codec clientId streamId earlier later)
    (hown : (run codec (earlier ++ (later ++ [call]))).assembly? clientId = some assembly)
    (hstream : assembly.streamId = streamId) :
    Began codec clientId streamId earlier (later ++ [call]) where
  notBefore := h.notBefore
  since := by
    intro calls hne hprefix
    rcases prefix_concat_iff.mp hprefix with rfl | hprefix
    · exact ⟨assembly, hown, hstream⟩
    · exact h.since calls hne hprefix

/-- Where the bytes of an assembly come from. -/
def Traced (codec : Codec Message) (calls : List (Call Message)) (clientId : Text)
    (assembly : ClientSegmentAssembly) : Prop :=
  ∃ earlier later parts, calls = earlier ++ later ∧
    Began codec clientId assembly.streamId earlier later ∧
    PartsOf codec clientId assembly.streamId assembly.metadata
      (accepted codec clientId (run codec earlier) later) parts ∧
    (accepted codec clientId (run codec earlier) later).length = assembly.nextSegmentId ∧
    parts.flatten = assembly.raw

structure Sound (codec : Codec Message) (calls : List (Call Message)) : Prop where
  length_le : (run codec calls).assemblies.entries.length ≤ remoteControlSegmentAssemblyMaxCount
  raw_le : ∀ clientId, ∀ assembly ∈ (run codec calls).assembly? clientId,
    assembly.raw.length ≤ assembly.metadata.messageSizeBytes
  nextSegmentId_lt : ∀ clientId, ∀ assembly ∈ (run codec calls).assembly? clientId,
    assembly.nextSegmentId < assembly.metadata.segmentCount
  traced : ∀ clientId, ∀ assembly ∈ (run codec calls).assembly? clientId,
    Traced codec calls clientId assembly

theorem accepted?_observe {moment : Moment} (hchunk : envelope.segmentId?.isSome)
    (hkept : (self.observe codec moment envelope).1.isDropped = false) :
    (Call.observe moment envelope).accepted? codec envelope.clientId self = some envelope :=
  if_pos ⟨rfl, hchunk, hkept⟩

/-- What a call means for a client: it keeps or loses its assembly, or a chunk of it is accepted. -/
inductive StepsTo (codec : Codec Message) (clientId : Text) (self : ClientSegmentReassembler)
    (call : Call Message) : Prop
  | skips (haccepted : call.accepted? codec clientId self = none)
    (hown : (call.apply codec self).assembly? clientId = self.assembly? clientId ∨
      (call.apply codec self).assembly? clientId = none)
  | accepts (now : Nat) (envelope : ClientEnvelope Message) (assembly : ClientSegmentAssembly)
    (decoded : Bytes) (hclient : envelope.clientId = clientId)
    (haccepted : call.accepted? codec clientId self = some envelope)
    (hresumed : self.resumed now clientId assembly.streamId assembly.metadata = assembly)
    (haccepts : Accepts codec assembly envelope decoded)
    (hown : (call.apply codec self).assembly? clientId = some (assembly.extend now decoded) ∧
        assembly.nextSegmentId + 1 < assembly.metadata.segmentCount ∨
      (call.apply codec self).assembly? clientId = none)

theorem Accepts.isSome_segmentId? {decoded : Bytes} (h : Accepts codec assembly envelope decoded) :
    envelope.segmentId?.isSome := by
  rw [h.segmentId]
  rfl

theorem touches_apply (self : ClientSegmentReassembler) (call : Call Message) :
    self.Touches call.clientId (call.apply codec self) := by
  cases call with
  | observe moment envelope =>
    have hobserved := observed_observe codec moment self envelope
    rw [Call.apply]
    generalize self.observe codec moment envelope = result at hobserved
    cases hobserved with
    | forwarded => exact .refl _ _
    | dropped s' htouches => exact htouches
    | pending s' assembly decoded htouches => exact htouches
    | complete s' assembly decoded message htouches => exact htouches
  | invalidateStream clientId streamId =>
    exact touches_removeAssembly _ _ _
  | invalidateClient clientId => exact touches_erase _ _

theorem accepted?_of_ne (h : clientId ≠ call.clientId) :
    call.accepted? codec clientId self = none := by
  cases call with
  | observe moment envelope => exact if_neg fun haccepted => h haccepted.1.symm
  | invalidateStream => rfl
  | invalidateClient => rfl

theorem stepsTo_observe (self : ClientSegmentReassembler) (moment : Moment)
    (envelope : ClientEnvelope Message) :
    StepsTo codec envelope.clientId self (.observe moment envelope) := by
  have hobserved := observed_observe codec moment self envelope
  generalize hresult : self.observe codec moment envelope = result at hobserved
  cases hobserved with
  | forwarded hchunk =>
    refine .skips (if_neg ?_) (.inl ?_)
    · simp [hchunk]
    · rw [Call.apply, hresult]
  | dropped s' htouches hown =>
    refine .skips (if_neg ?_) ?_
    · simp [hresult, ClientSegmentObservation.isDropped]
    · rw [Call.apply, hresult]
      exact hown
  | pending s' assembly decoded htouches hresumed haccepts hmore hown =>
    refine .accepts moment.now envelope assembly decoded rfl ?_ hresumed haccepts (.inl ⟨?_, hmore⟩)
    · exact accepted?_observe haccepts.isSome_segmentId? (by rw [hresult]; rfl)
    · rw [Call.apply, hresult]
      exact hown
  | complete s' assembly decoded message htouches hresumed haccepts hlast hsize hmessage hown =>
    refine .accepts moment.now envelope assembly decoded rfl ?_ hresumed haccepts (.inr ?_)
    · exact accepted?_observe haccepts.isSome_segmentId? (by rw [hresult]; rfl)
    · rw [Call.apply, hresult]
      exact hown

theorem stepsTo (clientId : Text) (self : ClientSegmentReassembler) (call : Call Message) :
    StepsTo codec clientId self call := by
  by_cases hclient : clientId = call.clientId
  · subst hclient
    cases call with
    | observe moment envelope => exact stepsTo_observe self moment envelope
    | invalidateStream clientId streamId =>
      exact .skips rfl (removeAssembly_own _ _ _)
    | invalidateClient clientId => exact .skips rfl (.inr (AList.lookup_erase _ _))
  · exact .skips (accepted?_of_ne hclient) ((touches_apply self call).others clientId hclient)

theorem Traced.skip (h : Traced codec calls clientId assembly)
    (haccepted : call.accepted? codec clientId (run codec calls) = none)
    (hown : (run codec (calls ++ [call])).assembly? clientId = some assembly) :
    Traced codec (calls ++ [call]) clientId assembly := by
  obtain ⟨earlier, later, parts, rfl, hbegan, hparts, hlength, hraw⟩ := h
  rw [append_assoc] at hown
  have hsame : accepted codec clientId (run codec earlier) (later ++ [call]) =
      accepted codec clientId (run codec earlier) later := by
    rw [accepted_concat, haccepted, Option.toList_none, append_nil]
  refine ⟨earlier, later ++ [call], parts, append_assoc _ _ _, hbegan.concat hown rfl, ?_, ?_, hraw⟩
  · rw [hsame]
    exact hparts
  · rw [hsame]
    exact hlength

theorem Traced.accepts {decoded : Bytes} (h : Traced codec calls clientId assembly)
    (hclient : envelope.clientId = clientId)
    (haccepted : call.accepted? codec clientId (run codec calls) = some envelope)
    (haccepts : Accepts codec assembly envelope decoded) :
    ∃ earlier later parts, calls = earlier ++ later ∧
      Began codec clientId assembly.streamId earlier later ∧
      PartsOf codec clientId assembly.streamId assembly.metadata
        (accepted codec clientId (run codec earlier) (later ++ [call])) parts ∧
      (accepted codec clientId (run codec earlier) (later ++ [call])).length =
        assembly.nextSegmentId + 1 ∧
      parts.flatten = assembly.raw ++ decoded := by
  obtain ⟨earlier, later, parts, rfl, hbegan, hparts, hlength, hraw⟩ := h
  have hmore : accepted codec clientId (run codec earlier) (later ++ [call]) =
      accepted codec clientId (run codec earlier) later ++ [envelope] := by
    rw [accepted_concat, haccepted, Option.toList_some]
  refine ⟨earlier, later, parts ++ [decoded], rfl, hbegan, ?_, ?_, ?_⟩
  · rw [hmore]
    exact hparts.concat hclient hlength haccepts
  · rw [hmore, length_append, hlength, length_singleton]
  · rw [flatten_append, hraw, flatten_singleton]

theorem traced_resumed {now : Nat} (h : Sound codec calls)
    (hresumed : (run codec calls).resumed now clientId assembly.streamId assembly.metadata =
      assembly) : Traced codec calls clientId assembly ∧
      assembly.raw.length ≤ assembly.metadata.messageSizeBytes := by
  by_cases hother : ∀ own ∈ (run codec calls).assembly? clientId, own.streamId ≠ assembly.streamId
  · rw [resumed_of_forall_ne hother] at hresumed
    rw [← hresumed]
    refine ⟨⟨calls, [], [], (append_nil _).symm, ⟨hother, ?_⟩, .nil, rfl, rfl⟩, Nat.zero_le _⟩
    intro pre hne hprefix
    exact absurd (prefix_nil.mp hprefix) hne
  · push Not at hother
    obtain ⟨own, hown, hstream⟩ := hother
    rw [resumed_of_assembly? hown hstream] at hresumed
    subst hresumed
    exact ⟨h.traced clientId own hown, h.raw_le clientId own hown⟩

theorem sound_nil : Sound codec [] where
  length_le := Nat.zero_le _
  raw_le := by
    intro clientId assembly hassembly
    cases hassembly
  nextSegmentId_lt := by
    intro clientId assembly hassembly
    cases hassembly
  traced := by
    intro clientId assembly hassembly
    cases hassembly

theorem Sound.concat (h : Sound codec calls) (call : Call Message) :
    Sound codec (calls ++ [call]) := by
  have hown (clientId : Text) (assembly : ClientSegmentAssembly)
      (hassembly : (run codec (calls ++ [call])).assembly? clientId = some assembly) :
      assembly.raw.length ≤ assembly.metadata.messageSizeBytes ∧
        assembly.nextSegmentId < assembly.metadata.segmentCount ∧
        Traced codec (calls ++ [call]) clientId assembly := by
    have hafter := hassembly
    rw [run_concat] at hafter
    have hsteps : StepsTo codec clientId (run codec calls) call := stepsTo _ _ _
    cases hsteps with
    | skips haccepted hstep =>
      rcases hstep with hsame | hnone
      · rw [hsame] at hafter
        exact ⟨h.raw_le clientId assembly hafter, h.nextSegmentId_lt clientId assembly hafter,
          (h.traced clientId assembly hafter).skip haccepted hassembly⟩
      · cases hnone.symm.trans hafter
    | accepts now envelope base decoded hclient haccepted hresumed haccepts hstep =>
      rcases hstep with ⟨hextended, hmore⟩ | hnone
      · obtain rfl := Option.some.inj (hextended.symm.trans hafter)
        obtain ⟨htraced, hle⟩ := traced_resumed h hresumed
        obtain ⟨earlier, later, parts, hcalls, hbegan, hparts, hlength, hraw⟩ :=
          htraced.accepts hclient haccepted haccepts
        refine ⟨haccepts.fits hle, hmore, earlier, later ++ [call], parts, ?_, ?_, hparts, hlength,
          hraw⟩
        · rw [hcalls, append_assoc]
        · rw [hcalls, append_assoc] at hassembly
          exact hbegan.concat hassembly rfl
      · cases hnone.symm.trans hafter
  refine ⟨?_, fun clientId assembly hassembly => (hown clientId assembly hassembly).1,
    fun clientId assembly hassembly => (hown clientId assembly hassembly).2.1,
    fun clientId assembly hassembly => (hown clientId assembly hassembly).2.2⟩
  rw [run_concat]
  exact (touches_apply _ call).length_le h.length_le

theorem sound_run (codec : Codec Message) (calls : List (Call Message)) : Sound codec calls := by
  induction calls using List.reverseRecOn with
  | nil => exact sound_nil
  | append_singleton calls call ih => exact ih.concat call

end

/-- Messages are never mixed. A forwarded message has been put together from the chunks of the
client accepted since its assembly began, and these are all its segments in order. -/
theorem reassembled_from_own_chunks (codec : Codec Message) (calls : List (Call Message)) :
    (run codec calls).assemblies.entries.length ≤ remoteControlSegmentAssemblyMaxCount ∧
    (∀ clientId, ∀ assembly ∈ (run codec calls).assembly? clientId,
      assembly.raw.length ≤ assembly.metadata.messageSizeBytes) ∧
    ∀ moment envelope forwarded, envelope.segmentId?.isSome →
      ((run codec calls).observe codec moment envelope).1 = .forward forwarded →
      ∃ streamId metadata earlier later parts message,
        envelope.streamId = some streamId ∧
        ClientSegmentMetadata.fromEnvelope envelope = some metadata ∧
        calls = earlier ++ later ∧
        Began codec envelope.clientId streamId earlier later ∧
        PartsOf codec envelope.clientId streamId metadata
          (accepted codec envelope.clientId (run codec earlier)
            (later ++ [.observe moment envelope])) parts ∧
        (accepted codec envelope.clientId (run codec earlier)
          (later ++ [.observe moment envelope])).length = metadata.segmentCount ∧
        parts.flatten.length = metadata.messageSizeBytes ∧
        codec.fromSlice parts.flatten = some message ∧
        forwarded = { envelope with event := .clientMessage message } := by
  have hsound := sound_run codec calls
  refine ⟨hsound.length_le, hsound.raw_le, ?_⟩
  intro moment envelope forwarded hchunk hforward
  have hobserved := observed_observe codec moment (run codec calls) envelope
  generalize hresult : (run codec calls).observe codec moment envelope = result
    at hobserved hforward
  cases hobserved with
  | forwarded hnone =>
    rw [hnone] at hchunk
    cases hchunk
  | dropped => cases hforward
  | pending => cases hforward
  | complete s' assembly decoded message htouches hresumed haccepts hlast hsize hmessage hown =>
    cases hforward
    have haccepted : (Call.observe moment envelope).accepted? codec envelope.clientId
        (run codec calls) = some envelope :=
      accepted?_observe hchunk (by rw [hresult]; rfl)
    obtain ⟨earlier, later, parts, hcalls, hbegan, hparts, hlength, hraw⟩ :=
      (traced_resumed hsound hresumed).1.accepts rfl haccepted haccepts
    refine ⟨assembly.streamId, assembly.metadata, earlier, later, parts, message,
      haccepts.streamId, haccepts.metadata, hcalls, hbegan, hparts, hlength.trans hlast, ?_, ?_,
      rfl⟩
    · rw [hraw, hsize]
    · rw [hraw, hmessage]

def plainCodec : Codec Bytes := ⟨Base64.decode, some⟩

def orderedMoment (now : Nat) : Moment := ⟨now, AList.entries, fun _ => .refl _⟩

def twoPartChunk (clientId : Text) (segmentId : Nat) (chunk : Text) : ClientEnvelope Bytes :=
  ⟨.clientMessageChunk segmentId 2 4 chunk, clientId, some ['s'], some 7, none⟩

theorem reassembled_from_own_chunks_interleaved :
    let calls : List (Call Bytes) :=
      [.observe (orderedMoment 0) (twoPartChunk ['a'] 0 ['A', 'Q', 'I', '=']),
        .observe (orderedMoment 1) (twoPartChunk ['b'] 0 ['C', 'Q', 'k', '='])]
    let envelope := twoPartChunk ['a'] 1 ['A', 'w', 'Q', '=']
    ((run plainCodec calls).observe plainCodec (orderedMoment 2) envelope).1 =
        .forward { envelope with event := .clientMessage [1, 2, 3, 4] } ∧
      ∃ streamId metadata earlier later parts message,
        envelope.streamId = some streamId ∧
        ClientSegmentMetadata.fromEnvelope envelope = some metadata ∧
        calls = earlier ++ later ∧
        Began plainCodec envelope.clientId streamId earlier later ∧
        PartsOf plainCodec envelope.clientId streamId metadata
          (accepted plainCodec envelope.clientId (run plainCodec earlier)
            (later ++ [.observe (orderedMoment 2) envelope])) parts ∧
        (accepted plainCodec envelope.clientId (run plainCodec earlier)
          (later ++ [.observe (orderedMoment 2) envelope])).length = metadata.segmentCount ∧
        parts.flatten.length = metadata.messageSizeBytes ∧
        plainCodec.fromSlice parts.flatten = some message ∧
        ({ envelope with event := .clientMessage [1, 2, 3, 4] } : ClientEnvelope Bytes) =
          { envelope with event := .clientMessage message } := by
  have hforward : ((run plainCodec
      [.observe (orderedMoment 0) (twoPartChunk ['a'] 0 ['A', 'Q', 'I', '=']),
        .observe (orderedMoment 1) (twoPartChunk ['b'] 0 ['C', 'Q', 'k', '='])]).observe plainCodec
      (orderedMoment 2) (twoPartChunk ['a'] 1 ['A', 'w', 'Q', '='])).1 =
      .forward { twoPartChunk ['a'] 1 ['A', 'w', 'Q', '='] with
        event := .clientMessage [1, 2, 3, 4] } := by
    decide +kernel
  exact ⟨hforward, (reassembled_from_own_chunks plainCodec _).2.2 _ _ _ rfl hforward⟩

end Codex.RemoteControl.Segment

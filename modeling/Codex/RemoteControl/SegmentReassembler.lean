import Codex.RemoteControl.Protocol
import Mathlib.Data.List.AList
import Mathlib.Data.List.MinMax

/-! `ClientSegmentReassembler` of `remote_control/segment.rs`. The clock and the order in which the
map of assemblies is walked are given with every call. -/

namespace Codex.RemoteControl.Segment
open Codex.Lib List Option AList

def remoteControlReassembledMaxBytes : Nat := 100 * 1024 * 1024
def remoteControlSegmentCountMax : Nat := 1024
def remoteControlSegmentAssemblyMaxCount : Nat := 128

structure ClientSegmentMetadata where
  seqId : Nat
  segmentCount : Nat
  messageSizeBytes : Nat
  deriving DecidableEq

structure ClientSegmentAssembly where
  streamId : Text
  metadata : ClientSegmentMetadata
  raw : Bytes
  nextSegmentId : Nat
  lastChunkSeenAt : Nat
  deriving DecidableEq

abbrev Assemblies := AList fun _ : Text => ClientSegmentAssembly

structure ClientSegmentReassembler where
  assemblies : Assemblies

inductive ClientSegmentObservation (Message : Type) where
  | forward (envelope : ClientEnvelope Message)
  | pending
  | dropped
  deriving DecidableEq

inductive AssemblyUpdate (Message : Type) where
  | pending
  | ignore
  | drop
  | complete (message : Message)

/-- The standard engine of `base64`, and `serde_json::from_slice`. -/
structure Codec (Message : Type) where
  decode : Text → Option Bytes
  fromSlice : Bytes → Option Message

/-- `decode_slice` fails where the slice has no room for what is decoded. -/
def Codec.decodeSlice {Message : Type} (codec : Codec Message) (text : Text) (size : Nat) :
    Option Bytes :=
  (codec.decode text).filter (·.length ≤ size)

def decodedLenEstimate (encodedLen : Nat) : Nat := (encodedLen + 3) / 4 * 3

structure Moment where
  now : Nat
  /-- the entries of the map as its iterator gives them -/
  iter : Assemblies → List (Sigma fun _ : Text => ClientSegmentAssembly)
  iter_perm : ∀ assemblies, (iter assemblies).Perm assemblies.entries

variable {Message : Type}

def ClientSegmentMetadata.fromEnvelope (envelope : ClientEnvelope Message) :
    Option ClientSegmentMetadata :=
  match envelope.event with
  | .clientMessageChunk _ segmentCount messageSizeBytes _ =>
    envelope.seqId.map fun seqId => ⟨seqId, segmentCount, messageSizeBytes⟩
  | _ => none

def updateAssembly (codec : Codec Message) (now : Nat) (metadata : ClientSegmentMetadata)
    (segmentId : Nat) (messageChunkBase64 : Text) (assembly : ClientSegmentAssembly) :
    AssemblyUpdate Message × ClientSegmentAssembly :=
  if metadata.seqId < assembly.metadata.seqId then (.ignore, assembly)
  else if assembly.metadata ≠ metadata then (.drop, assembly)
  else if segmentId < assembly.nextSegmentId then (.pending, assembly)
  else if segmentId ≠ assembly.nextSegmentId then (.drop, assembly)
  else
    let assembly := { assembly with lastChunkSeenAt := now }
    let chunkStart := assembly.raw.length
    let decodedChunkLen := decodedLenEstimate (Text.bytes messageChunkBase64).length
    let chunkEnd := min metadata.messageSizeBytes (chunkStart + decodedChunkLen)
    match codec.decodeSlice messageChunkBase64 (chunkEnd - chunkStart) with
    | none => (.drop, assembly)
    | some decoded =>
      let assembly := { assembly with
        raw := assembly.raw ++ decoded
        nextSegmentId := assembly.nextSegmentId + 1 }
      if assembly.nextSegmentId < metadata.segmentCount then (.pending, assembly)
      else if assembly.raw.length ≠ metadata.messageSizeBytes then (.drop, assembly)
      else
        match codec.fromSlice assembly.raw with
        | some message => (.complete message, assembly)
        | none => (.drop, assembly)

namespace ClientSegmentReassembler

def default : ClientSegmentReassembler := ⟨∅⟩

def assembly? (self : ClientSegmentReassembler) (clientId : Text) : Option ClientSegmentAssembly :=
  self.assemblies.lookup clientId

def shouldIgnoreChunk (self : ClientSegmentReassembler) (clientId streamId : Text) (seqId : Nat)
    (segmentId : Nat) : Bool :=
  (self.assembly? clientId).any fun assembly =>
    assembly.streamId = streamId &&
      (seqId < assembly.metadata.seqId ||
        (seqId = assembly.metadata.seqId && segmentId < assembly.nextSegmentId))

def removeAssembly (self : ClientSegmentReassembler) (clientId streamId : Text) :
    ClientSegmentReassembler :=
  if (self.assembly? clientId).any fun assembly => assembly.streamId = streamId then
    ⟨self.assemblies.erase clientId⟩
  else self

def invalidateStream (self : ClientSegmentReassembler) (clientId streamId : Text) :
    ClientSegmentReassembler :=
  self.removeAssembly clientId streamId

def invalidateClient (self : ClientSegmentReassembler) (clientId : Text) :
    ClientSegmentReassembler :=
  ⟨self.assemblies.erase clientId⟩

/-- The loop of `evict_assemblies_if_full`. Every round takes an assembly away. -/
def evictLoop (moment : Moment) : Nat → Assemblies → Assemblies
  | 0, assemblies => assemblies
  | fuel + 1, assemblies =>
    if assemblies.entries.length ≥ remoteControlSegmentAssemblyMaxCount then
      match (moment.iter assemblies).argmin fun entry => entry.2.lastChunkSeenAt with
      | none => assemblies
      | some oldest => evictLoop moment fuel (assemblies.erase oldest.1)
    else assemblies

def evictAssembliesIfFull (self : ClientSegmentReassembler) (moment : Moment) :
    ClientSegmentReassembler :=
  ⟨evictLoop moment self.assemblies.entries.length self.assemblies⟩

def ensureAssembly (self : ClientSegmentReassembler) (moment : Moment) (clientId streamId : Text)
    (metadata : ClientSegmentMetadata) : ClientSegmentReassembler :=
  let fresh : ClientSegmentAssembly := ⟨streamId, metadata, [], 0, moment.now⟩
  match self.assembly? clientId with
  | some assembly =>
    if assembly.streamId ≠ streamId then ⟨self.assemblies.insert clientId fresh⟩ else self
  | none => ⟨(self.evictAssembliesIfFull moment).assemblies.insert clientId fresh⟩

def isInvalid (metadata : ClientSegmentMetadata) (segmentId : Nat) (messageChunkBase64 : Text) :
    Bool :=
  metadata.segmentCount = 0 || metadata.segmentCount > remoteControlSegmentCountMax ||
    segmentId ≥ metadata.segmentCount || metadata.messageSizeBytes = 0 ||
    metadata.messageSizeBytes > remoteControlReassembledMaxBytes || messageChunkBase64.isEmpty

def observe (codec : Codec Message) (moment : Moment) (self : ClientSegmentReassembler)
    (envelope : ClientEnvelope Message) :
    ClientSegmentObservation Message × ClientSegmentReassembler :=
  match envelope.event with
  | .clientMessageChunk segmentId _ _ messageChunkBase64 =>
    match ClientSegmentMetadata.fromEnvelope envelope, envelope.streamId with
    | none, _ => (.dropped, self)
    | some _, none => (.dropped, self)
    | some metadata, some streamId =>
      if self.shouldIgnoreChunk envelope.clientId streamId metadata.seqId segmentId then
        (.dropped, self)
      else if isInvalid metadata segmentId messageChunkBase64 then
        (.dropped, self.removeAssembly envelope.clientId streamId)
      else
        let self := self.ensureAssembly moment envelope.clientId streamId metadata
        match self.assembly? envelope.clientId with
        | none => (.dropped, self)
        | some assembly =>
          let (result, assembly) :=
            updateAssembly codec moment.now metadata segmentId messageChunkBase64 assembly
          let self := ⟨self.assemblies.insert envelope.clientId assembly⟩
          match result with
          | .pending => (.pending, self)
          | .ignore => (.dropped, self)
          | .drop => (.dropped, self.removeAssembly envelope.clientId streamId)
          | .complete message =>
            (.forward { envelope with event := .clientMessage message },
              self.removeAssembly envelope.clientId streamId)
  | _ => (.forward envelope, self)

section Size
variable {κ ν : Type} [DecidableEq κ] {map : AList fun _ : κ => ν} {key : κ}

omit [DecidableEq κ] in
theorem length_entries (map : AList fun _ : κ => ν) : map.entries.length = map.keys.length := by
  rw [AList.keys, List.keys, length_map]

theorem length_erase_le (map : AList fun _ : κ => ν) (key : κ) :
    (map.erase key).entries.length ≤ map.entries.length := by
  rw [length_entries, length_entries, keys_erase]
  exact List.length_erase_le

theorem length_erase_lt (h : key ∈ map) : (map.erase key).entries.length < map.entries.length := by
  have hkey : key ∈ map.keys := mem_keys.mp h
  have hpos : 0 < map.keys.length := length_pos_of_mem hkey
  rw [length_entries, length_entries, keys_erase, length_erase_of_mem hkey]
  omega

theorem length_insert_le (map : AList fun _ : κ => ν) (key : κ) (value : ν) :
    (map.insert key value).entries.length ≤ map.entries.length + 1 := by
  rw [length_entries, length_entries, keys_insert, List.length_cons]
  exact Nat.succ_le_succ List.length_erase_le

theorem length_insert_of_mem (h : key ∈ map) (value : ν) :
    (map.insert key value).entries.length = map.entries.length := by
  have hkey : key ∈ map.keys := mem_keys.mp h
  have hpos : 0 < map.keys.length := length_pos_of_mem hkey
  rw [length_entries, length_entries, keys_insert, length_cons, length_erase_of_mem hkey]
  omega

end Size

variable {self : ClientSegmentReassembler} {moment : Moment} {clientId streamId : Text}

theorem mem_of_assembly? {assembly : ClientSegmentAssembly}
    (h : self.assembly? clientId = some assembly) : clientId ∈ self.assemblies := by
  rw [← lookup_isSome]
  exact isSome_of_eq_some h

/-- From `s` to `s'`, the assemblies of other clients have at most been taken away, and their
number has not passed the limit. -/
structure Touches (clientId : Text) (s s' : ClientSegmentReassembler) : Prop where
  others : ∀ other ≠ clientId, s'.assembly? other = s.assembly? other ∨ s'.assembly? other = none
  length_le : s.assemblies.entries.length ≤ remoteControlSegmentAssemblyMaxCount →
    s'.assemblies.entries.length ≤ remoteControlSegmentAssemblyMaxCount

theorem Touches.refl (clientId : Text) (self : ClientSegmentReassembler) :
    Touches clientId self self :=
  ⟨fun _ _ => .inl rfl, id⟩

theorem Touches.trans {s₁ s₂ s₃ : ClientSegmentReassembler}
    (h₁ : Touches clientId s₁ s₂) (h₂ : Touches clientId s₂ s₃) : Touches clientId s₁ s₃ := by
  refine ⟨?_, h₂.length_le ∘ h₁.length_le⟩
  intro other hne
  rcases h₂.others other hne with hsame | hnone
  · rw [hsame]
    exact h₁.others other hne
  · exact .inr hnone

theorem touches_insert (h : clientId ∈ self.assemblies) (assembly : ClientSegmentAssembly) :
    Touches clientId self ⟨self.assemblies.insert clientId assembly⟩ :=
  ⟨fun _ hne => .inl (lookup_insert_ne hne), (length_insert_of_mem h assembly).trans_le⟩

theorem touches_erase (self : ClientSegmentReassembler) (clientId : Text) :
    Touches clientId self ⟨self.assemblies.erase clientId⟩ :=
  ⟨fun _ hne => .inl (lookup_erase_ne hne), (length_erase_le _ _).trans⟩

theorem touches_removeAssembly (self : ClientSegmentReassembler) (clientId streamId : Text) :
    Touches clientId self (self.removeAssembly clientId streamId) := by
  rw [removeAssembly]
  split
  · exact touches_erase self clientId
  · exact .refl clientId self

theorem removeAssembly_own (self : ClientSegmentReassembler) (clientId streamId : Text) :
    (self.removeAssembly clientId streamId).assembly? clientId = self.assembly? clientId ∨
      (self.removeAssembly clientId streamId).assembly? clientId = none := by
  rw [removeAssembly]
  split
  · exact .inr (lookup_erase _ _)
  · exact .inl rfl

theorem removeAssembly_assembly? (self : ClientSegmentReassembler) (clientId streamId : Text) :
    (self.removeAssembly clientId streamId).assembly? clientId =
      (self.assembly? clientId).filter (·.streamId ≠ streamId) := by
  rw [removeAssembly]
  cases h : self.assembly? clientId with
  | none => simp [h]
  | some assembly =>
    by_cases hstream : assembly.streamId = streamId
    · simp [hstream, assembly?, Option.filter]
    · simp [hstream, h, Option.filter]

theorem exists_oldest (moment : Moment) {assemblies : Assemblies}
    (h : 0 < assemblies.entries.length) :
    ∃ oldest, (moment.iter assemblies).argmin (fun entry => entry.2.lastChunkSeenAt) =
      some oldest ∧ oldest.1 ∈ assemblies := by
  cases holdest : (moment.iter assemblies).argmin fun entry => entry.2.lastChunkSeenAt with
  | none =>
    have hempty := argmin_eq_none.mp holdest
    have hperm := (moment.iter_perm assemblies).length_eq
    rw [hempty, length_nil] at hperm
    omega
  | some oldest =>
    have hmem := (moment.iter_perm assemblies).mem_iff.mp (argmin_mem holdest)
    exact ⟨oldest, rfl, mem_keys.mpr (mem_keys_of_mem hmem)⟩

theorem length_evictLoop_lt (moment : Moment) {fuel : Nat} {assemblies : Assemblies}
    (h : assemblies.entries.length ≤ fuel) :
    (evictLoop moment fuel assemblies).entries.length < remoteControlSegmentAssemblyMaxCount := by
  induction fuel generalizing assemblies with
  | zero =>
    rw [evictLoop, Nat.le_zero.mp h]
    decide
  | succ fuel ih =>
    rw [evictLoop]
    split
    case isTrue hfull =>
      have hpos : 0 < remoteControlSegmentAssemblyMaxCount := by decide
      obtain ⟨oldest, holdest, hmem⟩ := exists_oldest moment (hpos.trans_le hfull)
      have hfewer := length_erase_lt hmem
      rw [holdest]
      exact ih (by omega)
    case isFalse hroom => omega

theorem evictLoop_lookup (moment : Moment) (fuel : Nat) (assemblies : Assemblies)
    (clientId : Text) :
    (evictLoop moment fuel assemblies).lookup clientId = assemblies.lookup clientId ∨
      (evictLoop moment fuel assemblies).lookup clientId = none := by
  induction fuel generalizing assemblies with
  | zero => exact .inl rfl
  | succ fuel ih =>
    rw [evictLoop]
    split
    case isFalse => exact .inl rfl
    case isTrue =>
      split
      case h_1 => exact .inl rfl
      case h_2 oldest holdest =>
        rcases ih (assemblies.erase oldest.1) with hsame | hnone
        · by_cases heq : clientId = oldest.1
          · subst heq
            exact .inr (hsame.trans (lookup_erase _ _))
          · exact .inl (hsame.trans (lookup_erase_ne heq))
        · exact .inr hnone

def resumed (self : ClientSegmentReassembler) (now : Nat) (clientId streamId : Text)
    (metadata : ClientSegmentMetadata) : ClientSegmentAssembly :=
  ((self.assembly? clientId).filter (·.streamId = streamId)).getD ⟨streamId, metadata, [], 0, now⟩

theorem resumed_of_assembly? {assembly : ClientSegmentAssembly}
    (h : self.assembly? clientId = some assembly) (hstream : assembly.streamId = streamId)
    (now : Nat) (metadata : ClientSegmentMetadata) :
    self.resumed now clientId streamId metadata = assembly := by
  simp [resumed, h, hstream, Option.filter]

theorem resumed_of_forall_ne
    (h : ∀ assembly ∈ self.assembly? clientId, assembly.streamId ≠ streamId)
    (now : Nat) (metadata : ClientSegmentMetadata) :
    self.resumed now clientId streamId metadata = ⟨streamId, metadata, [], 0, now⟩ := by
  rw [resumed, filter_eq_none_iff.mpr, getD_none]
  intro assembly hassembly
  simpa using h assembly hassembly

theorem resumed_streamId (now : Nat) (metadata : ClientSegmentMetadata) :
    (self.resumed now clientId streamId metadata).streamId = streamId := by
  by_cases h : ∀ assembly ∈ self.assembly? clientId, assembly.streamId ≠ streamId
  · rw [resumed_of_forall_ne h]
  · push Not at h
    obtain ⟨assembly, hassembly, hstream⟩ := h
    rw [resumed_of_assembly? hassembly hstream, hstream]

theorem ensureAssembly_assembly? (metadata : ClientSegmentMetadata) :
    (self.ensureAssembly moment clientId streamId metadata).assembly? clientId =
      some (self.resumed moment.now clientId streamId metadata) := by
  rw [ensureAssembly]
  cases h : self.assembly? clientId with
  | none =>
    rw [resumed, h]
    exact lookup_insert _
  | some assembly =>
    by_cases hstream : assembly.streamId = streamId
    · simp [hstream, resumed, h, Option.filter]
    · have hother : ∀ other ∈ self.assembly? clientId, other.streamId ≠ streamId := by
        intro other hmem
        rw [h] at hmem
        exact Option.some.inj hmem ▸ hstream
      rw [resumed_of_forall_ne hother]
      simp [hstream, assembly?]

theorem touches_ensureAssembly (metadata : ClientSegmentMetadata) :
    Touches clientId self (self.ensureAssembly moment clientId streamId metadata) := by
  rw [ensureAssembly]
  cases hassembly : self.assembly? clientId with
  | none =>
    have hroom := length_evictLoop_lt moment (Nat.le_refl self.assemblies.entries.length)
    refine ⟨fun other hne => ?_, fun _ => (length_insert_le _ _ _).trans hroom⟩
    rw [assembly?, lookup_insert_ne hne]
    exact evictLoop_lookup moment _ _ other
  | some assembly =>
    dsimp only
    split
    · exact touches_insert (mem_of_assembly? hassembly) _
    · exact .refl _ _

end ClientSegmentReassembler

def Codec.decodedChunk? (codec : Codec Message) (envelope : ClientEnvelope Message) :
    Option Bytes :=
  match envelope.event with
  | .clientMessageChunk _ _ _ messageChunkBase64 => codec.decode messageChunkBase64
  | _ => none

/-- The chunk is the next segment of the assembly, and there is room for what it decodes to. -/
structure Accepts (codec : Codec Message) (assembly : ClientSegmentAssembly)
    (envelope : ClientEnvelope Message) (decoded : Bytes) : Prop where
  streamId : envelope.streamId = some assembly.streamId
  metadata : ClientSegmentMetadata.fromEnvelope envelope = some assembly.metadata
  segmentId : envelope.segmentId? = some assembly.nextSegmentId
  decodes : codec.decodedChunk? envelope = some decoded
  nextSegmentId_lt : assembly.nextSegmentId < assembly.metadata.segmentCount
  fits : assembly.raw.length ≤ assembly.metadata.messageSizeBytes →
    (assembly.raw ++ decoded).length ≤ assembly.metadata.messageSizeBytes

def ClientSegmentAssembly.extend (assembly : ClientSegmentAssembly) (now : Nat) (decoded : Bytes) :
    ClientSegmentAssembly :=
  { assembly with
    raw := assembly.raw ++ decoded
    nextSegmentId := assembly.nextSegmentId + 1
    lastChunkSeenAt := now }

theorem Codec.decodeSlice_eq_some_iff {codec : Codec Message} {text : Text} {size : Nat}
    {decoded : Bytes} :
    codec.decodeSlice text size = some decoded ↔
      codec.decode text = some decoded ∧ decoded.length ≤ size := by
  rw [Codec.decodeSlice, filter_eq_some_iff, decide_eq_true_iff]

inductive Updated (codec : Codec Message) (now : Nat) (envelope : ClientEnvelope Message)
    (assembly : ClientSegmentAssembly) :
    AssemblyUpdate Message × ClientSegmentAssembly → Prop
  | drop (assembly' : ClientSegmentAssembly) (hstream : assembly'.streamId = assembly.streamId) :
    Updated codec now envelope assembly (.drop, assembly')
  | pending (decoded : Bytes) (haccepts : Accepts codec assembly envelope decoded)
    (hmore : assembly.nextSegmentId + 1 < assembly.metadata.segmentCount) :
    Updated codec now envelope assembly (.pending, assembly.extend now decoded)
  | complete (decoded : Bytes) (message : Message)
    (haccepts : Accepts codec assembly envelope decoded)
    (hlast : assembly.nextSegmentId + 1 = assembly.metadata.segmentCount)
    (hsize : (assembly.raw ++ decoded).length = assembly.metadata.messageSizeBytes)
    (hmessage : codec.fromSlice (assembly.raw ++ decoded) = some message) :
    Updated codec now envelope assembly (.complete message, assembly.extend now decoded)

theorem updated_updateAssembly {codec : Codec Message} {envelope : ClientEnvelope Message}
    {assembly : ClientSegmentAssembly} {metadata : ClientSegmentMetadata}
    {segmentId segmentCount messageSizeBytes : Nat} {text : Text} (now : Nat)
    (hevent : envelope.event = .clientMessageChunk segmentId segmentCount messageSizeBytes text)
    (hstream : envelope.streamId = some assembly.streamId)
    (hmetadata : ClientSegmentMetadata.fromEnvelope envelope = some metadata)
    (hcount : segmentId < metadata.segmentCount)
    (hignore : ¬ (metadata.seqId < assembly.metadata.seqId ∨
      metadata.seqId = assembly.metadata.seqId ∧ segmentId < assembly.nextSegmentId)) :
    Updated codec now envelope assembly
      (updateAssembly codec now metadata segmentId text assembly) := by
  push Not at hignore
  obtain ⟨hseq, hsegment⟩ := hignore
  rw [updateAssembly, if_neg (by omega)]
  by_cases hsame : assembly.metadata = metadata
  case neg => rw [if_pos hsame]; exact .drop _ rfl
  subst hsame
  have hnext := hsegment rfl
  rw [if_neg (by simp), if_neg (by omega)]
  by_cases hid : segmentId = assembly.nextSegmentId
  case neg => rw [if_pos hid]; exact .drop _ rfl
  subst hid
  rw [if_neg (by simp)]
  dsimp only
  split
  case h_1 => exact .drop _ rfl
  case h_2 decoded hdecoded =>
    obtain ⟨hdecode, hroom⟩ := Codec.decodeSlice_eq_some_iff.mp hdecoded
    have haccepts : Accepts codec assembly envelope decoded := {
      streamId := hstream
      metadata := hmetadata
      segmentId := by rw [ClientEnvelope.segmentId?, hevent]
      decodes := by rw [Codec.decodedChunk?, hevent]; exact hdecode
      nextSegmentId_lt := hcount
      fits := by
        intro hle
        rw [length_append]
        omega }
    split
    case isTrue hmore => exact .pending decoded haccepts hmore
    case isFalse hlast =>
      split
      case isTrue => exact .drop _ rfl
      case isFalse hsize =>
        split
        case h_1 message hmessage =>
          exact .complete decoded message haccepts (by omega) (not_not.mp hsize) hmessage
        case h_2 => exact .drop _ rfl

namespace ClientSegmentReassembler
variable {codec : Codec Message} {moment : Moment} {envelope : ClientEnvelope Message}
  {self : ClientSegmentReassembler}

/-- What a call of `observe` returns and leaves. Only an accepted chunk changes the assembly of its
client to another one. -/
inductive Observed (codec : Codec Message) (moment : Moment) (self : ClientSegmentReassembler)
    (envelope : ClientEnvelope Message) :
    ClientSegmentObservation Message × ClientSegmentReassembler → Prop
  | forwarded (hchunk : envelope.segmentId? = none) :
    Observed codec moment self envelope (.forward envelope, self)
  | dropped (self' : ClientSegmentReassembler)
    (htouches : Touches envelope.clientId self self')
    (hown : self'.assembly? envelope.clientId = self.assembly? envelope.clientId ∨
      self'.assembly? envelope.clientId = none) :
    Observed codec moment self envelope (.dropped, self')
  | pending (self' : ClientSegmentReassembler) (assembly : ClientSegmentAssembly) (decoded : Bytes)
    (htouches : Touches envelope.clientId self self')
    (hresumed : self.resumed moment.now envelope.clientId assembly.streamId assembly.metadata =
      assembly)
    (haccepts : Accepts codec assembly envelope decoded)
    (hmore : assembly.nextSegmentId + 1 < assembly.metadata.segmentCount)
    (hown : self'.assembly? envelope.clientId = some (assembly.extend moment.now decoded)) :
    Observed codec moment self envelope (.pending, self')
  | complete (self' : ClientSegmentReassembler) (assembly : ClientSegmentAssembly)
    (decoded : Bytes) (message : Message)
    (htouches : Touches envelope.clientId self self')
    (hresumed : self.resumed moment.now envelope.clientId assembly.streamId assembly.metadata =
      assembly)
    (haccepts : Accepts codec assembly envelope decoded)
    (hlast : assembly.nextSegmentId + 1 = assembly.metadata.segmentCount)
    (hsize : (assembly.raw ++ decoded).length = assembly.metadata.messageSizeBytes)
    (hmessage : codec.fromSlice (assembly.raw ++ decoded) = some message)
    (hown : self'.assembly? envelope.clientId = none) :
    Observed codec moment self envelope
      (.forward { envelope with event := .clientMessage message }, self')

variable {metadata : ClientSegmentMetadata}

theorem shouldIgnoreChunk_iff {clientId streamId : Text} {segmentId : Nat} (now : Nat) :
    self.shouldIgnoreChunk clientId streamId metadata.seqId segmentId ↔
      metadata.seqId < (self.resumed now clientId streamId metadata).metadata.seqId ∨
        metadata.seqId = (self.resumed now clientId streamId metadata).metadata.seqId ∧
          segmentId < (self.resumed now clientId streamId metadata).nextSegmentId := by
  by_cases hother : ∀ assembly ∈ self.assembly? clientId, assembly.streamId ≠ streamId
  · rw [resumed_of_forall_ne hother, shouldIgnoreChunk]
    cases hassembly : self.assembly? clientId with
    | none => simp
    | some assembly => simp [hother assembly hassembly]
  · push Not at hother
    obtain ⟨assembly, hassembly, hstream⟩ := hother
    rw [resumed_of_assembly? hassembly hstream, shouldIgnoreChunk, hassembly]
    simp [hstream]

theorem lt_segmentCount_of_isInvalid_eq_false {segmentId : Nat} {text : Text}
    (h : isInvalid metadata segmentId text = false) : segmentId < metadata.segmentCount := by
  simp only [isInvalid, Bool.or_eq_false_iff, decide_eq_false_iff_not] at h
  omega

theorem removeAssembly_insert_assembly? (self : ClientSegmentReassembler) (clientId : Text)
    (assembly : ClientSegmentAssembly) :
    (removeAssembly ⟨self.assemblies.insert clientId assembly⟩
      clientId assembly.streamId).assembly? clientId = none := by
  rw [removeAssembly_assembly?, assembly?, lookup_insert]
  simp [Option.filter]

theorem observed_of_valid {streamId : Text} {segmentId segmentCount messageSizeBytes : Nat}
    {text : Text}
    (hevent : envelope.event = .clientMessageChunk segmentId segmentCount messageSizeBytes text)
    (hmetadata : ClientSegmentMetadata.fromEnvelope envelope = some metadata)
    (hstream : envelope.streamId = some streamId)
    (hignore : self.shouldIgnoreChunk envelope.clientId streamId metadata.seqId segmentId = false)
    (hvalid : isInvalid metadata segmentId text = false) : Observed codec moment self envelope
      (let s := self.ensureAssembly moment envelope.clientId streamId metadata
      match s.assembly? envelope.clientId with
      | none => (.dropped, s)
      | some assembly =>
        let (result, assembly) := updateAssembly codec moment.now metadata segmentId text assembly
        let s := ⟨s.assemblies.insert envelope.clientId assembly⟩
        match result with
        | .pending => (.pending, s)
        | .ignore => (.dropped, s)
        | .drop => (.dropped, s.removeAssembly envelope.clientId streamId)
        | .complete message =>
          (.forward { envelope with event := .clientMessage message },
            s.removeAssembly envelope.clientId streamId)) := by
  have hopen : Touches envelope.clientId self
      (self.ensureAssembly moment envelope.clientId streamId metadata) :=
    touches_ensureAssembly metadata
  have hassembly : (self.ensureAssembly moment envelope.clientId streamId metadata).assembly?
      envelope.clientId = some (self.resumed moment.now envelope.clientId streamId metadata) :=
    ensureAssembly_assembly? metadata
  have hname : (self.resumed moment.now envelope.clientId streamId metadata).streamId = streamId :=
    resumed_streamId moment.now metadata
  rw [← Bool.not_eq_true, shouldIgnoreChunk_iff moment.now] at hignore
  generalize hresumed : self.resumed moment.now envelope.clientId streamId metadata = assembly
    at hassembly hname hignore
  subst hname
  have hupdate : Updated codec moment.now envelope assembly
      (updateAssembly codec moment.now metadata segmentId text assembly) :=
    updated_updateAssembly moment.now hevent hstream hmetadata
      (lt_segmentCount_of_isInvalid_eq_false hvalid) hignore
  have hinsert (assembly' : ClientSegmentAssembly) :=
    hopen.trans (touches_insert (mem_of_assembly? hassembly) assembly')
  -- an accepted chunk has the metadata of the assembly
  have hsame {decoded : Bytes} (haccepts : Accepts codec assembly envelope decoded) :
      self.resumed moment.now envelope.clientId assembly.streamId assembly.metadata = assembly := by
    rw [← Option.some.inj (hmetadata.symm.trans haccepts.metadata)]
    exact hresumed
  dsimp only
  rw [hassembly]
  dsimp only
  generalize updateAssembly codec moment.now metadata segmentId text assembly = updated at hupdate
  cases hupdate with
  | drop assembly' hstream' =>
    refine .dropped _ ((hinsert assembly').trans (touches_removeAssembly _ _ _)) (.inr ?_)
    rw [← hstream']
    exact removeAssembly_insert_assembly? _ _ _
  | pending decoded haccepts hmore =>
    exact .pending _ assembly decoded (hinsert _) (hsame haccepts) haccepts hmore (lookup_insert _)
  | complete decoded message haccepts hlast hsize hmessage =>
    exact .complete _ assembly decoded message
      ((hinsert _).trans (touches_removeAssembly _ _ _)) (hsame haccepts) haccepts hlast hsize
      hmessage (removeAssembly_insert_assembly? _ _ (assembly.extend moment.now decoded))

theorem observed_observe (codec : Codec Message) (moment : Moment)
    (self : ClientSegmentReassembler) (envelope : ClientEnvelope Message) :
    Observed codec moment self envelope (observe codec moment self envelope) := by
  rw [observe]
  split
  case h_2 hother =>
    refine .forwarded ?_
    rw [ClientEnvelope.segmentId?]
    split
    case h_1 hevent => exact absurd hevent (hother _ _ _ _)
    case h_2 => rfl
  case h_1 segmentId segmentCount messageSizeBytes text hevent =>
    split
    case h_1 => exact .dropped self (.refl _ _) (.inl rfl)
    case h_2 => exact .dropped self (.refl _ _) (.inl rfl)
    case h_3 metadata streamId hmetadata hstream =>
      split
      case isTrue => exact .dropped self (.refl _ _) (.inl rfl)
      case isFalse hignore =>
        split
        case isTrue =>
          exact .dropped _ (touches_removeAssembly _ _ _) (removeAssembly_own _ _ _)
        case isFalse hvalid =>
          rw [Bool.not_eq_true] at hignore hvalid
          exact observed_of_valid hevent hmetadata hstream hignore hvalid

end ClientSegmentReassembler

end Codex.RemoteControl.Segment

import Codex.Lib.Registry
import Codex.RemoteControl.ClientTracker

/-! A finished task is known by the key of its client alone. What a step does to connections and
tasks is told in terms of a registry. -/

namespace Codex.RemoteControl
open Codex.Lib Codex.Lib.Fallible List Registry ClientTracker Function

namespace ClientTracker

def registry (s : ClientTracker) : Registry ClientKey ConnectionId where
  owner := fun key => (s.clients.lookup key).map ClientState.connectionId
  pending := s.joinSet.map fun task => (task.key, task.connectionId)

variable {s : ClientTracker} {env : Surroundings} {key : ClientKey}

theorem owner_erase (clients : AList fun _ : ClientKey => ClientState) (key : ClientKey) :
    (fun k => ((clients.erase key).lookup k).map ClientState.connectionId) =
      update (fun k => (clients.lookup k).map ClientState.connectionId) key none := by
  funext k
  by_cases hk : k = key
  · subst hk
    simp
  · rw [update_of_ne hk, AList.lookup_erase_ne hk]

theorem owner_insert (clients : AList fun _ : ClientKey => ClientState) (key : ClientKey)
    (client : ClientState) :
    (fun k => ((clients.insert key client).lookup k).map ClientState.connectionId) =
      update (fun k => (clients.lookup k).map ClientState.connectionId) key
        (some client.connectionId) := by
  funext k
  by_cases hk : k = key
  · subst hk
    simp
  · rw [update_of_ne hk, AList.lookup_insert_ne hk]

theorem registry_removeClient (s : ClientTracker) (key : ClientKey) :
    (s.removeClient key).registry = s.registry.close key := by
  rw [registry, removeClient, owner_erase]
  rfl

variable (connectionId : ConnectionId)

theorem registry_spawnClient (isLegacyStreamId : Bool) :
    (s.spawnClient env key connectionId isLegacyStreamId).registry =
      s.registry.register key connectionId := by
  rw [registry, spawnClient, owner_insert, map_append]
  rfl

theorem registry_abandonClient :
    (s.abandonClient env key connectionId).registry = s.registry.close key := by
  unfold abandonClient
  simp only
  split <;> exact registry_removeClient s key

theorem registry_updateClient {f : ClientState → ClientState}
    (hf : ∀ client, (f client).connectionId = client.connectionId) :
    (s.updateClient key f).registry = s.registry := by
  unfold updateClient
  split
  · rfl
  · next client hclient =>
    have howner : s.registry.owner key = some client.connectionId :=
      congrArg (Option.map ClientState.connectionId) hclient
    rw [registry, owner_insert, hf, ← howner]
    exact congrArg₂ Registry.mk (update_eq_self _ _) rfl

theorem registry_touch : (s.touch env key).registry = s.registry :=
  registry_updateClient fun _ => rfl

theorem registry_recordInboundMessageDelivery (seqId : Option Nat) :
    (s.recordInboundMessageDelivery key seqId).registry = s.registry := by
  cases seqId with
  | none => rfl
  | some seqId => exact registry_updateClient fun _ => rfl

theorem registry_sendTransportEvent (event : TransportEvent) :
    ((sendTransportEvent env event).exec s).2.registry = s.registry := by
  unfold sendTransportEvent
  split <;> rfl

theorem registry_closeClient (env : Surroundings) (key : ClientKey) (s : ClientTracker) :
    ((closeClient env key).exec s).2.registry = s.registry.close key := by
  rw [closeClient, exec_bind, exec_get]
  simp only
  split
  · next hnone =>
    have howner : s.registry.owner key = none :=
      congrArg (Option.map ClientState.connectionId) hnone
    exact (close_of_none howner).symm
  · next client _ =>
    rw [exec_bind, exec_modify]
    exact (registry_sendTransportEvent _).trans (registry_removeClient s key)

theorem transportEvents_closeClient (env : Surroundings) (key : ClientKey) (s : ClientTracker) :
    ((closeClient env key).exec s).2.transportEvents = s.transportEvents ∨
      ∃ connectionId, s.registry.owner key = some connectionId ∧
        ((closeClient env key).exec s).2.transportEvents =
          s.transportEvents ++ [.connectionClosed connectionId] := by
  rw [closeClient, exec_bind, exec_get]
  simp only
  split
  · exact Or.inl rfl
  · next client hclient =>
    have howner : s.registry.owner key = some client.connectionId :=
      congrArg (Option.map ClientState.connectionId) hclient
    rw [exec_bind, exec_modify, sendTransportEvent]
    by_cases haccepts : env.accepts (.connectionClosed client.connectionId)
    · rw [if_pos haccepts]
      exact Or.inr ⟨client.connectionId, howner, rfl⟩
    · rw [if_neg haccepts]
      exact Or.inl rfl

inductive MessageEffect (key : ClientKey) (event : ClientEvent JSONRPCMessage)
    (r : Registry ClientKey ConnectionId) : Registry ClientKey ConnectionId → Prop where
  | same : MessageEffect key event r r
  | closed (h : event = .clientClosed ∨ event.isInitialize = true) :
    MessageEffect key event r (r.close key)
  | opened (h : event.isInitialize = true) (connectionId : ConnectionId) :
    MessageEffect key event r (r.register key connectionId)
  | abandoned (h : event.isInitialize = true) (connectionId : ConnectionId) :
    MessageEffect key event r ((r.register key connectionId).close key)

theorem registry_openClient (env : Surroundings) (key : ClientKey) (isLegacyStreamId : Bool)
    (seqId : Option Nat) (message : JSONRPCMessage) (s : ClientTracker) :
    let registry' := ((openClient env key isLegacyStreamId seqId message).exec s).2.registry
    registry' = s.registry ∨ ∃ connectionId, registry' = s.registry.register key connectionId ∨
      registry' = (s.registry.register key connectionId).close key := by
  intro registry'
  unfold registry' openClient sendTransportEvent
  simp only [exec_bind, exec_get, exec_modify]
  by_cases hopened : env.accepts (.connectionOpened s.nextConnectionId)
  · rw [if_pos hopened]
    simp only [exec_modify]
    right
    refine ⟨s.nextConnectionId, ?_⟩
    by_cases htaken : env.accepts (.incomingMessage s.nextConnectionId message)
    · rw [if_pos htaken]
      left
      rw [exec_modify]
      cases isLegacyStreamId with
      | true => exact registry_spawnClient _ true
      | false =>
        exact (registry_recordInboundMessageDelivery seqId).trans (registry_spawnClient _ false)
    · rw [if_neg htaken]
      right
      rw [exec_bind, exec_modify]
      exact (registry_abandonClient _).trans (congrArg (close · key) (registry_spawnClient _ _))
  · rw [if_neg hopened]
    exact Or.inl rfl

theorem registry_forwardMessage (env : Surroundings) (key : ClientKey) (seqId : Option Nat)
    (connectionId : ConnectionId) (message : JSONRPCMessage) (s : ClientTracker) :
    ((forwardMessage env key seqId connectionId message).exec s).2.registry = s.registry := by
  rw [forwardMessage, exec_bind, exec_modify]
  simp only
  rw [exec_bind]
  have hsent := @registry_sendTransportEvent (s.touch env key) env
    (.incomingMessage connectionId message)
  rw [registry_touch] at hsent
  rcases hexec : (sendTransportEvent env (.incomingMessage connectionId message)).exec
    (s.touch env key) with ⟨result, sent⟩
  rw [hexec] at hsent
  cases result with
  | error e => exact hsent
  | ok a => exact (registry_recordInboundMessageDelivery seqId).trans hsent

theorem registry_forwardOrOpen (env : Surroundings) (key : ClientKey) (isLegacyStreamId : Bool)
    (seqId : Option Nat) (message : JSONRPCMessage) (s : ClientTracker) :
    MessageEffect key (.clientMessage message) s.registry
      ((forwardOrOpen env key isLegacyStreamId seqId message).exec s).2.registry := by
  rw [forwardOrOpen, exec_bind, exec_get]
  simp only
  split
  · rw [registry_forwardMessage]
    exact .same
  · split
    · next hstarts =>
      have hevent : (ClientEvent.clientMessage message).isInitialize := hstarts
      rcases registry_openClient env key isLegacyStreamId seqId message s with
        h | ⟨connectionId, h | h⟩
      · exact h ▸ .same
      · exact h ▸ .opened hevent connectionId
      · exact h ▸ .abandoned hevent connectionId
    · exact .same

theorem MessageEffect.of_close {event : ClientEvent JSONRPCMessage}
    {r r' : Registry ClientKey ConnectionId} (hevent : event.isInitialize)
    (h : MessageEffect key event (r.close key) r') :
    MessageEffect key event r r' := by
  cases h with
  | same => exact .closed (Or.inr hevent)
  | closed h =>
    rw [close_of_none owner_close_self]
    exact .closed h
  | opened h connectionId =>
    rw [register_close]
    exact .opened h connectionId
  | abandoned h connectionId =>
    rw [register_close]
    exact .abandoned h connectionId

theorem registry_handleClientMessage (env : Surroundings) (key : ClientKey)
    (isLegacyStreamId : Bool) (seqId : Option Nat) (message : JSONRPCMessage) (s : ClientTracker) :
    MessageEffect key (.clientMessage message) s.registry
      ((handleClientMessage env key isLegacyStreamId seqId message).exec s).2.registry := by
  rw [handleClientMessage, exec_bind, exec_get]
  simp only
  split
  · exact .same
  · split
    · next hclose =>
      have hstarts : message.startsConnection := (Bool.and_eq_true _ _ ▸ hclose).1
      have hclosed := registry_closeClient env key s
      rw [exec_bind]
      rcases hexec : (closeClient env key).exec s with ⟨result, closed⟩
      rw [hexec] at hclosed
      cases result with
      | error e => exact hclosed ▸ .closed (Or.inr hstarts)
      | ok a =>
        have hopen := registry_forwardOrOpen env key isLegacyStreamId seqId message closed
        rw [hclosed] at hopen
        exact hopen.of_close hstarts
    · exact registry_forwardOrOpen env key isLegacyStreamId seqId message s

theorem registry_handleEvent (env : Surroundings) (key : ClientKey) (isLegacyStreamId : Bool)
    (seqId : Option Nat) (event : ClientEvent JSONRPCMessage) (s : ClientTracker) :
    MessageEffect key event s.registry
      ((handleEvent env key isLegacyStreamId seqId event).exec s).2.registry := by
  cases event with
  | clientMessage message => exact registry_handleClientMessage _ _ _ _ _ _
  | clientMessageChunk => exact .same
  | ack => exact .same
  | ping =>
    rw [handleEvent, exec_modify]
    simp only
    split
    · rw [registry_touch]
      exact .same
    · exact .same
  | clientClosed =>
    rw [handleEvent, registry_closeClient]
    exact .closed (Or.inl rfl)

def envelopeKey (env : Surroundings) (envelope : ClientEnvelope JSONRPCMessage)
    (s : ClientTracker) : ClientKey :=
  (envelope.clientId, (s.takeStreamId env envelope).1)

theorem registry_takeStreamId (env : Surroundings) (envelope : ClientEnvelope JSONRPCMessage)
    (s : ClientTracker) : (s.takeStreamId env envelope).2.registry = s.registry := by
  unfold takeStreamId
  split
  · rfl
  · simp only
    split <;> rfl

theorem registry_handleMessage (env : Surroundings) (envelope : ClientEnvelope JSONRPCMessage)
    (s : ClientTracker) :
    MessageEffect (s.envelopeKey env envelope) envelope.event s.registry
      ((handleMessage env envelope).exec s).2.registry := by
  rw [handleMessage, exec_bind, exec_modifyGet, ← registry_takeStreamId env envelope s]
  simp only
  split
  · exact .same
  · exact registry_handleEvent _ _ _ _ _ _

theorem registry_closeClients (env : Surroundings) (keys : List ClientKey) (s : ClientTracker) :
    let registry' := ((closeClients env keys).exec s).2.registry
    registry'.pending = s.registry.pending ∧
      ∀ k, registry'.owner k = s.registry.owner k ∨ k ∈ keys ∧ registry'.owner k = none := by
  induction keys generalizing s with
  | nil => exact ⟨rfl, fun k => Or.inl rfl⟩
  | cons key keys ih =>
    have hclosed := registry_closeClient env key s
    have howner : ∀ k, (s.registry.close key).owner k = s.registry.owner k ∨
        k ∈ key :: keys ∧ (s.registry.close key).owner k = none := by
      intro k
      by_cases hk : k = key
      · subst hk
        exact Or.inr ⟨mem_cons_self, owner_close_self⟩
      · exact Or.inl (owner_close_of_ne hk)
    rw [closeClients, exec_bind]
    rcases hexec : (closeClient env key).exec s with ⟨result, closed⟩
    rw [hexec] at hclosed
    cases result with
    | error e =>
      simp only at hclosed ⊢
      rw [hclosed]
      exact ⟨rfl, howner⟩
    | ok a =>
      obtain ⟨hpending, hrest⟩ := ih closed
      simp only at hclosed hpending hrest ⊢
      rw [hclosed] at hpending hrest
      refine ⟨hpending, fun k => ?_⟩
      rcases hrest k with hk | ⟨hmem, hnone⟩
      · rw [hk]
        exact howner k
      · exact Or.inr ⟨mem_cons_of_mem key hmem, hnone⟩

theorem registry_closeExpiredClients (env : Surroundings) (order : List ClientKey)
    (s : ClientTracker) :
    let registry' := ((closeExpiredClients env order).exec s).2.registry
    registry'.pending = s.registry.pending ∧
      ∀ k, registry'.owner k = s.registry.owner k ∨
        registry'.owner k = none ∧
          ∃ client, s.clients.lookup k = some client ∧ client.isAlive env.now = false := by
  rw [closeExpiredClients, exec_bind, exec_get]
  obtain ⟨hpending, howner⟩ := registry_closeClients env
    (order.filter fun key => (s.clients.lookup key).any fun client => !client.isAlive env.now) s
  refine ⟨hpending, fun k => ?_⟩
  rcases howner k with hk | ⟨hmem, hnone⟩
  · exact Or.inl hk
  · have hexpired := (mem_filter.mp hmem).2
    simp only [Option.any_eq_true, Bool.not_eq_true'] at hexpired
    exact Or.inr ⟨hnone, hexpired⟩

theorem registry_runOutbound (input : OutboundInput) (s : ClientTracker) :
    (s.runOutbound connectionId input).registry = s.registry := by
  have hfinish : ∀ task, (runOutbound.finish s task).registry = s.registry := by
    intro task
    rw [registry, runOutbound.finish, registry, map_map]
    congr 1
    refine map_congr_left fun t _ => ?_
    simp only [comp_apply]
    split <;> rfl
  unfold runOutbound
  split
  · rfl
  · split
    · split
      · exact hfinish _
      · rfl
    · rfl
    · exact hfinish _

def Fresh (s : ClientTracker) : Step → Prop
  | .message env envelope => envelope.event.isInitialize = true →
      ∀ task ∈ s.joinSet, task.key ≠ s.envelopeKey env envelope
  | _ => True

def FreshRun : ClientTracker → List Step → Prop
  | _, [] => True
  | s, step :: steps => s.Fresh step ∧ FreshRun (s.step step) steps

instance (s : ClientTracker) (step : Step) : Decidable (s.Fresh step) := by
  cases step <;> unfold Fresh <;> infer_instance

instance FreshRun.decidable : (s : ClientTracker) → (steps : List Step) →
    Decidable (FreshRun s steps)
  | _, [] => isTrue trivial
  | s, step :: steps =>
    have := FreshRun.decidable (s.step step) steps
    inferInstanceAs (Decidable (s.Fresh step ∧ FreshRun (s.step step) steps))

def Ends (s : ClientTracker) (key : ClientKey) (connectionId : ConnectionId) : Step → Prop
  | .message env envelope => s.envelopeKey env envelope = key ∧
      (envelope.event = .clientClosed ∨ envelope.event.isInitialize = true)
  | .report _ task => task.connectionId = connectionId
  | .sweep env _ => ∃ client, s.clients.lookup key = some client ∧ client.isAlive env.now = false
  | .shutdown _ => True
  | _ => False

theorem pending_of_mem {task : OutboundTask} (h : task ∈ s.joinSet) :
    (task.key, task.connectionId) ∈ s.registry.pending :=
  mem_map.mpr ⟨task, h, rfl⟩

section
variable (h : s.registry.JobsOwn)
include h

theorem jobsOwn_erase (task : OutboundTask) :
    (registry { s with joinSet := s.joinSet.erase task }).JobsOwn := by
  refine h.mono (fun _ _ => id) fun job hjob => ?_
  obtain ⟨t, ht, rfl⟩ := mem_map.mp hjob
  exact pending_of_mem (mem_of_mem_erase ht)

theorem jobsOwn_step {step : Step} (hfresh : s.Fresh step) : (s.step step).registry.JobsOwn := by
  cases step with
  | message env envelope =>
    have hfree : envelope.event.isInitialize →
        ∀ job ∈ s.registry.pending, job.1 ≠ s.envelopeKey env envelope := by
      intro hinitialize job hjob
      obtain ⟨task, htask, rfl⟩ := mem_map.mp hjob
      exact hfresh hinitialize task htask
    have heffect := registry_handleMessage env envelope s
    rw [step]
    generalize ((handleMessage env envelope).exec s).2.registry = registry' at heffect ⊢
    cases heffect with
    | same => exact h
    | closed _ => exact h.close _
    | opened hinitialize connectionId => exact h.register (hfree hinitialize) connectionId
    | abandoned hinitialize connectionId =>
      exact (h.register (hfree hinitialize) connectionId).close _
  | report env task =>
    rw [step]
    split
    · rw [registry_closeClient]
      exact (jobsOwn_erase h task).close _
    · exact h
  | joinFailed task => exact jobsOwn_erase h task
  | sweep env order =>
    obtain ⟨hpending, howner⟩ := registry_closeExpiredClients env order s
    refine h.mono (fun k i hi => ?_) fun job hjob => hpending ▸ hjob
    rcases howner k with hk | ⟨hnone, -⟩
    · exact hk ▸ hi
    · exact absurd (hnone.symm.trans hi) nofun
  | outbound connectionId input =>
    rw [step, registry_runOutbound]
    exact h
  | disconnect connectionId => exact h
  | otherConnection => exact h
  | shutdown env => exact nofun

theorem owner_step {key : ClientKey} {connectionId : ConnectionId}
    (hopen : s.registry.owner key = some connectionId) (step : Step) :
    (s.step step).registry.owner key = some connectionId ∨ s.Ends key connectionId step := by
  cases step with
  | message env envelope =>
    have heffect := registry_handleMessage env envelope s
    rw [step]
    generalize ((handleMessage env envelope).exec s).2.registry = registry' at heffect ⊢
    by_cases hkey : key = s.envelopeKey env envelope
    · cases heffect with
      | same => exact Or.inl hopen
      | closed hends => exact Or.inr ⟨hkey.symm, hends⟩
      | opened hinitialize _ => exact Or.inr ⟨hkey.symm, Or.inr hinitialize⟩
      | abandoned hinitialize _ => exact Or.inr ⟨hkey.symm, Or.inr hinitialize⟩
    · left
      cases heffect with
      | same => exact hopen
      | closed _ => rwa [owner_close_of_ne hkey]
      | opened _ _ => rwa [owner_register_of_ne hkey]
      | abandoned _ _ => rwa [owner_close_of_ne hkey, owner_register_of_ne hkey]
  | report env task =>
    rw [step]
    split
    · next hfinished =>
      rw [registry_closeClient]
      by_cases hkey : key = task.key
      · subst hkey
        exact Or.inr (h _ (pending_of_mem hfinished.1) connectionId hopen).symm
      · left
        rwa [owner_close_of_ne hkey]
    · exact Or.inl hopen
  | joinFailed task => exact Or.inl hopen
  | sweep env order =>
    rcases (registry_closeExpiredClients env order s).2 key with hk | ⟨-, hexpired⟩
    · exact Or.inl (hk.trans hopen)
    · exact Or.inr hexpired
  | outbound connectionId input =>
    left
    rwa [step, registry_runOutbound]
  | disconnect connectionId => exact Or.inl hopen
  | otherConnection => exact Or.inl hopen
  | shutdown env => exact Or.inr trivial

theorem transportEvents_report (env : Surroundings) (task : OutboundTask) :
    (s.step (.report env task)).transportEvents = s.transportEvents ∨
      (s.step (.report env task)).transportEvents =
        s.transportEvents ++ [.connectionClosed task.connectionId] := by
  rw [step]
  split
  · next hfinished =>
    rcases transportEvents_closeClient env task.key { s with joinSet := s.joinSet.erase task } with
      hsame | ⟨connectionId, howner, hclosed⟩
    · exact Or.inl hsame
    · rw [h _ (pending_of_mem hfinished.1) connectionId howner] at hclosed
      exact Or.inr hclosed
  · exact Or.inl rfl

theorem jobsOwn_foldl {steps : List Step} (hfresh : FreshRun s steps) :
    (steps.foldl step s).registry.JobsOwn := by
  induction steps generalizing s with
  | nil => exact h
  | cons step steps ih => exact ih (jobsOwn_step h hfresh.1) hfresh.2

end

theorem FreshRun.of_append {steps more : List Step} (h : FreshRun s (steps ++ more)) :
    FreshRun s steps := by
  induction steps generalizing s with
  | nil => trivial
  | cons step steps ih => exact ⟨h.1, ih h.2⟩

/-- In a run in which a key is not taken again before the tasks of it are reported, a report closes
the connection of its own task only, and a connection stays until it has a reason to end. -/
theorem report_closes_own_connection {steps : List Step} {next : Step}
    (hfresh : FreshRun new (steps ++ [next])) :
    let s := run steps
    (∀ env task, next = .report env task →
      (s.step next).transportEvents = s.transportEvents ∨
        (s.step next).transportEvents =
          s.transportEvents ++ [.connectionClosed task.connectionId]) ∧
      ∀ key connectionId, s.registry.owner key = some connectionId →
        (s.step next).registry.owner key = some connectionId ∨ s.Ends key connectionId next := by
  intro s
  have hown : s.registry.JobsOwn := jobsOwn_foldl (s := new) nofun hfresh.of_append
  refine ⟨fun env task hnext => ?_, fun key connectionId hopen => owner_step hown hopen next⟩
  subst hnext
  exact transportEvents_report hown env task

section Cases

def quiet : Surroundings := ⟨0, ['r'], fun _ => true⟩

def connects : Step :=
  .message quiet ⟨.clientMessage (.request "initialize".toList), ['c'], some ['s'], none, none⟩

theorem report_closes_own_connection_reconnect :
    let closes : Step := .message quiet ⟨.clientClosed, ['c'], some ['s'], none, none⟩
    let steps := [connects, closes, .outbound 0 .disconnected,
      .report quiet ⟨(['c'], ['s']), 0, true⟩, connects, .outbound 1 (.queued none true)]
    let next : Step := .report quiet ⟨(['c'], ['s']), 1, true⟩
    FreshRun new (steps ++ [next]) ∧
      (((run steps).step next).transportEvents = (run steps).transportEvents ∨
        ((run steps).step next).transportEvents =
          (run steps).transportEvents ++ [.connectionClosed 1]) := by
  intro closes steps next
  have hfresh : FreshRun new (steps ++ [next]) := by decide +kernel
  exact ⟨hfresh, (report_closes_own_connection hfresh).1 _ _ rfl⟩

/-- The client connects again on the open stream. The task of the first connection is disconnected,
and its report closes the second connection. -/
theorem report_closes_later_connection :
    let s := run [connects, connects, .outbound 0 .disconnected]
    let task : OutboundTask := ⟨(['c'], ['s']), 0, true⟩
    task ∈ s.joinSet ∧ s.registry.owner (['c'], ['s']) = some 1 ∧
      (s.step (.report quiet task)).transportEvents = s.transportEvents ++ [.connectionClosed 1] ∧
      (s.step (.report quiet task)).registry.owner (['c'], ['s']) = none := by
  decide +kernel

end Cases

end ClientTracker

end Codex.RemoteControl

import Codex.ContextManager.Normalize
import Mathlib.Logic.Function.Iterate

/-! `remove_first_item` of `core/src/context_manager/history.rs` and `remove_corresponding_for` of
`core/src/context_manager/normalize.rs`. -/

namespace Codex.ContextManager
open Codex.Lib List ResponseItem

def removeFirstMatching (items : List ResponseItemEnvelope) (predicate : ResponseItem → Bool) :
    List ResponseItemEnvelope :=
  match items.findIdx? fun envelope => predicate envelope.item with
  | some pos => items.eraseIdx pos
  | none => items

def ResponseItem.isFunctionCall (callId : Text) : ResponseItem → Bool
  | .functionCall _ existing _ => existing = callId
  | _ => false

def ResponseItem.isLocalShellCall (callId : Text) : ResponseItem → Bool
  | .localShellCall _ (some existing) _ => existing = callId
  | _ => false

def ResponseItem.isToolSearchCall (callId : Text) : ResponseItem → Bool
  | .toolSearchCall _ (some existing) _ => existing = callId
  | _ => false

def ResponseItem.isCustomToolCall (callId : Text) : ResponseItem → Bool
  | .customToolCall _ existing _ => existing = callId
  | _ => false

def ResponseItem.isFunctionCallOutput (callId : Text) : ResponseItem → Bool
  | .functionCallOutput _ (some existing) _ _ _ _ => existing = callId
  | _ => false

def ResponseItem.isToolSearchOutput (callId : Text) : ResponseItem → Bool
  | .toolSearchOutput _ (some existing) _ _ _ _ => existing = callId
  | _ => false

def ResponseItem.isCustomToolCallOutput (callId : Text) : ResponseItem → Bool
  | .customToolCallOutput _ existing _ _ _ => existing = callId
  | _ => false

def removeCorrespondingFor (items : List ResponseItemEnvelope) :
    ResponseItem → List ResponseItemEnvelope
  | .functionCall _ callId _ => removeFirstMatching items (·.isFunctionCallOutput callId)
  | .functionCallOutput _ (some callId) _ _ _ _ =>
    -- a function call goes before a local shell call with the same id
    match items.findIdx? fun envelope => envelope.item.isFunctionCall callId with
    | some pos => items.eraseIdx pos
    | none => removeFirstMatching items (·.isLocalShellCall callId)
  | .toolSearchCall _ (some callId) _ => removeFirstMatching items (·.isToolSearchOutput callId)
  | .toolSearchOutput _ (some callId) _ _ _ _ =>
    removeFirstMatching items (·.isToolSearchCall callId)
  | .customToolCall _ callId _ => removeFirstMatching items (·.isCustomToolCallOutput callId)
  | .customToolCallOutput _ callId _ _ _ => removeFirstMatching items (·.isCustomToolCall callId)
  | .localShellCall _ (some callId) _ => removeFirstMatching items (·.isFunctionCallOutput callId)
  | _ => items

def removeFirstItem : List ResponseItemEnvelope → List ResponseItemEnvelope
  | [] => []
  | removed :: items => removeCorrespondingFor items removed.item

def Counterparts (a b : ResponseItem) : Prop :=
  ∃ key, a.call = some key ∧ b.output = some key ∨ a.output = some key ∧ b.call = some key

theorem counterparts_of_call {a b : ResponseItem} {key : CallKey} (h : a.call = some key) :
    Counterparts a b ↔ b.output = some key := by
  simp [Counterparts, h, output_eq_none_of_call h]

theorem call_eq_none_of_output {item : ResponseItem} {key : CallKey}
    (h : item.output = some key) : item.call = none := by
  cases hc : item.call with
  | none => rfl
  | some key' =>
    rw [output_eq_none_of_call hc] at h
    cases h

theorem counterparts_of_output {a b : ResponseItem} {key : CallKey} (h : a.output = some key) :
    Counterparts a b ↔ b.call = some key := by
  simp [Counterparts, h, call_eq_none_of_output h]

section predicates
variable {item : ResponseItem} {callId : Text}

theorem isFunctionCallOutput_iff :
    item.isFunctionCallOutput callId ↔ item.output = some (.function, callId) := by
  fun_cases output item <;> simp [isFunctionCallOutput]

theorem isToolSearchOutput_iff :
    item.isToolSearchOutput callId ↔ item.output = some (.toolSearch, callId) := by
  fun_cases output item <;> simp [isToolSearchOutput]

theorem isCustomToolCallOutput_iff :
    item.isCustomToolCallOutput callId ↔ item.output = some (.customTool, callId) := by
  fun_cases output item <;> simp [isCustomToolCallOutput]

theorem isFunctionCall_or_isLocalShellCall_iff :
    item.isFunctionCall callId ∨ item.isLocalShellCall callId ↔
      item.call = some (.function, callId) := by
  fun_cases call item <;>
    simp [isFunctionCall, isLocalShellCall]

theorem isToolSearchCall_iff :
    item.isToolSearchCall callId ↔ item.call = some (.toolSearch, callId) := by
  fun_cases call item <;> simp [isToolSearchCall]

theorem isCustomToolCall_iff :
    item.isCustomToolCall callId ↔ item.call = some (.customTool, callId) := by
  fun_cases call item <;> simp [isCustomToolCall]

end predicates

inductive RemovesOne (P : ResponseItem → Prop) (items out : List ResponseItemEnvelope) : Prop
  | absent (none : ∀ c ∈ items, ¬P c.item) (same : out = items)
  | removed (before : List ResponseItemEnvelope) (c : ResponseItemEnvelope)
      (after : List ResponseItemEnvelope) (split : items = before ++ c :: after) (holds : P c.item)
      (rest : out = before ++ after)

variable {items out rest : List ResponseItemEnvelope} {P Q : ResponseItem → Prop}

theorem RemovesOne.congr (h : RemovesOne P items out) (hPQ : ∀ item, P item ↔ Q item) :
    RemovesOne Q items out := by
  have e : P = Q := funext fun item => propext (hPQ item)
  exact e ▸ h

theorem RemovesOne.sublist (h : RemovesOne P items out) : out.Sublist items := by
  cases h with
  | absent _ same => exact same ▸ List.Sublist.refl _
  | removed before c after split _ rest =>
    rw [split, rest]
    exact (List.Sublist.refl before).append (sublist_cons_self c after)

theorem removesOne_eraseIdx {predicate : ResponseItem → Bool} {pos : Nat}
    (h : items.findIdx? (fun envelope => predicate envelope.item) = some pos) :
    RemovesOne (predicate ·) items (items.eraseIdx pos) := by
  obtain ⟨hpos, hp, -⟩ := findIdx?_eq_some_iff_getElem.mp h
  refine .removed (items.take pos) items[pos] (items.drop (pos + 1)) ?_ hp
    (eraseIdx_eq_take_drop_succ items pos)
  rw [getElem_cons_drop, take_append_drop]

theorem removeFirstMatching_removesOne (items : List ResponseItemEnvelope)
    (predicate : ResponseItem → Bool) :
    RemovesOne (predicate ·) items (removeFirstMatching items predicate) := by
  unfold removeFirstMatching
  cases h : items.findIdx? fun envelope => predicate envelope.item with
  | some pos => exact removesOne_eraseIdx h
  | none =>
    refine .absent (fun c hc hp => ?_) rfl
    exact absurd hp (Bool.eq_false_iff.mp (findIdx?_eq_none_iff.mp h c hc))

theorem removesOne_or {p q : ResponseItem → Bool} :
    RemovesOne (fun item => p item ∨ q item) items
      (match items.findIdx? fun envelope => p envelope.item with
        | some pos => items.eraseIdx pos
        | none => removeFirstMatching items q) := by
  cases h : items.findIdx? fun envelope => p envelope.item with
  | some pos =>
    cases removesOne_eraseIdx h with
    | absent none _ =>
      obtain ⟨hpos, hp, -⟩ := findIdx?_eq_some_iff_getElem.mp h
      exact absurd hp (none _ (getElem_mem hpos))
    | removed before c after split holds rest =>
      exact .removed before c after split (.inl holds) rest
  | none =>
    have hnone := findIdx?_eq_none_iff.mp h
    cases removeFirstMatching_removesOne items q with
    | absent none same =>
      refine .absent (fun c hc hpq => ?_) same
      exact hpq.elim (Bool.eq_false_iff.mp (hnone c hc)) (none c hc)
    | removed before c after split holds rest =>
      exact .removed before c after split (.inr holds) rest

section corresponding
variable {item : ResponseItem} {predicate : ResponseItem → Bool} {key : CallKey}

theorem removesOne_of_call (hcall : item.call = some key)
    (h : ∀ b, predicate b ↔ b.output = some key) :
    RemovesOne (Counterparts item) items (removeFirstMatching items predicate) :=
  (removeFirstMatching_removesOne items predicate).congr fun b =>
    (h b).trans (counterparts_of_call hcall).symm

theorem removesOne_of_output (hout : item.output = some key)
    (h : ∀ b, predicate b ↔ b.call = some key) :
    RemovesOne (Counterparts item) items (removeFirstMatching items predicate) :=
  (removeFirstMatching_removesOne items predicate).congr fun b =>
    (h b).trans (counterparts_of_output hout).symm

theorem removesOne_of_unpaired (hcall : item.call = none) (hout : item.output = none) :
    RemovesOne (Counterparts item) items items := by
  refine .absent (fun c _ h => ?_) rfl
  simp [Counterparts, hcall, hout] at h

end corresponding

theorem removeCorrespondingFor_removesOne (items : List ResponseItemEnvelope)
    (item : ResponseItem) :
    RemovesOne (Counterparts item) items (removeCorrespondingFor items item) := by
  cases item with
  | functionCall _ callId =>
    exact removesOne_of_call rfl fun b => isFunctionCallOutput_iff
  | localShellCall _ callId =>
    cases callId with
    | none => exact removesOne_of_unpaired rfl rfl
    | some callId => exact removesOne_of_call rfl fun b => isFunctionCallOutput_iff
  | toolSearchCall _ callId =>
    cases callId with
    | none => exact removesOne_of_unpaired rfl rfl
    | some callId => exact removesOne_of_call rfl fun b => isToolSearchOutput_iff
  | customToolCall _ callId =>
    exact removesOne_of_call rfl fun b => isCustomToolCallOutput_iff
  | functionCallOutput _ callId =>
    cases callId with
    | none => exact removesOne_of_unpaired rfl rfl
    | some callId =>
      exact removesOne_or.congr fun b => isFunctionCall_or_isLocalShellCall_iff.trans
        (counterparts_of_output rfl).symm
  | toolSearchOutput _ callId =>
    cases callId with
    | none => exact removesOne_of_unpaired rfl rfl
    | some callId => exact removesOne_of_output rfl fun b => isToolSearchCall_iff
  | customToolCallOutput _ callId =>
    exact removesOne_of_output rfl fun b => isCustomToolCall_iff
  | other => exact removesOne_of_unpaired rfl rfl

/-- A call with its own kind, which tells local shell calls from function calls. -/
inductive CallVariant
  | functionCall
  | localShellCall
  | toolSearchCall
  | customToolCall
  deriving DecidableEq

def ResponseItem.callOfVariant : ResponseItem → Option (CallVariant × Text)
  | .functionCall _ callId _ => some (.functionCall, callId)
  | .localShellCall _ (some callId) _ => some (.localShellCall, callId)
  | .toolSearchCall _ (some callId) _ => some (.toolSearchCall, callId)
  | .customToolCall _ callId _ => some (.customToolCall, callId)
  | _ => none

/-- Call ids are unique among the calls of a kind, and the calls are in one-to-one correspondence
with the outputs that carry an id. A function call and a local shell call may share an id: then
there are two outputs with it. -/
structure Paired (items : List ResponseItemEnvelope) : Prop where
  unique : (items.filterMap (·.item.callOfVariant)).Nodup
  correspond : (callIds items).Perm (outputIds items)

theorem removeFirstItem_removesOne (first : ResponseItemEnvelope)
    (rest : List ResponseItemEnvelope) :
    RemovesOne (Counterparts first.item) rest (removeFirstItem (first :: rest)) :=
  removeCorrespondingFor_removesOne rest first.item

theorem callIds_append_cons (before after : List ResponseItemEnvelope) (c : ResponseItemEnvelope) :
    callIds (before ++ c :: after) = callIds before ++ (c.item.call.toList ++ callIds after) := by
  cases hc : c.item.call <;> simp [callIds, hc]

theorem outputIds_append_cons (before after : List ResponseItemEnvelope)
    (c : ResponseItemEnvelope) :
    outputIds (before ++ c :: after) =
      outputIds before ++ (c.item.output.toList ++ outputIds after) := by
  cases hc : c.item.output <;> simp [outputIds, hc]

theorem correspond_of_removed {first c : ResponseItemEnvelope}
    {before after : List ResponseItemEnvelope} (hc : Counterparts first.item c.item)
    (h : (callIds (first :: (before ++ c :: after))).Perm
      (outputIds (first :: (before ++ c :: after)))) :
    (callIds (before ++ after)).Perm (outputIds (before ++ after)) := by
  rw [← nil_append (first :: _), callIds_append_cons, outputIds_append_cons,
    callIds_append_cons, outputIds_append_cons] at h
  rw [callIds, outputIds, filterMap_append, filterMap_append]
  obtain ⟨key, ⟨hcall, hout⟩ | ⟨hout, hcall⟩⟩ := hc
  · rw [hcall, hout, output_eq_none_of_call hcall, call_eq_none_of_output hout] at h
    exact (h.trans perm_middle).cons_inv
  · rw [hcall, hout, output_eq_none_of_call hcall, call_eq_none_of_output hout] at h
    exact (perm_middle.symm.trans h).cons_inv

theorem correspond_of_absent {first : ResponseItemEnvelope}
    (hnone : ∀ c ∈ rest, ¬Counterparts first.item c.item)
    (h : (callIds (first :: rest)).Perm (outputIds (first :: rest))) :
    (callIds rest).Perm (outputIds rest) := by
  rw [← nil_append (first :: _), callIds_append_cons, outputIds_append_cons] at h
  cases hcall : first.item.call with
  | some key =>
    rw [hcall, output_eq_none_of_call hcall] at h
    have hmem : key ∈ outputIds rest := h.subset mem_cons_self
    obtain ⟨c, hc, hkey⟩ := mem_filterMap.mp hmem
    exact absurd ((counterparts_of_call hcall).mpr hkey) (hnone c hc)
  | none =>
    cases hout : first.item.output with
    | some key =>
      rw [hcall, hout] at h
      have hmem : key ∈ callIds rest := h.symm.subset mem_cons_self
      obtain ⟨c, hc, hkey⟩ := mem_filterMap.mp hmem
      exact absurd ((counterparts_of_output hout).mpr hkey) (hnone c hc)
    | none => rwa [hcall, hout] at h

theorem Paired.removeFirstItem (h : Paired items) : Paired (removeFirstItem items) := by
  cases items with
  | nil => exact h
  | cons first rest =>
    have hsub := (removeFirstItem_removesOne first rest).sublist.trans
      (sublist_cons_self first rest)
    refine ⟨h.unique.sublist (hsub.filterMap _), ?_⟩
    cases removeFirstItem_removesOne first rest with
    | absent none same =>
      rw [same]
      exact correspond_of_absent none h.correspond
    | removed before c after split holds same =>
      subst split
      rw [same]
      exact correspond_of_removed holds h.correspond

theorem Paired.iterate (h : Paired items) (n : Nat) :
    Paired (ContextManager.removeFirstItem^[n] items) :=
  Function.Iterate.rec Paired h (fun _ => Paired.removeFirstItem) n

theorem dropping_oldest_keeps_pairing (items : List ResponseItemEnvelope) (h : Paired items)
    (n : Nat) :
    let left := removeFirstItem^[n] items
    Paired left ∧
      ∀ first rest, left = first :: rest →
        RemovesOne (Counterparts first.item) rest (removeFirstItem left) := by
  refine ⟨h.iterate n, fun first rest hleft => ?_⟩
  rw [hleft]
  exact removeFirstItem_removesOne first rest

def sharedIdHistory : List ResponseItemEnvelope :=
  [.new (.functionCallOutput none (some "a".toList) none none aborted none),
    .new (.localShellCall none (some "a".toList) []),
    .new (.other "message".toList),
    .new (.functionCall none "a".toList []),
    .new (.functionCallOutput none (some "a".toList) none none aborted none)]

theorem dropping_oldest_keeps_pairing_shared :
    Paired sharedIdHistory ∧ Paired (removeFirstItem^[2] sharedIdHistory) ∧
      removeFirstItem^[2] sharedIdHistory = [.new (.other "message".toList)] := by
  have h : Paired sharedIdHistory := ⟨by decide +kernel, by decide +kernel⟩
  exact ⟨h, (dropping_oldest_keeps_pairing sharedIdHistory h 2).1, by decide +kernel⟩

end Codex.ContextManager

import Codex.Lib.IndexedEdit
import Codex.Lib.Text

/-! `ensure_call_outputs_present` and `remove_orphan_outputs` of
`core/src/context_manager/normalize.rs`. Where `error_or_panic` is reached the model goes on, as
release builds do. -/

namespace Codex.ContextManager
open Codex.Lib Codex.Lib.IndexedEdit List Option

inductive FunctionCallOutputBody
  | text (content : Text)
  | contentItems (unread : Text)
  deriving DecidableEq

structure FunctionCallOutputPayload where
  body : FunctionCallOutputBody
  success : Option Bool
  deriving DecidableEq

def FunctionCallOutputPayload.fromText (content : Text) : FunctionCallOutputPayload :=
  ⟨.text content, none⟩

/-- The calls and outputs among the items; `unread` is what normalisation does not look at. -/
inductive ResponseItem
  | functionCall (id : Option Text) (callId : Text) (unread : Text)
  | localShellCall (id callId : Option Text) (unread : Text)
  | toolSearchCall (id callId : Option Text) (unread : Text)
  | customToolCall (id : Option Text) (callId : Text) (unread : Text)
  | functionCallOutput (id callId name nameSpace : Option Text)
      (output : FunctionCallOutputPayload) (passthrough : Option Text)
  | toolSearchOutput (id callId : Option Text) (status execution : Text) (tools : List Text)
      (passthrough : Option Text)
  | customToolCallOutput (id : Option Text) (callId : Text) (name : Option Text)
      (output : FunctionCallOutputPayload) (passthrough : Option Text)
  | other (unread : Text)
  deriving DecidableEq

structure ResponseItemEnvelope where
  item : ResponseItem
  metadata : Option Text
  deriving DecidableEq

def ResponseItemEnvelope.new (item : ResponseItem) : ResponseItemEnvelope := ⟨item, none⟩

/-- Local shell calls share the outputs of function calls. -/
inductive CallKind
  | function
  | toolSearch
  | customTool
  deriving DecidableEq

abbrev CallKey := CallKind × Text

def ResponseItem.call : ResponseItem → Option CallKey
  | .functionCall _ callId _ => some (.function, callId)
  | .localShellCall _ (some callId) _ => some (.function, callId)
  | .toolSearchCall _ (some callId) _ => some (.toolSearch, callId)
  | .customToolCall _ callId _ => some (.customTool, callId)
  | _ => none

def ResponseItem.output : ResponseItem → Option CallKey
  | .functionCallOutput _ (some callId) _ _ _ _ => some (.function, callId)
  | .toolSearchOutput _ (some callId) _ _ _ _ => some (.toolSearch, callId)
  | .customToolCallOutput _ callId _ _ _ => some (.customTool, callId)
  | _ => none

/-- Tool searches that the server ran have no call in the history. -/
def ResponseItem.isServerToolSearchOutput : ResponseItem → Bool
  | .toolSearchOutput _ _ _ execution _ _ => execution = "server".toList
  | _ => false

variable (newV5 : Text → Text)

/-- `newV5` is `Uuid::new_v5` with the namespace for synthetic outputs. -/
def syntheticOutputId (start : String) (itemId : Option Text) : Option Text :=
  (itemId.filter (· ≠ [])).map fun sourceId =>
    start.toList ++ "_".toList ++ newV5 (start.toList ++ ":".toList ++ sourceId)

def aborted : FunctionCallOutputPayload := .fromText "aborted".toList

def syntheticOutput : ResponseItem → Option ResponseItem
  | .functionCall id callId _ =>
    some (.functionCallOutput (syntheticOutputId newV5 "fco" id) (some callId) none none aborted
      none)
  | .toolSearchCall id (some callId) _ =>
    some (.toolSearchOutput (syntheticOutputId newV5 "tso" id) (some callId) "completed".toList
      "client".toList [] none)
  | .customToolCall id callId _ =>
    some (.customToolCallOutput (syntheticOutputId newV5 "ctco" id) callId none aborted none)
  | .localShellCall id (some callId) _ =>
    some (.functionCallOutput (syntheticOutputId newV5 "fco" id) (some callId) none none aborted
      none)
  | _ => none

def callIds (items : List ResponseItemEnvelope) : List CallKey := items.filterMap (·.item.call)

def outputIds (items : List ResponseItemEnvelope) : List CallKey := items.filterMap (·.item.output)

def missingOutput (outputs : List CallKey) (e : ResponseItemEnvelope) :
    Option ResponseItemEnvelope :=
  match e.item.call with
  | some key => if key ∈ outputs then none else (syntheticOutput newV5 e.item).map .new
  | none => none

def ensureCallOutputsPresent (items : List ResponseItemEnvelope) : List ResponseItemEnvelope :=
  insertAll items (insertions (missingOutput newV5 (outputIds items)) 0 items)

def isOrphan (calls : List CallKey) (e : ResponseItemEnvelope) : Bool :=
  match e.item.output with
  | some key => !e.item.isServerToolSearchOutput && key ∉ calls
  | none => false

def removeOrphanOutputs (items : List ResponseItemEnvelope) : List ResponseItemEnvelope :=
  let orphanPositions := items.findIdxs (isOrphan (callIds items))
  if orphanPositions.isEmpty then items else retainExcept orphanPositions 0 items

def normalizeCalls (items : List ResponseItemEnvelope) : List ResponseItemEnvelope :=
  removeOrphanOutputs (ensureCallOutputsPresent newV5 items)

variable {newV5} {items : List ResponseItemEnvelope}

theorem ensureCallOutputsPresent_eq (items : List ResponseItemEnvelope) :
    ensureCallOutputsPresent newV5 items =
      items.flatMap fun e => e :: (missingOutput newV5 (outputIds items) e).toList :=
  insertAll_insertions _ items

theorem removeOrphanOutputs_eq (items : List ResponseItemEnvelope) :
    removeOrphanOutputs items = items.filter fun e => !isOrphan (callIds items) e := by
  have hretain := retainExcept_findIdxs (isOrphan (callIds items)) 0 items
  simp only [removeOrphanOutputs]
  split
  · next hempty =>
    rw [List.isEmpty_iff] at hempty
    rw [hempty] at hretain
    rw [← hretain]
    clear hretain hempty
    generalize 0 = k
    induction items generalizing k with
    | nil => rfl
    | cons e items ih => rw [retainExcept, if_neg (by simp), ← ih]
  · exact hretain

variable {key : CallKey} {e : ResponseItemEnvelope}

theorem mem_callIds : key ∈ callIds items ↔ ∃ e ∈ items, e.item.call = some key :=
  mem_filterMap

theorem mem_outputIds : key ∈ outputIds items ↔ ∃ e ∈ items, e.item.output = some key :=
  mem_filterMap

theorem syntheticOutput_spec {item answer : ResponseItem}
    (h : syntheticOutput newV5 item = some answer) :
    item.call.isSome ∧ answer.output = item.call ∧ answer.call = none ∧
      answer.isServerToolSearchOutput = false := by
  cases item with
  | functionCall id callId unread | customToolCall id callId unread =>
    obtain rfl := Option.some.inj h
    exact ⟨rfl, rfl, rfl, rfl⟩
  | localShellCall id callId unread =>
    cases callId with
    | none => exact nomatch h
    | some callId =>
      obtain rfl := Option.some.inj h
      exact ⟨rfl, rfl, rfl, rfl⟩
  | toolSearchCall id callId unread =>
    cases callId with
    | none => exact nomatch h
    | some callId =>
      obtain rfl := Option.some.inj h
      have hclient : "client".toList ≠ "server".toList := by decide
      exact ⟨rfl, rfl, rfl, decide_eq_false hclient⟩
  | functionCallOutput | toolSearchOutput | customToolCallOutput | other => exact nomatch h

theorem exists_syntheticOutput (newV5 : Text → Text) {item : ResponseItem}
    (h : item.call = some key) : ∃ answer, syntheticOutput newV5 item = some answer := by
  cases item with
  | functionCall | customToolCall => exact ⟨_, rfl⟩
  | localShellCall id callId unread | toolSearchCall id callId unread =>
    cases callId with
    | none => exact nomatch h
    | some callId => exact ⟨_, rfl⟩
  | functionCallOutput | toolSearchOutput | customToolCallOutput | other => exact nomatch h

theorem output_eq_none_of_call {item : ResponseItem} (h : item.call = some key) :
    item.output = none := by
  cases item with
  | functionCall | localShellCall | toolSearchCall | customToolCall => rfl
  | functionCallOutput | toolSearchOutput | customToolCallOutput | other => exact nomatch h

theorem missingOutput_eq_some {outputs : List CallKey} {o : ResponseItemEnvelope}
    (h : missingOutput newV5 outputs e = some o) :
    ∃ key answer, e.item.call = some key ∧ key ∉ outputs ∧
      syntheticOutput newV5 e.item = some answer ∧ o = .new answer := by
  unfold missingOutput at h
  split at h
  · next key hcall =>
    split at h
    · exact nomatch h
    · next hmissing =>
      obtain ⟨answer, hanswer, rfl⟩ := map_eq_some_iff.mp h
      exact ⟨key, answer, hcall, hmissing, hanswer, rfl⟩
  · exact nomatch h

theorem isSome_missingOutput {outputs : List CallKey} :
    (missingOutput newV5 outputs e).isSome ↔ ∃ key, e.item.call = some key ∧ key ∉ outputs := by
  constructor
  · intro h
    obtain ⟨o, ho⟩ := isSome_iff_exists.mp h
    obtain ⟨key, _, hcall, hmissing, _⟩ := missingOutput_eq_some ho
    exact ⟨key, hcall, hmissing⟩
  · rintro ⟨key, hcall, hmissing⟩
    obtain ⟨answer, hanswer⟩ := exists_syntheticOutput newV5 hcall
    simp [missingOutput, hcall, hmissing, hanswer]

theorem callIds_ensureCallOutputsPresent (items : List ResponseItemEnvelope) :
    callIds (ensureCallOutputsPresent newV5 items) = callIds items := by
  rw [ensureCallOutputsPresent_eq]
  generalize outputIds items = outputs
  induction items with
  | nil => rfl
  | cons e items ih =>
    have hanswer : callIds (missingOutput newV5 outputs e).toList = [] := by
      cases ho : missingOutput newV5 outputs e with
      | none => rfl
      | some o =>
        obtain ⟨_, answer, _, _, hsynthetic, rfl⟩ := missingOutput_eq_some ho
        have hcall := (syntheticOutput_spec hsynthetic).2.2.1
        simp [callIds, ResponseItemEnvelope.new, hcall]
    simp only [callIds] at ih hanswer ⊢
    rw [flatMap_cons, cons_append, filterMap_cons, filterMap_cons,
      filterMap_append, hanswer, nil_append, ih]

theorem isOrphan_eq_true {calls : List CallKey} :
    isOrphan calls e ↔ ∃ key, e.item.output = some key ∧
      e.item.isServerToolSearchOutput = false ∧ key ∉ calls := by
  unfold isOrphan
  split
  · next key hkey => simp [hkey]
  · next hnone => simp [hnone]

theorem not_isOrphan_missingOutput {outputs : List CallKey} {o : ResponseItemEnvelope}
    (he : e ∈ items) (h : missingOutput newV5 outputs e = some o) :
    isOrphan (callIds items) o = false := by
  obtain ⟨key, answer, hcall, _, hsynthetic, rfl⟩ := missingOutput_eq_some h
  rw [← Bool.not_eq_true, isOrphan_eq_true]
  rintro ⟨key', houtput, _, hnone⟩
  have hkey : (ResponseItemEnvelope.new answer).item.output = e.item.call :=
    (syntheticOutput_spec hsynthetic).2.1
  rw [hkey] at houtput
  exact hnone (mem_callIds.mpr ⟨e, he, houtput⟩)

theorem not_isOrphan_of_call {calls : List CallKey} (h : e.item.call = some key) :
    isOrphan calls e = false := by
  rw [isOrphan, output_eq_none_of_call h]

theorem normalizeCalls_eq (items : List ResponseItemEnvelope) :
    normalizeCalls newV5 items =
      (items.filter fun e => !isOrphan (callIds items) e).flatMap fun e =>
        e :: (missingOutput newV5 (outputIds items) e).toList := by
  rw [normalizeCalls, removeOrphanOutputs_eq, callIds_ensureCallOutputsPresent,
    ensureCallOutputsPresent_eq]
  generalize outputIds items = outputs
  have hmem : ∀ e ∈ items, ∀ o, missingOutput newV5 outputs e = some o →
      isOrphan (callIds items) o = false := fun e he o ho => not_isOrphan_missingOutput he ho
  generalize callIds items = calls at hmem ⊢
  induction items with
  | nil => rfl
  | cons e items ih =>
    have hrest := ih fun x hx => hmem x (mem_cons_of_mem _ hx)
    have hanswer : (missingOutput newV5 outputs e).toList.filter (fun o => !isOrphan calls o) =
        (missingOutput newV5 outputs e).toList := by
      rw [filter_eq_self]
      intro o ho
      rw [mem_toList] at ho
      rw [hmem e mem_cons_self o ho, Bool.not_false]
    rw [flatMap_cons, filter_append, hrest]
    cases horphan : isOrphan calls e with
    | false =>
      rw [filter_cons_of_pos (by simp [horphan]), hanswer,
        filter_cons_of_pos (by simp [horphan]), flatMap_cons]
    | true =>
      have hnone : missingOutput newV5 outputs e = none := by
        by_contra hsome
        obtain ⟨key, hcall, _⟩ := isSome_missingOutput.mp (isSome_iff_ne_none.mpr hsome)
        rw [not_isOrphan_of_call hcall] at horphan
        exact nomatch horphan
      rw [hnone, filter_cons_of_neg (by simp [horphan]), filter_cons_of_neg (by simp [horphan])]
      rfl

end Codex.ContextManager

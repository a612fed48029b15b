import Codex.Lib.FinMap
import Codex.Lib.Text
import Mathlib.Data.Fintype.Sets

/-! `merge_patch_from` and `apply_merge_patch` of `core/src/context/world_state/mod.rs`, and the
replay of world-state records in `core/src/session/rollout_reconstruction.rs`. Values are compared
as the `PartialEq` of `serde_json::Value` does, to which the order of keys is nothing. -/

namespace Codex.WorldState
open Codex.Lib List Option

/-- `serde_json::Value`. Two numbers are equal as the `PartialEq` of `Number` says. -/
inductive Value (Number : Type) where
  | null
  | bool (value : Bool)
  | number (value : Number)
  | string (value : Text)
  | array (length : Nat) (items : Fin length → Value Number)
  | object (keys : Finset Text) (vals : {k // k ∈ keys} → Value Number)

variable {Number : Type}

abbrev Map (Number : Type) := FinMap Text (Value Number)

namespace Value

def ofMap (map : Map Number) : Value Number := .object map.keys map.vals

def asObject : Value Number → Option (Map Number)
  | .object keys vals => some ⟨keys, vals⟩
  | _ => none

def isNull : Value Number → Bool
  | .null => true
  | _ => false

def decEq [DecidableEq Number] : (a b : Value Number) → Decidable (a = b)
  | .null, b => match b with
    | .null => isTrue rfl
    | .bool _ | .number _ | .string _ | .array _ _ | .object _ _ => isFalse (fun h => by cases h)
  | .bool a, b => match b with
    | .bool b => decidable_of_iff (a = b) (by simp)
    | .null | .number _ | .string _ | .array _ _ | .object _ _ => isFalse (fun h => by cases h)
  | .number a, b => match b with
    | .number b => decidable_of_iff (a = b) (by simp)
    | .null | .bool _ | .string _ | .array _ _ | .object _ _ => isFalse (fun h => by cases h)
  | .string a, b => match b with
    | .string b => decidable_of_iff (a = b) (by simp)
    | .null | .bool _ | .number _ | .array _ _ | .object _ _ => isFalse (fun h => by cases h)
  | .array n xs, b => match b with
    | .array m ys =>
      if h : n = m then
        have : DecidablePred fun i : Fin n => xs i = ys (i.cast h) := fun i => decEq (xs i) _
        decidable_of_iff (∀ i, xs i = ys (i.cast h)) (by
          subst h
          simp [funext_iff])
      else isFalse fun heq => h (by cases heq; rfl)
    | .null | .bool _ | .number _ | .string _ | .object _ _ => isFalse (fun h => by cases h)
  | .object keys vals, b => match b with
    | .object keys' vals' =>
      if h : keys = keys' then
        have : DecidablePred fun k : {k // k ∈ keys} => vals k = vals' ⟨k, h ▸ k.2⟩ :=
          fun k => decEq (vals k) _
        decidable_of_iff (∀ k : {k // k ∈ keys}, vals k = vals' ⟨k, h ▸ k.2⟩) (by
          subst h
          simp [funext_iff])
      else isFalse fun heq => h (by cases heq; rfl)
    | .null | .bool _ | .number _ | .string _ | .array _ _ => isFalse (fun h => by cases h)

instance [DecidableEq Number] : DecidableEq (Value Number) := decEq

end Value

def removeNullObjectFields : Value Number → Value Number
  | .object keys vals =>
    .ofMap (.ofFun keys fun key =>
      if h : key ∈ keys then
        if (vals ⟨key, h⟩).isNull then none else some (removeNullObjectFields (vals ⟨key, h⟩))
      else none)
  | value => value

def applyMergePatchValue : Value Number → Value Number → Value Number
  | target, .object keys vals =>
    -- a value that is no object is replaced by an empty one
    let target := target.asObject.getD .empty
    .ofMap (.ofFun (target.keys ∪ keys) fun key =>
      if h : key ∈ keys then
        if (vals ⟨key, h⟩).isNull then none
        else
          match target.get? key with
          | some current => some (applyMergePatchValue current (vals ⟨key, h⟩))
          | none => some (applyMergePatchValue .null (vals ⟨key, h⟩))
      else target.get? key)
  | _, patch => patch

section

variable [DecidableEq Number]

def createMergePatch : Value Number → Value Number → Option (Value Number)
  | previous, .object keys vals =>
    if previous = .object keys vals then none
    else
      let previous := previous.asObject.getD .empty
      some (.ofMap (.ofFun (previous.keys ∪ keys) fun key =>
        if h : key ∈ keys then
          match previous.get? key with
          | none => some (vals ⟨key, h⟩)
          | some previousValue => createMergePatch previousValue (vals ⟨key, h⟩)
        else some .null))
  | previous, current => if previous = current then none else some current

end

structure WorldStateSnapshot (Number : Type) where
  sections : Map Number

namespace WorldStateSnapshot

def mergePatchFrom [DecidableEq Number] (self previous : WorldStateSnapshot Number) :
    Option (Map Number) :=
  let patch := FinMap.ofFun (previous.sections.keys ∪ self.sections.keys) fun key =>
    match self.sections.get? key with
    | none => some .null
    | some current =>
      match previous.sections.get? key with
      | some previous => createMergePatch previous current
      | none => some current
  if patch.keys = ∅ then none else some patch

def applyMergePatch (self : WorldStateSnapshot Number) (patch : Map Number) :
    WorldStateSnapshot Number where
  sections := .ofFun (self.sections.keys ∪ patch.keys) fun key =>
    match patch.get? key with
    | none => self.sections.get? key
    | some value =>
      if value.isNull then none
      else
        match self.sections.get? key with
        | some current => some (applyMergePatchValue current value)
        | none => some (applyMergePatchValue .null value)

end WorldStateSnapshot

def patchEntry [DecidableEq Number] (previous current : Option (Value Number)) :
    Option (Value Number) :=
  match current with
  | none => previous.map fun _ => .null
  | some current =>
    match previous with
    | some previous => createMergePatch previous current
    | none => some current

def applyEntry (target patch : Option (Value Number)) : Option (Value Number) :=
  match patch with
  | none => target
  | some value =>
    if value.isNull then none else some (applyMergePatchValue (target.getD .null) value)

theorem get?_applyMergePatch (self : WorldStateSnapshot Number) (patch : Map Number) (key : Text) :
    (self.applyMergePatch patch).sections.get? key =
      applyEntry (self.sections.get? key) (patch.get? key) := by
  rw [WorldStateSnapshot.applyMergePatch, FinMap.get?_ofFun_union]
  · cases patch.get? key with
    | none => rfl
    | some value => cases self.sections.get? key <;> rfl
  · intro hself hpatch
    rw [hpatch]
    exact hself

theorem applyMergePatchValue_ofMap (target : Value Number) (patch : Map Number) :
    ∃ result : Map Number, applyMergePatchValue target (.ofMap patch) = .ofMap result ∧
      ∀ key, result.get? key =
        applyEntry ((target.asObject.getD .empty).get? key) (patch.get? key) := by
  refine ⟨_, rfl, fun key => ?_⟩
  rw [FinMap.get?_ofFun_union (n := patch)]
  · by_cases hkey : key ∈ patch.keys
    · rw [dif_pos hkey, FinMap.get?_of_mem hkey, applyEntry]
      cases (target.asObject.getD .empty).get? key <;> rfl
    · rw [dif_neg hkey, FinMap.get?_eq_none_iff.mpr hkey]
      rfl
  · intro htarget hpatch
    rw [dif_neg (FinMap.get?_eq_none_iff.mp hpatch), htarget]

/-- No object outside of arrays has `null` in a field. -/
def HasNoNullFields : Value Number → Prop
  | .object _ vals => ∀ key, (vals key).isNull = false ∧ HasNoNullFields (vals key)
  | _ => True

theorem hasNoNullFields_ofMap {map : Map Number} :
    HasNoNullFields (.ofMap map) ↔
      ∀ key, ∀ value ∈ map.get? key, value.isNull = false ∧ HasNoNullFields value := by
  constructor
  · intro h key value hvalue
    rw [mem_def, FinMap.get?] at hvalue
    split at hvalue
    · cases hvalue
      exact h _
    · cases hvalue
  · intro h key
    exact h key _ (FinMap.get?_of_mem key.2)

theorem hasNoNullFields_ofFun {keys : Finset Text} {f : Text → Option (Value Number)}
    (h : ∀ key ∈ keys, ∀ value ∈ f key, value.isNull = false ∧ HasNoNullFields value) :
    HasNoNullFields (.ofMap (.ofFun keys f)) := by
  refine hasNoNullFields_ofMap.mpr fun key value hvalue => ?_
  rw [mem_def, FinMap.get?_ofFun] at hvalue
  split at hvalue
  case isTrue hkey => exact h key hkey value hvalue
  case isFalse => cases hvalue

theorem isNull_removeNullObjectFields {value : Value Number} (h : value.isNull = false) :
    (removeNullObjectFields value).isNull = false := by
  cases value with
  | null => cases h
  | _ => rfl

theorem hasNoNullFields_removeNullObjectFields (value : Value Number) :
    HasNoNullFields (removeNullObjectFields value) := by
  induction value with
  | object keys vals ih =>
    refine hasNoNullFields_ofFun fun key hkey value hvalue => ?_
    rw [mem_def, dif_pos hkey] at hvalue
    split at hvalue
    · cases hvalue
    case isFalse hnull =>
      cases hvalue
      exact ⟨isNull_removeNullObjectFields (Bool.eq_false_of_not_eq_true hnull), ih ⟨key, hkey⟩⟩
  | _ => trivial

theorem applyMergePatchValue_of_asObject_eq_none {target value : Value Number}
    (htarget : target.asObject = none) (hvalue : HasNoNullFields value) :
    applyMergePatchValue target value = value := by
  induction value generalizing target with
  | object keys vals ih =>
    obtain ⟨result, hresult, hget⟩ := applyMergePatchValue_ofMap target ⟨keys, vals⟩
    have hsame : result = ⟨keys, vals⟩ := by
      refine FinMap.ext_get? fun key => ?_
      rw [hget, htarget, getD_none, FinMap.get?_empty]
      by_cases hkey : key ∈ keys
      · obtain ⟨hnull, hfields⟩ := hvalue ⟨key, hkey⟩
        rw [FinMap.get?_of_mem hkey, applyEntry, hnull, if_neg Bool.false_ne_true,
          getD_none, ih ⟨key, hkey⟩ rfl hfields]
      · rw [FinMap.get?_eq_none_iff.mpr hkey]
        rfl
    exact hresult.trans (congrArg _ hsame)
  | _ => rfl

section

variable [DecidableEq Number] {previous current : Value Number}

theorem createMergePatch_eq_none_iff :
    createMergePatch previous current = none ↔ previous = current := by
  cases current <;> simp [createMergePatch]

theorem createMergePatch_of_asObject_eq_none (h : current.asObject = none) :
    createMergePatch previous current = if previous = current then none else some current := by
  cases current with
  | object keys vals => cases h
  | _ => rfl

theorem createMergePatch_ofMap {current : Map Number} (h : previous ≠ .ofMap current) :
    ∃ patch : Map Number, createMergePatch previous (.ofMap current) = some (.ofMap patch) ∧
      ∀ key, patch.get? key =
        patchEntry ((previous.asObject.getD .empty).get? key) (current.get? key) := by
  refine ⟨_, if_neg h, fun key => ?_⟩
  rw [FinMap.get?_ofFun]
  by_cases hkey : key ∈ current.keys
  · rw [if_pos (Finset.mem_union_right _ hkey), dif_pos hkey, FinMap.get?_of_mem hkey]
    cases (previous.asObject.getD .empty).get? key <;> rfl
  · rw [dif_neg hkey, FinMap.get?_eq_none_iff.mpr hkey, patchEntry]
    by_cases hprevious : key ∈ (previous.asObject.getD .empty).keys
    · rw [if_pos (Finset.mem_union_left _ hprevious), FinMap.get?_of_mem hprevious]
      rfl
    · rw [if_neg (by simp [hkey, hprevious]), FinMap.get?_eq_none_iff.mpr hprevious]
      rfl

theorem isNull_of_createMergePatch {patch : Value Number}
    (h : createMergePatch previous current = some patch) (hcurrent : current.isNull = false) :
    patch.isNull = false := by
  cases hobject : current.asObject with
  | none =>
    rw [createMergePatch_of_asObject_eq_none hobject] at h
    split at h
    · cases h
    · cases h
      exact hcurrent
  | some map =>
    cases current with
    | object keys vals =>
      rw [createMergePatch] at h
      split at h
      · cases h
      · cases h
        rfl
    | _ => cases hobject

theorem applyEntry_patchEntry {previous current : Option (Value Number)}
    (hnull : ∀ value ∈ current, value.isNull = false ∧ HasNoNullFields value)
    (hreplay : ∀ value ∈ current, ∀ before patch, createMergePatch before value = some patch →
      applyMergePatchValue before patch = value) :
    applyEntry previous (patchEntry previous current) = current := by
  cases current with
  | none => cases previous <;> rfl
  | some value =>
    obtain ⟨hvalue, hfields⟩ := hnull value rfl
    cases previous with
    | none =>
      have hcopy : applyMergePatchValue .null value = value :=
        applyMergePatchValue_of_asObject_eq_none rfl hfields
      simp [patchEntry, applyEntry, hvalue, hcopy]
    | some before =>
      cases hpatch : createMergePatch before value with
      | none =>
        rw [patchEntry, hpatch, createMergePatch_eq_none_iff.mp hpatch]
        rfl
      | some patch =>
        have hkept := isNull_of_createMergePatch hpatch hvalue
        simp [patchEntry, hpatch, applyEntry, hkept, hreplay value rfl before patch hpatch]

theorem applyMergePatchValue_createMergePatch (h : HasNoNullFields current) {patch : Value Number}
    (hpatch : createMergePatch previous current = some patch) :
    applyMergePatchValue previous patch = current := by
  induction current generalizing previous patch with
  | object keys vals ih =>
    have hne : previous ≠ .ofMap ⟨keys, vals⟩ := by
      intro heq
      have hnone := createMergePatch_eq_none_iff.mpr heq
      exact absurd hnone (ne_none_iff_exists'.mpr ⟨_, hpatch⟩)
    obtain ⟨map, hmap, hentry⟩ := createMergePatch_ofMap hne
    obtain rfl : patch = .ofMap map := Option.some.inj (hpatch.symm.trans hmap)
    obtain ⟨result, hresult, hget⟩ := applyMergePatchValue_ofMap previous map
    have hfields : HasNoNullFields (.ofMap ⟨keys, vals⟩) := h
    have hsame : result = ⟨keys, vals⟩ := by
      refine FinMap.ext_get? fun key => ?_
      rw [hget, hentry]
      refine applyEntry_patchEntry (hasNoNullFields_ofMap.mp hfields key) ?_
      intro value hvalue before patch hpatch
      rw [mem_def, FinMap.get?] at hvalue
      split at hvalue
      case isTrue hkey =>
        cases hvalue
        exact ih ⟨key, hkey⟩ (h ⟨key, hkey⟩).2 hpatch
      case isFalse => cases hvalue
    exact hresult.trans (congrArg _ hsame)
  | _ =>
    rw [createMergePatch_of_asObject_eq_none rfl] at hpatch
    split at hpatch
    · cases hpatch
    · cases hpatch
      rfl

end

namespace WorldStateSnapshot

/-- The sections are the fields of one object. -/
def HasNoNullFields (self : WorldStateSnapshot Number) : Prop :=
  WorldState.HasNoNullFields (.ofMap self.sections)

variable [DecidableEq Number]

def patches :
    WorldStateSnapshot Number → List (WorldStateSnapshot Number) → List (Option (Map Number))
  | _, [] => []
  | previous, current :: later => current.mergePatchFrom previous :: patches current later

omit [DecidableEq Number] in
def applyPatches (self : WorldStateSnapshot Number) (patches : List (Option (Map Number))) :
    WorldStateSnapshot Number :=
  patches.foldl (fun self patch => patch.elim self self.applyMergePatch) self

theorem exists_mergePatchFrom (self previous : WorldStateSnapshot Number) :
    ∃ patch : Map Number,
      self.mergePatchFrom previous = (if patch.keys = ∅ then none else some patch) ∧
      ∀ key, patch.get? key = patchEntry (previous.sections.get? key) (self.sections.get? key) := by
  refine ⟨_, rfl, fun key => ?_⟩
  rw [FinMap.get?_ofFun]
  cases hself : self.sections.get? key with
  | none =>
    rw [FinMap.get?_eq_none_iff] at hself
    cases hprevious : previous.sections.get? key with
    | none =>
      rw [FinMap.get?_eq_none_iff] at hprevious
      rw [if_neg (by simp [hself, hprevious])]
      rfl
    | some value =>
      have hkey : key ∈ previous.sections.keys :=
        FinMap.isSome_get?.mp (isSome_of_eq_some hprevious)
      rw [if_pos (Finset.mem_union_left _ hkey)]
      rfl
  | some value =>
    have hkey : key ∈ self.sections.keys :=
      FinMap.isSome_get?.mp (isSome_of_eq_some hself)
    rw [if_pos (Finset.mem_union_right _ hkey)]
    cases previous.sections.get? key <;> rfl

theorem patchEntry_eq_none_iff {previous current : Option (Value Number)} :
    patchEntry previous current = none ↔ previous = current := by
  cases current with
  | none => simp [patchEntry]
  | some current =>
    cases previous with
    | none => simp [patchEntry]
    | some previous => simp [patchEntry, createMergePatch_eq_none_iff]

theorem mergePatchFrom_eq_none_iff {self previous : WorldStateSnapshot Number} :
    self.mergePatchFrom previous = none ↔ previous = self := by
  obtain ⟨patch, hpatch, hentry⟩ := exists_mergePatchFrom self previous
  have hempty : patch.keys = ∅ ↔ ∀ key, patch.get? key = none := by
    simp [Finset.eq_empty_iff_forall_notMem, FinMap.get?_eq_none_iff]
  rw [hpatch, ite_eq_left_iff]
  simp only [reduceCtorEq, imp_false, not_not]
  rw [hempty]
  simp only [hentry, patchEntry_eq_none_iff]
  constructor
  · intro h
    obtain ⟨sections⟩ := previous
    obtain ⟨sections'⟩ := self
    exact congrArg _ (FinMap.ext_get? h)
  · rintro rfl key
    rfl

theorem applyMergePatch_mergePatchFrom {self previous : WorldStateSnapshot Number}
    (h : self.HasNoNullFields) {patch : Map Number}
    (hpatch : self.mergePatchFrom previous = some patch) :
    previous.applyMergePatch patch = self := by
  obtain ⟨patch', hpatch', hentry⟩ := exists_mergePatchFrom self previous
  obtain rfl : patch' = patch := by
    rw [hpatch', ite_eq_iff] at hpatch
    rcases hpatch with ⟨-, hnone⟩ | ⟨-, hsome⟩
    · cases hnone
    · exact Option.some.inj hsome
  have hsections : (previous.applyMergePatch patch').sections = self.sections := by
    refine FinMap.ext_get? fun key => ?_
    have hfields := hasNoNullFields_ofMap.mp h key
    rw [get?_applyMergePatch, hentry]
    exact applyEntry_patchEntry hfields fun value hvalue before patch =>
      applyMergePatchValue_createMergePatch (hfields value hvalue).2
  obtain ⟨sections⟩ := self
  exact congrArg _ hsections

theorem applyPatches_patches {first : WorldStateSnapshot Number}
    {later : List (WorldStateSnapshot Number)} (h : ∀ s ∈ later, s.HasNoNullFields) :
    first.applyPatches (patches first later) = later.getLast?.getD first := by
  induction later generalizing first with
  | nil => rfl
  | cons current later ih =>
    have hstep : (current.mergePatchFrom first).elim first first.applyMergePatch = current := by
      cases hpatch : current.mergePatchFrom first with
      | none => exact mergePatchFrom_eq_none_iff.mp hpatch
      | some patch => exact applyMergePatch_mergePatchFrom (h current mem_cons_self) hpatch
    rw [patches, applyPatches, foldl_cons, hstep]
    rw [getLast?_cons, getD_some]
    exact ih fun s hs => h s (mem_cons_of_mem _ hs)

/-- Patches from each snapshot to the next, applied one after the other, lead to the last one, and
there is no patch exactly between equal ones. -/
theorem patches_replay_exactly (first : WorldStateSnapshot Number)
    (later : List (WorldStateSnapshot Number)) (h : ∀ s ∈ first :: later, s.HasNoNullFields) :
    first.applyPatches (patches first later) = later.getLast?.getD first ∧
      ∀ previous ∈ first :: later, ∀ current ∈ first :: later,
        current.mergePatchFrom previous = none ↔ current = previous := by
  refine ⟨applyPatches_patches fun s hs => h s (mem_cons_of_mem _ hs), ?_⟩
  intro previous _ current _
  rw [mergePatchFrom_eq_none_iff, eq_comm]

theorem patches_replay_exactly_nested :
    let first : WorldStateSnapshot Nat := ⟨.ofFun {['a']} fun _ => some (.number 1)⟩
    let inner : Value Nat := .ofMap (.ofFun {['x']} fun _ => some (.bool true))
    let second : WorldStateSnapshot Nat := ⟨.ofFun {['a'], ['b']} fun _ => some inner⟩
    first.applyPatches (patches first [second, first]) = first := by
  intro first inner second
  have hfirst : first.HasNoNullFields :=
    hasNoNullFields_ofFun fun _ _ _ hvalue => Option.some.inj hvalue ▸ ⟨rfl, trivial⟩
  have hinner : WorldState.HasNoNullFields inner :=
    hasNoNullFields_ofFun fun _ _ _ hvalue => Option.some.inj hvalue ▸ ⟨rfl, trivial⟩
  have hsecond : second.HasNoNullFields :=
    hasNoNullFields_ofFun fun _ _ _ hvalue => Option.some.inj hvalue ▸ ⟨rfl, hinner⟩
  exact (patches_replay_exactly first [second, first] (by simp [hfirst, hsecond])).1

end WorldStateSnapshot

inductive WorldStateRecord (Number : Type) where
  | compacted
  | worldState (full : Bool) (state : Map Number)

/-- A round of the replay in `reconstruct_history_from_rollout`. A patch without a full snapshot
before it is ignored. -/
def replayRecord (baseline : Option (WorldStateSnapshot Number)) :
    WorldStateRecord Number → Option (WorldStateSnapshot Number)
  | .compacted => none
  | .worldState full state =>
    if full then some ⟨state⟩ else baseline.map (·.applyMergePatch state)

end Codex.WorldState

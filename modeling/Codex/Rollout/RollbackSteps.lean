import Codex.Rollout.History
import Mathlib.Logic.Function.Iterate

/-! `drop_last_n_user_turns` of `core/src/context_manager/history.rs` with the baseline that it may
clear. Dropping `n` turns at once looks at the messages before the oldest of them only. -/

namespace Codex.Rollout
open Codex.Lib Codex.Lib.LastMarked List Option

structure History where
  items : List ResponseItemEnvelope
  referenceContextItem : Option TurnContextItem
  deriving DecidableEq

def isContextualDevFragment : ContentItem → Bool
  | .inputText text => hasContextualPrefix contextualDeveloperPrefixes text
  | _ => false

def hasNonContextualDevMessageContent (content : List ContentItem) : Bool :=
  content.any (!isContextualDevFragment ·)

/-- A contextual developer message that has other content too. -/
def isMixedBundle : ResponseItem → Bool
  | .message role content _ _ =>
    role = "developer".toList &&
      anyInputText (hasContextualPrefix contextualDeveloperPrefixes) content &&
      hasNonContextualDevMessageContent content
  | _ => false

namespace History

def trimPreTurnContextUpdates (r : Rules) (snapshot : List ResponseItemEnvelope)
    (firstInstructionTurn : Nat) :
    Nat → Option TurnContextItem → Nat × Option TurnContextItem
  | 0, reference => (0, reference)
  | cut + 1, reference =>
    if firstInstructionTurn < cut + 1 then
      match snapshot[cut]?.map ResponseItemEnvelope.item with
      | some (.message role content _ _) =>
        if role = "developer".toList &&
            anyInputText (hasContextualPrefix contextualDeveloperPrefixes) content then
          trimPreTurnContextUpdates r snapshot firstInstructionTurn cut
            (if hasNonContextualDevMessageContent content then none else reference)
        else if role = "user".toList && isContextualUserMessageContent r content then
          trimPreTurnContextUpdates r snapshot firstInstructionTurn cut reference
        else (cut + 1, reference)
      | _ => (cut + 1, reference)
    else (cut + 1, reference)

def dropLastNUserTurns (r : Rules) (numTurns : Nat) (self : History) : History :=
  if numTurns = 0 then self
  else match cutAt (isUserTurnBoundary r ·.item) self.items numTurns with
    | none => self
    | some (first, cut) =>
      let (cut, reference) := trimPreTurnContextUpdates r self.items first cut
        self.referenceContextItem
      let items :=
        match if cut = first then self.items[first]?.bind (·.item.turnId) else none with
        | some firstTurnId => (self.items.take cut).filterMap (withoutModelInstructions firstTurnId)
        | none => self.items.take cut
      ⟨items, reference⟩

end History

variable {r : Rules}

def clearedBy (trimmed : List ResponseItemEnvelope) (reference : Option TurnContextItem) :
    Option TurnContextItem :=
  if trimmed.any (isMixedBundle ·.item) then none else reference

variable {reference : Option TurnContextItem}

theorem clearedBy_concat (trimmed : List ResponseItemEnvelope) (e : ResponseItemEnvelope) :
    clearedBy (trimmed ++ [e]) reference = clearedBy trimmed (clearedBy [e] reference) := by
  simp only [clearedBy, any_append, any_cons, any_nil, Bool.or_false]
  cases trimmed.any (isMixedBundle ·.item) <;> cases isMixedBundle e.item <;> rfl

variable (n : Nat) (snapshot : List ResponseItemEnvelope)

open History

theorem trimPreTurnContextUpdates_succ (first cut : Nat) :
    trimPreTurnContextUpdates r snapshot first (cut + 1) reference =
      if first < cut + 1 ∧ snapshot[cut]?.any (isTrimmed r ·.item) then
        trimPreTurnContextUpdates r snapshot first cut (clearedBy (snapshot[cut]?.toList) reference)
      else (cut + 1, reference) := by
  rw [trimPreTurnContextUpdates]
  by_cases hfirst : first < cut + 1
  · rw [if_pos hfirst]
    cases hget : snapshot[cut]? with
    | none => simp
    | some e =>
      obtain ⟨item, metadata⟩ := e
      cases item with
      | message role content passthrough unread =>
        simp only [map_some, any_some, toList_some, clearedBy, isMixedBundle,
          isTrimmed, any_cons, any_nil, Bool.or_false, hfirst, true_and]
        generalize decide (role = "developer".toList) = developer
        generalize decide (role = "user".toList) = user
        generalize anyInputText (hasContextualPrefix contextualDeveloperPrefixes) content = context
        generalize isContextualUserMessageContent r content = contextual
        cases developer <;> cases context <;> cases user <;> cases contextual <;> rfl
      | _ => simp [isTrimmed]
  · rw [if_neg hfirst, if_neg fun h => hfirst h.1]

theorem trimPreTurnContextUpdates_fst (first cut : Nat) (reference : Option TurnContextItem) :
    (trimPreTurnContextUpdates r snapshot first cut reference).1 =
      trimBack (isTrimmed r ·.item) snapshot first cut := by
  induction cut generalizing reference with
  | zero => rfl
  | succ cut ih =>
    rw [trimPreTurnContextUpdates_succ, trimBack]
    split
    · exact ih _
    · rfl

theorem trimPreTurnContextUpdates_eq (first cut : Nat) (hcut : cut ≤ snapshot.length) :
    trimPreTurnContextUpdates r snapshot first cut reference =
      (trimBack (isTrimmed r ·.item) snapshot first cut,
        clearedBy ((snapshot.take cut).drop (trimBack (isTrimmed r ·.item) snapshot first cut))
          reference) := by
  induction cut generalizing reference with
  | zero => rfl
  | succ cut ih =>
    rw [trimPreTurnContextUpdates_succ, trimBack]
    split
    · next htrimmed =>
      obtain ⟨e, he, -⟩ := (any_eq_true _ _).mp htrimmed.2
      have hle := trimBack_le (isTrimmed r ·.item) snapshot first cut
      rw [ih (by omega), he, take_add_one, he, drop_append_of_le_length,
        toList_some, clearedBy_concat]
      rw [length_take]
      omega
    · rw [drop_eq_nil_of_le (by rw [length_take]; omega)]
      rfl

def cutBefore (r : Rules) (older : List ResponseItemEnvelope) (next : ResponseItemEnvelope)
    (reference : Option TurnContextItem) : History :=
  if boundaries r older = 0 then
    match next.item.turnId with
    | some firstTurnId => ⟨older.filterMap (withoutModelInstructions firstTurnId), reference⟩
    | none => ⟨older, reference⟩
  else
    ⟨older.rdropWhile (isTrimmed r ·.item),
      clearedBy (older.rtakeWhile (isTrimmed r ·.item)) reference⟩

theorem dropLastNUserTurns_eq_cutBefore {older newer : List ResponseItemEnvelope}
    {next : ResponseItemEnvelope} {n : Nat} (hnext : isUserTurnBoundary r next.item)
    (hn : boundaries r newer + 1 = n ∨ boundaries r older = 0 ∧ boundaries r newer + 1 ≤ n)
    (reference : Option TurnContextItem) :
    History.dropLastNUserTurns r n ⟨older ++ next :: newer, reference⟩ =
      cutBefore r older next reference := by
  obtain ⟨first, hcut, hnone, hsome⟩ :=
    cutAt_append (p := fun e : ResponseItemEnvelope => isUserTurnBoundary r e.item) hnext hn
  have hzero : n ≠ 0 := by omega
  have hlength : older.length ≤ (older ++ next :: newer).length := by
    rw [length_append]
    omega
  rw [History.dropLastNUserTurns, if_neg hzero, hcut, cutBefore]
  simp only [trimPreTurnContextUpdates_eq _ first _ hlength]
  by_cases hold : boundaries r older = 0
  · obtain rfl := hnone hold
    rw [if_pos hold]
    simp only [trimBack_self, if_true, getElem?_append_right le_rfl, Nat.sub_self,
      getElem?_cons_zero, bind_some, take_left', drop_length]
    cases next.item.turnId <;> rfl
  · have hlt := hsome hold
    have hmarked : older[first]?.any (isTrimmed r ·.item) = false := by
      have hboundary := marked_first_cutAt hcut
      rw [getElem?_append_left hlt, getElem?_eq_getElem hlt, any_some] at hboundary
      rw [getElem?_eq_getElem hlt, any_some, ← Bool.not_eq_true]
      intro htrimmed
      rw [not_isUserTurnBoundary_of_isTrimmed htrimmed] at hboundary
      cases hboundary
    have hmarked' : (older ++ next :: newer)[first]?.any (isTrimmed r ·.item) = false := by
      rwa [getElem?_append_left hlt]
    have htrim := trimBack_eq_length_rdropWhile hlt hmarked'
    have hkept := lt_length_rdropWhile hlt hmarked
    have hle := (List.rdropWhile_prefix (isTrimmed r ·.item) older).length_le
    rw [if_neg hold, htrim, if_neg hkept.ne']
    simp only [take_append_of_le_length hle, take_length_rdropWhile, take_left',
      drop_length_rdropWhile]

def mixedAbove (r : Rules) (older : List ResponseItemEnvelope) : Bool :=
  boundaries r older ≠ 0 && (older.rtakeWhile (isTrimmed r ·.item)).any (isMixedBundle ·.item)

theorem cutBefore_reference (older : List ResponseItemEnvelope) (next : ResponseItemEnvelope) :
    (cutBefore r older next reference).referenceContextItem =
      if mixedAbove r older then none else reference := by
  rw [cutBefore, mixedAbove]
  by_cases hold : boundaries r older = 0
  · rw [if_pos hold]
    cases next.item.turnId <;> simp [hold]
  · rw [if_neg hold]
    simp [hold, clearedBy]

theorem cutBefore_items (older : List ResponseItemEnvelope) (next : ResponseItemEnvelope)
    (reference reference' : Option TurnContextItem) :
    (cutBefore r older next reference).items = (cutBefore r older next reference').items := by
  rw [cutBefore, cutBefore]
  split
  · cases next.item.turnId <;> rfl
  · rfl

variable {items : List ResponseItemEnvelope}

theorem dropLastNUserTurns_of_no_boundary (h : boundaries r items = 0) (n : Nat) :
    History.dropLastNUserTurns r n ⟨items, reference⟩ = ⟨items, reference⟩ := by
  have hcut :
      cutAt (fun e : ResponseItemEnvelope => isUserTurnBoundary r e.item) items n = none :=
    cutAt_eq_none_iff.mpr (filter_eq_nil_iff.mpr (countP_eq_zero.mp h))
  rw [History.dropLastNUserTurns, hcut]
  exact ite_self _

theorem boundaries_split (older newer : List ResponseItemEnvelope) {next : ResponseItemEnvelope}
    (hnext : isUserTurnBoundary r next.item) :
    boundaries r (older ++ next :: newer) = boundaries r older + boundaries r newer + 1 := by
  rw [boundaries, countP_append, countP_cons, if_pos hnext]
  rfl

theorem exists_split_boundaries {n : Nat} (h : n < boundaries r items) :
    ∃ older next newer, items = older ++ next :: newer ∧
      isUserTurnBoundary r next.item ∧ boundaries r newer = n :=
  exists_split_countP items h

theorem dropOne_dropLastNUserTurns {older newer : List ResponseItemEnvelope}
    {next : ResponseItemEnvelope} (hnext : isUserTurnBoundary r next.item)
    (reference reference' : Option TurnContextItem) :
    History.dropLastNUserTurns r 1 ⟨(History.dropLastNUserTurns r (boundaries r newer)
        ⟨older ++ next :: newer, reference⟩).items, reference'⟩ =
      cutBefore r older next reference' := by
  cases hcount : boundaries r newer with
  | zero => exact dropLastNUserTurns_eq_cutBefore hnext (.inl (by omega)) reference'
  | succ n =>
    -- the oldest of the `n + 1` turns, with nothing marked between it and `next`
    obtain ⟨between, next', newer', rfl, hnext', hcount'⟩ :=
      exists_split_boundaries (n := n) (by omega : n < boundaries r newer)
    have hbetween : boundaries r between = 0 := by
      rw [boundaries_split between newer' hnext'] at hcount
      omega
    have hfirst : boundaries r (older ++ next :: between) ≠ 0 := by
      rw [boundaries_split older between hnext]
      omega
    have hkept : isTrimmed r next.item = false := by
      rw [← Bool.not_eq_true]
      intro htrimmed
      rw [not_isUserTurnBoundary_of_isTrimmed htrimmed] at hnext
      cases hnext
    have hrest : boundaries r (between.rdropWhile (isTrimmed r ·.item)) = 0 :=
      Nat.le_zero.mp (hbetween ▸ (List.rdropWhile_prefix _ between).sublist.countP_le)
    have hnewest : boundaries r newer' + 1 = n + 1 ∨
        boundaries r (older ++ next :: between) = 0 ∧ boundaries r newer' + 1 ≤ n + 1 :=
      .inl (by omega)
    rw [← cons_append, ← append_assoc,
      dropLastNUserTurns_eq_cutBefore hnext' hnewest, cutBefore, if_neg hfirst]
    have hitems : (older ++ next :: between).rdropWhile (isTrimmed r ·.item) =
        older ++ next :: between.rdropWhile (isTrimmed r ·.item) :=
      rdropWhile_append_cons (q := fun e : ResponseItemEnvelope => isTrimmed r e.item) hkept older
        between
    have hone : boundaries r (between.rdropWhile (isTrimmed r ·.item)) + 1 = 1 := by rw [hrest]
    simp only [hitems]
    exact dropLastNUserTurns_eq_cutBefore hnext (.inl hone) reference'

theorem items_dropLastNUserTurns (items : List ResponseItemEnvelope)
    (reference : Option TurnContextItem) :
    (History.dropLastNUserTurns r n ⟨items, reference⟩).items = dropLastNUserTurns r n items := by
  rw [History.dropLastNUserTurns, dropLastNUserTurns]
  split
  · rfl
  · cases hcut : cutAt (isUserTurnBoundary r ·.item) items n with
    | none => rfl
    | some cut =>
      obtain ⟨first, cut⟩ := cut
      have htrim := trimPreTurnContextUpdates_fst (r := r) items first cut reference
      dsimp only
      generalize (History.trimPreTurnContextUpdates r items first cut reference).1 = kept at htrim ⊢
      subst htrim
      rfl

theorem boundaries_dropLastNUserTurns {n : Nat} (h : boundaries r items ≤ n) :
    boundaries r (History.dropLastNUserTurns r n ⟨items, reference⟩).items = 0 := by
  rw [items_dropLastNUserTurns, boundaries, countP_eq_length_filter, filter_dropLastNUserTurns,
    ← countP_eq_length_filter, length_eq_zero_iff]
  rw [boundaries] at h
  rw [Nat.sub_eq_zero_of_le h, take_zero]

theorem dropLastNUserTurns_succ_of_le {n : Nat} (h : boundaries r items ≤ n) :
    History.dropLastNUserTurns r (n + 1) ⟨items, reference⟩ =
      History.dropLastNUserTurns r n ⟨items, reference⟩ := by
  by_cases hnone : boundaries r items = 0
  · rw [dropLastNUserTurns_of_no_boundary hnone, dropLastNUserTurns_of_no_boundary hnone]
  · obtain ⟨older, next, newer, rfl, hnext, hcount⟩ :=
      exists_split_boundaries (Nat.sub_lt (Nat.pos_of_ne_zero hnone) Nat.one_pos)
    rw [boundaries_split older newer hnext] at h hcount
    rw [dropLastNUserTurns_eq_cutBefore hnext (.inr ⟨by omega, by omega⟩),
      dropLastNUserTurns_eq_cutBefore hnext (.inr ⟨by omega, by omega⟩)]

/-- Of the newest `n` turns, one has a mixed bundle right above it. -/
def DropsMixed (r : Rules) (n : Nat) (items : List ResponseItemEnvelope) : Prop :=
  ∃ older next newer, items = older ++ next :: newer ∧ isUserTurnBoundary r next.item = true ∧
    boundaries r newer < n ∧ mixedAbove r older = true

/-- The `n`-th newest turn has a mixed bundle right above it. -/
def CutsAtMixed (r : Rules) (n : Nat) (items : List ResponseItemEnvelope) : Prop :=
  ∃ older next newer, items = older ++ next :: newer ∧ isUserTurnBoundary r next.item = true ∧
    boundaries r newer + 1 = n ∧ mixedAbove r older = true

section Split
variable {older newer : List ResponseItemEnvelope} {next : ResponseItemEnvelope}

theorem cutsAtMixed_split (hnext : isUserTurnBoundary r next.item) :
    CutsAtMixed r (boundaries r newer + 1) (older ++ next :: newer) ↔
      mixedAbove r older := by
  constructor
  · rintro ⟨older', next', newer', heq, hnext', hcount, hmixed⟩
    rwa [older_eq_of_countP_eq (p := fun e : ResponseItemEnvelope => isUserTurnBoundary r e.item)
      heq hnext hnext' (Nat.succ.inj hcount).symm]
  · intro hmixed
    exact ⟨older, next, newer, rfl, hnext, rfl, hmixed⟩

theorem dropsMixed_split (hnext : isUserTurnBoundary r next.item) :
    DropsMixed r (boundaries r newer + 1) (older ++ next :: newer) ↔
      mixedAbove r older ∨ DropsMixed r (boundaries r newer) (older ++ next :: newer) := by
  rw [← cutsAtMixed_split hnext]
  constructor
  · rintro ⟨older', next', newer', heq, hnext', hcount, hmixed⟩
    rcases Nat.lt_succ_iff_lt_or_eq.mp hcount with hlt | hsame
    · exact .inr ⟨older', next', newer', heq, hnext', hlt, hmixed⟩
    · exact .inl ⟨older', next', newer', heq, hnext', congrArg (· + 1) hsame, hmixed⟩
  · rintro (⟨older', next', newer', heq, hnext', hcount, hmixed⟩ |
      ⟨older', next', newer', heq, hnext', hcount, hmixed⟩)
    · exact ⟨older', next', newer', heq, hnext', by omega, hmixed⟩
    · exact ⟨older', next', newer', heq, hnext', by omega, hmixed⟩

end Split

theorem dropsMixed_succ_of_le {n : Nat} (h : boundaries r items ≤ n) :
    DropsMixed r (n + 1) items ↔ DropsMixed r n items := by
  constructor
  · rintro ⟨older, next, newer, rfl, hnext, -, hmixed⟩
    rw [boundaries_split older newer hnext] at h
    exact ⟨older, next, newer, rfl, hnext, by omega, hmixed⟩
  · rintro ⟨older, next, newer, heq, hnext, hcount, hmixed⟩
    exact ⟨older, next, newer, heq, hnext, by omega, hmixed⟩

open Classical in
theorem reference_dropLastNUserTurns (items : List ResponseItemEnvelope) :
    (History.dropLastNUserTurns r n ⟨items, reference⟩).referenceContextItem =
      if CutsAtMixed r n items then none else reference := by
  cases n with
  | zero =>
    rw [if_neg]
    · rfl
    · rintro ⟨-, -, newer, -, -, hcount, -⟩
      exact absurd hcount (Nat.succ_ne_zero _)
  | succ n =>
    by_cases hlt : n < boundaries r items
    · obtain ⟨older, next, newer, rfl, hnext, rfl⟩ := exists_split_boundaries hlt
      rw [dropLastNUserTurns_eq_cutBefore hnext (.inl rfl), cutBefore_reference]
      exact if_congr (cutsAtMixed_split hnext).symm rfl rfl
    · rw [if_neg]
      · by_cases hnone : boundaries r items = 0
        · rw [dropLastNUserTurns_of_no_boundary hnone]
        · obtain ⟨older, next, newer, rfl, hnext, hcount⟩ :=
            exists_split_boundaries (Nat.sub_lt (Nat.pos_of_ne_zero hnone) Nat.one_pos)
          rw [boundaries_split older newer hnext] at hlt hcount
          have hfirst : boundaries r older = 0 := by omega
          rw [dropLastNUserTurns_eq_cutBefore hnext (.inr ⟨hfirst, by omega⟩), cutBefore_reference,
            if_neg]
          simp [mixedAbove, hfirst]
      · rintro ⟨older, next, newer, rfl, hnext, hcount, -⟩
        rw [boundaries_split older newer hnext] at hlt
        omega

open Classical in
theorem iterate_dropOne (items : List ResponseItemEnvelope) :
    (History.dropLastNUserTurns r 1)^[n] ⟨items, reference⟩ =
      ⟨(History.dropLastNUserTurns r n ⟨items, reference⟩).items,
        if DropsMixed r n items then none else reference⟩ := by
  induction n with
  | zero =>
    rw [if_neg]
    · rfl
    · rintro ⟨-, -, newer, -, -, hcount, -⟩
      exact absurd hcount (Nat.not_lt_zero _)
  | succ n ih =>
    rw [Function.iterate_succ_apply', ih]
    by_cases hlt : n < boundaries r items
    · obtain ⟨older, next, newer, rfl, hnext, rfl⟩ := exists_split_boundaries hlt
      rw [dropOne_dropLastNUserTurns hnext, dropLastNUserTurns_eq_cutBefore hnext (.inl rfl)]
      have hreference := @cutBefore_reference r
        (if DropsMixed r (boundaries r newer) (older ++ next :: newer) then none else reference)
        older next
      rw [← ite_or, ← if_congr (dropsMixed_split hnext) rfl rfl] at hreference
      rw [← hreference, cutBefore_items older next reference]
    · have hle := not_lt.mp hlt
      rw [dropLastNUserTurns_of_no_boundary (boundaries_dropLastNUserTurns hle),
        dropLastNUserTurns_succ_of_le hle, if_congr (dropsMixed_succ_of_le hle) rfl rfl]

theorem dropsMixed_of_cutsAtMixed {n : Nat} (h : CutsAtMixed r n items) : DropsMixed r n items := by
  obtain ⟨older, next, newer, heq, hnext, hcount, hmixed⟩ := h
  exact ⟨older, next, newer, heq, hnext, by omega, hmixed⟩

/-- The items are the same, and so is the baseline if there was none or if the oldest turn has a
mixed bundle right above it whenever one of the dropped turns has. -/
theorem rollback_composes_iff (r : Rules) (n : Nat) (history : History) :
    let once := history.dropLastNUserTurns r n
    let stepwise := (History.dropLastNUserTurns r 1)^[n] history
    once.items = stepwise.items ∧
      (once.referenceContextItem = stepwise.referenceContextItem ↔
        history.referenceContextItem = none ∨
          (DropsMixed r n history.items → CutsAtMixed r n history.items)) := by
  classical
  obtain ⟨items, reference⟩ := history
  intro once stepwise
  have hstepwise : stepwise = _ := iterate_dropOne n items
  have honce : once.referenceContextItem = _ := reference_dropLastNUserTurns n items
  rw [honce, hstepwise]
  refine ⟨rfl, ?_⟩
  by_cases hcut : CutsAtMixed r n items
  · rw [if_pos hcut, if_pos (dropsMixed_of_cutsAtMixed hcut)]
    exact iff_of_true rfl (.inr fun _ => hcut)
  · rw [if_neg hcut]
    by_cases hdrops : DropsMixed r n items
    · rw [if_pos hdrops]
      exact ⟨.inl, fun h => h.resolve_right fun himplies => hcut (himplies hdrops)⟩
    · rw [if_neg hdrops]
      exact iff_of_true rfl (.inr fun h => absurd h hdrops)

def mixedBundle : ResponseItemEnvelope :=
  ⟨.message "developer".toList
    [.inputText "<model_switch>".toList, .inputText "be brief".toList] none [], none⟩

/-- The bundle stands above the newest turn. Two turns at once take it away with the baseline left
as it was, and one by one they clear the baseline. -/
theorem rollback_keeps_stale_baseline :
    let history : History :=
      ⟨[plainMessage "user" "one", plainMessage "user" "two", mixedBundle,
        plainMessage "user" "three"], some ⟨some "1".toList, "model".toList, none, none, none, []⟩⟩
    history.dropLastNUserTurns plainRules 2 =
        ⟨[plainMessage "user" "one"], history.referenceContextItem⟩ ∧
      (History.dropLastNUserTurns plainRules 1)^[2] history =
        ⟨[plainMessage "user" "one"], none⟩ := by
  decide +kernel

end Codex.Rollout

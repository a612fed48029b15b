import Codex.Permissions.Rules

/-! A writable rule protects the directories with certain names right below its root, unless a
writable rule inside such a directory opens it again. Of several protected directories over a path
only the first one is judged, in the order of the rules. -/

namespace Codex.Permissions.Rule
open List

variable {α : Type} [DecidableEq α]

def directoryOver (names p root : List α) : Option (List α) :=
  names.findSome? fun name => if root ++ [name] <+: p then some (root ++ [name]) else none

def firstDirectory (rules : List (Rule α)) (names p : List α) : Option (List α) :=
  (rules.filter fun r => r.access.canWrite).findSome? fun r => directoryOver names p r.root

def Reopened (rules : List (Rule α)) (p directory : List α) : Prop :=
  ∃ r ∈ rules, r.access.canWrite = true ∧ r.root <+: p ∧ directory <+: r.root

def MetadataDenied (rules : List (Rule α)) (names p : List α) : Prop :=
  ∃ directory, firstDirectory rules names p = some directory ∧ ¬ Reopened rules p directory

def Opens (rules : List (Rule α)) (names p : List α) : Prop :=
  resolve rules p = .write ∧ ¬ MetadataDenied rules names p

variable {rules : List (Rule α)} {names p q w directory : List α} {r d : Rule α}

theorem directoryOver_eq_some_iff {root : List α} :
    directoryOver names p root = some directory ↔
      ∃ name ∈ names, directory = root ++ [name] ∧ directory <+: p := by
  have hsome : ∀ {found}, directoryOver names p root = some found →
      ∃ name ∈ names, found = root ++ [name] ∧ found <+: p := by
    intro found h
    obtain ⟨name, hname, hfound⟩ := exists_of_findSome?_eq_some h
    split at hfound
    · next hover =>
      rw [← Option.some.inj hfound]
      exact ⟨name, hname, rfl, hover⟩
    · exact nomatch hfound
  refine ⟨hsome, ?_⟩
  rintro ⟨name, hname, rfl, hover⟩
  cases hfound : directoryOver names p root with
  | none =>
    have hnone := findSome?_eq_none_iff.mp hfound name hname
    rw [if_pos hover] at hnone
    exact nomatch hnone
  | some found =>
    -- Only one name follows the root in the path.
    obtain ⟨other, _, rfl, hother⟩ := hsome hfound
    have hsame := prefix_of_prefix_length_le hother hover (by simp)
    rw [hsame.eq_of_length (by simp)]

theorem firstDirectory_spec (h : firstDirectory rules names p = some directory) :
    ∃ r ∈ rules, r.access.canWrite ∧
      ∃ name ∈ names, directory = r.root ++ [name] ∧ directory <+: p := by
  obtain ⟨r, hr, hover⟩ := exists_of_findSome?_eq_some h
  obtain ⟨hmem, hwrite⟩ := mem_filter.mp hr
  exact ⟨r, hmem, hwrite, directoryOver_eq_some_iff.mp hover⟩

theorem firstDirectory_of_between (h : firstDirectory rules names p = some directory)
    (hdirectory : directory <+: q) (hq : q <+: p) :
    firstDirectory rules names q = some directory := by
  obtain ⟨before, r, after, hsplit, hr, hbefore⟩ := findSome?_eq_some_iff.mp h
  refine findSome?_eq_some_iff.mpr ⟨before, r, after, hsplit, ?_, fun s hs => ?_⟩
  · obtain ⟨name, hname, heq, _⟩ := directoryOver_eq_some_iff.mp hr
    exact directoryOver_eq_some_iff.mpr ⟨name, hname, heq, hdirectory⟩
  · cases hover : directoryOver names q s.root with
    | none => rfl
    | some found =>
      obtain ⟨name, hname, heq, hfound⟩ := directoryOver_eq_some_iff.mp hover
      have hsome := directoryOver_eq_some_iff.mpr ⟨name, hname, heq, hfound.trans hq⟩
      rw [hbefore s hs] at hsome
      exact nomatch hsome

omit [DecidableEq α] in
theorem not_reopened_above (h : ¬ Reopened rules p directory) (hq : q <+: p) :
    ¬ Reopened rules q directory := by
  rintro ⟨r, hr, hwrite, hover, hinside⟩
  exact h ⟨r, hr, hwrite, hover.trans hq, hinside⟩

theorem metadataDenied_of_between (h : firstDirectory rules names p = some directory)
    (hreopened : ¬ Reopened rules p directory) (hdirectory : directory <+: q) (hq : q <+: p) :
    MetadataDenied rules names q :=
  ⟨directory, firstDirectory_of_between h hdirectory hq, not_reopened_above hreopened hq⟩

theorem reopened_of_not_denied (hq : ¬ MetadataDenied rules names q)
    (h : firstDirectory rules names p = some directory) (hdirectory : directory <+: q)
    (hover : q <+: p) : Reopened rules p directory := by
  by_contra hreopened
  exact hq (metadataDenied_of_between h hreopened hdirectory hover)

omit [DecidableEq α] in
theorem Decides.root_over (h : Decides rules p d) (hr : r ∈ rules) (hover : r.root <+: p) :
    r.root <+: d.root := by
  apply prefix_of_prefix_length_le hover h.covers
  have hkey := (key_le_iff r d).mp (h.max r hr hover)
  omega

theorem not_denied_at_root (hr : r ∈ rules) (hwrite : r.access.canWrite) :
    ¬ MetadataDenied rules names r.root := by
  rintro ⟨directory, hfirst, hreopened⟩
  obtain ⟨_, _, _, _, _, _, hover⟩ := firstDirectory_spec hfirst
  exact hreopened ⟨r, hr, hwrite, prefix_rfl, hover⟩

theorem Decides.opens_root (h : Decides rules p d) (hwrite : d.access = .write) :
    Opens rules names d.root := by
  have hd : Decides rules d.root d := h.of_between prefix_rfl h.covers
  refine ⟨hd.resolve_eq.trans hwrite, not_denied_at_root h.mem ?_⟩
  rw [hwrite]
  rfl

def IsWritableRoot (rules : List (Rule α)) (names w : List α) : Prop :=
  ⟨w, .write⟩ ∈ rules ∧ Opens rules names w

def Carves (rules : List (Rule α)) (names w x : List α) : Prop :=
  (∃ r ∈ rules, r.root = x ∧ r.access ≠ .write) ∧ ¬ Opens rules names x ∧ w <+: x ∧ w ≠ x ∧
    ∀ name ∈ names, x ≠ w ++ [name]

structure OpenedBy (rules : List (Rule α)) (names w p : List α) : Prop where
  isRoot : IsWritableRoot rules names w
  covers : w <+: p
  deepest : ∀ v, IsWritableRoot rules names v → v <+: p → v <+: w
  uncarved : ∀ x, Carves rules names w x → ¬ x <+: p
  unprotected : ∀ name ∈ names, w ++ [name] <+: p → Opens rules names (w ++ [name])

theorem firstDirectory_ne_none (h : firstDirectory rules names q = some directory)
    (hq : q <+: p) : firstDirectory rules names p ≠ none := by
  intro hnone
  obtain ⟨r, hr, hwrite, name, hname, heq, hover⟩ := firstDirectory_spec h
  have hover' := directoryOver_eq_some_iff.mpr ⟨name, hname, heq, hover.trans hq⟩
  have hmem : r ∈ rules.filter fun r => r.access.canWrite := mem_filter.mpr ⟨hr, hwrite⟩
  rw [findSome?_eq_none_iff.mp hnone r hmem] at hover'
  exact nomatch hover'

theorem Decides.denied_of_between (h : Decides rules p d) (hd : d.root <+: q)
    (hlt : d.root.length < q.length) (hq : q <+: p) (hdenied : MetadataDenied rules names q) :
    MetadataDenied rules names p := by
  obtain ⟨directory, hfirst, hreopened⟩ := hdenied
  obtain ⟨found, hfound⟩ := Option.ne_none_iff_exists'.mp (firstDirectory_ne_none hfirst hq)
  -- The directory belongs to a rule at or above the deciding one, so it is at or above `q`.
  obtain ⟨r, hr, _, name, _, heq, hover⟩ := firstDirectory_spec hfound
  have hroot : r.root <+: d.root :=
    h.root_over hr ((prefix_append r.root [name]).trans (heq ▸ hover))
  have hlength : found.length ≤ q.length := by
    have hle := hroot.length_le
    rw [heq, length_append, length_singleton]
    omega
  have hfound' := firstDirectory_of_between hfound (prefix_of_prefix_length_le hover hq hlength) hq
  rw [hfirst, Option.some.injEq] at hfound'
  subst hfound'
  refine ⟨directory, hfound, ?_⟩
  rintro ⟨x, hx, hwrite, hover, hinside⟩
  exact hreopened ⟨x, hx, hwrite, (h.root_over hx hover).trans hd, hinside⟩

theorem openedBy_of_opens (h : Opens rules names p) : ∃ w, OpenedBy rules names w p := by
  obtain ⟨hwrite, hdenied⟩ := h
  obtain ⟨d, hd, hresolve⟩ | ⟨_, hdeny⟩ := resolve_cases rules p
  · have haccess : d.access = .write := hresolve.symm.trans hwrite
    refine ⟨d.root, ⟨?_, hd.opens_root haccess⟩, hd.covers, ?_, ?_, ?_⟩
    · rw [← haccess]
      exact hd.mem
    · rintro v ⟨hv, _⟩ hover
      exact hd.root_over hv hover
    · rintro x ⟨⟨r, hr, rfl, _⟩, _, hbelow, hne, _⟩ hover
      exact hne (hbelow.eq_of_length (le_antisymm hbelow.length_le
        (hd.root_over hr hover).length_le))
    · intro name _ hover
      have hbelow : d.root <+: d.root ++ [name] := prefix_append _ _
      refine ⟨(hd.of_between hbelow hover).resolve_eq.trans haccess, fun hname => hdenied ?_⟩
      exact hd.denied_of_between hbelow (by simp) hover hname
  · rw [hdeny] at hwrite
    exact nomatch hwrite

theorem OpenedBy.decides (h : OpenedBy rules names w p) :
    ∃ d, Decides rules p d ∧ d.root = w ∧ d.access = .write := by
  obtain ⟨d, hd, _⟩ := exists_decides h.isRoot.1 h.covers
  have hbelow : w <+: d.root := hd.root_over h.isRoot.1 h.covers
  have haccess : d.access = .write := by
    by_contra hne
    have hclosed : ¬ Opens rules names d.root := by
      intro hopens
      exact hne ((hd.of_between prefix_rfl hd.covers).resolve_eq.symm.trans hopens.1)
    by_cases heq : w = d.root
    · exact hclosed (heq ▸ h.isRoot.2)
    · by_cases hname : ∀ name ∈ names, d.root ≠ w ++ [name]
      · exact h.uncarved d.root ⟨⟨d, hd.mem, rfl, hne⟩, hclosed, hbelow, heq, hname⟩ hd.covers
      · simp only [not_forall, not_not, exists_prop] at hname
        obtain ⟨name, hmem, hroot⟩ := hname
        rw [hroot] at hclosed
        exact hclosed (h.unprotected name hmem (hroot ▸ hd.covers))
  refine ⟨d, hd, ?_, haccess⟩
  have hroot : IsWritableRoot rules names d.root := ⟨haccess ▸ hd.mem, hd.opens_root haccess⟩
  exact (h.deepest d.root hroot hd.covers).eq_of_length
    (le_antisymm (h.deepest d.root hroot hd.covers).length_le hbelow.length_le)

theorem OpenedBy.opens (h : OpenedBy rules names w p) : Opens rules names p := by
  obtain ⟨d, hd, rfl, haccess⟩ := h.decides
  refine ⟨hd.resolve_eq.trans haccess, ?_⟩
  rintro ⟨directory, hfirst, hreopened⟩
  obtain ⟨r, hr, _, name, hname, heq, hover⟩ := firstDirectory_spec hfirst
  have hroot : r.root <+: d.root :=
    hd.root_over hr ((prefix_append r.root [name]).trans (heq ▸ hover))
  by_cases hsame : r.root = d.root
  · rw [hsame] at heq
    subst heq
    exact (h.unprotected name hname hover).2
      (metadataDenied_of_between hfirst hreopened prefix_rfl hover)
  · -- The directory is over the root, and the rule there opens it.
    have hlength : directory.length ≤ d.root.length := by
      have hlt := lt_of_le_of_ne hroot.length_le fun hlen => hsame (hroot.eq_of_length hlen)
      rw [heq, length_append, length_singleton]
      exact hlt
    apply hreopened
    refine ⟨d, hd.mem, ?_, hd.covers, prefix_of_prefix_length_le hover hd.covers hlength⟩
    rw [haccess]
    rfl

theorem opens_iff : Opens rules names p ↔ ∃ w, OpenedBy rules names w p :=
  ⟨openedBy_of_opens, fun ⟨_, h⟩ => h.opens⟩

/-- The writable roots above a path, what is carved out of each and the names protected below it
determine whether the rules permit writing there. -/
theorem opens_congr {rules' : List (Rule α)}
    (hroots : ∀ w, w <+: p → (IsWritableRoot rules names w ↔ IsWritableRoot rules' names w))
    (hcarves : ∀ w x, x <+: p → IsWritableRoot rules names w →
      (Carves rules names w x ↔ Carves rules' names w x))
    (hnames : ∀ w, IsWritableRoot rules names w → ∀ name ∈ names, w ++ [name] <+: p →
      (Opens rules names (w ++ [name]) ↔ Opens rules' names (w ++ [name]))) :
    Opens rules names p ↔ Opens rules' names p := by
  rw [opens_iff, opens_iff]
  refine exists_congr fun w => ⟨fun h => ?_, fun h => ?_⟩
  · refine ⟨(hroots w h.covers).mp h.isRoot, h.covers, ?_, ?_, ?_⟩
    · exact fun v hv hover => h.deepest v ((hroots v hover).mpr hv) hover
    · exact fun x hx hover => h.uncarved x ((hcarves w x hover h.isRoot).mpr hx) hover
    · exact fun name hname hover =>
        (hnames w h.isRoot name hname hover).mp (h.unprotected name hname hover)
  · have hroot := (hroots w h.covers).mpr h.isRoot
    refine ⟨hroot, h.covers, ?_, ?_, ?_⟩
    · exact fun v hv hover => h.deepest v ((hroots v hover).mp hv) hover
    · exact fun x hx hover => h.uncarved x ((hcarves w x hover hroot).mp hx) hover
    · exact fun name hname hover =>
        (hnames w hroot name hname hover).mpr (h.unprotected name hname hover)

end Codex.Permissions.Rule

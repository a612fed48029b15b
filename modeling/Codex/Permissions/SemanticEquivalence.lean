import Codex.Permissions.HostEntries

/-! Two policies with the same `semantic_signature` permit the same at a path, if nothing denies
them as a whole and the host resolves their entries above the path as the URIs say. -/

namespace Codex.Permissions
open Codex.Lib FileSystemSandboxPolicy Rule List FileSystemAccessMode

theorem mem_dedupRuns {α : Type} [DecidableEq α] {a : α} {l : List α} :
    a ∈ dedupRuns l ↔ a ∈ l := by
  induction l using dedupRuns.induct with
  | case1 => rfl
  | case2 => rfl
  | case3 b rest ih =>
    rw [dedupRuns, if_pos rfl, ih]
    simp
  | case4 b c rest hne ih => rw [dedupRuns, if_neg hne, mem_cons, ih, ← mem_cons]

theorem mem_sortedAbsolutePaths {paths : List AbsolutePathBuf} {p : AbsolutePathBuf} :
    p ∈ sortedAbsolutePaths paths ↔ p ∈ paths :=
  mem_mergeSort

theorem mem_iff_of_sorted_eq {paths paths' : List AbsolutePathBuf}
    (h : sortedAbsolutePaths paths = sortedAbsolutePaths paths') (p : AbsolutePathBuf) :
    p ∈ paths ↔ p ∈ paths' := by
  rw [← mem_sortedAbsolutePaths, h, mem_sortedAbsolutePaths]

structure SameRoot (v w : WritableRoot) : Prop where
  root : v.root = w.root
  subpaths : ∀ p, p ∈ v.readOnlySubpaths ↔ p ∈ w.readOnlySubpaths
  names : ∀ name, name ∈ v.protectedMetadataNames ↔ name ∈ w.protectedMetadataNames

theorem exists_sameRoot {vs ws : List WritableRoot}
    (h : sortedWritableRoots vs = sortedWritableRoots ws) {v : WritableRoot} (hv : v ∈ vs) :
    ∃ w ∈ ws, SameRoot v w := by
  have hmem : ∀ {u : WritableRoot}, u ∈ sortedWritableRoots vs ↔ u ∈ sortedWritableRoots ws := by
    rw [h]
  simp only [sortedWritableRoots, mem_mergeSort, mem_map] at hmem
  obtain ⟨w, hw, heq⟩ := hmem.mp ⟨v, hv, rfl⟩
  simp only [WritableRoot.mk.injEq] at heq
  refine ⟨w, hw, heq.1.symm, fun p => ?_, fun name => ?_⟩
  · rw [← mem_sortedAbsolutePaths, ← heq.2.1, mem_sortedAbsolutePaths]
  · have hname : name ∈ dedupRuns (v.protectedMetadataNames.mergeSort fun a b => a ≤ b) ↔
        name ∈ dedupRuns (w.protectedMetadataNames.mergeSort fun a b => a ≤ b) := by
      rw [heq.2.2]
    rwa [mem_dedupRuns, mem_dedupRuns, mem_mergeSort, mem_mergeSort] at hname

section Rules
variable {α : Type} [DecidableEq α] {rules rules' : List (Rule α)}

def IsReadableRoot (rules : List (Rule α)) (x : List α) : Prop :=
  (∃ r ∈ rules, r.root = x ∧ r.access ≠ .deny) ∧ resolve rules x ≠ .deny

theorem resolve_of_deny {x : List α} (h : ⟨x, .deny⟩ ∈ rules) : resolve rules x = .deny := by
  obtain ⟨d, hd, hresolve⟩ := exists_decides h prefix_rfl
  have hkey : x.length < d.root.length ∨ (x.length = d.root.length ∧ 2 ≤ d.access.precedence) :=
    (key_le_iff _ d).mp (hd.max _ h prefix_rfl)
  have hlength : d.root.length ≤ x.length := hd.covers.length_le
  rw [hresolve]
  cases haccess : d.access with
  | deny => rfl
  | read =>
    rw [haccess, precedence] at hkey
    omega
  | write =>
    rw [haccess, precedence] at hkey
    omega

theorem readable_of_roots {p : List α}
    (hread : ∀ x, x <+: p → IsReadableRoot rules x → IsReadableRoot rules' x)
    (hdeny : ∀ x, x <+: p → x ≠ [] → ⟨x, .deny⟩ ∈ rules' → ⟨x, .deny⟩ ∈ rules)
    (h : resolve rules p ≠ .deny) : resolve rules' p ≠ .deny := by
  obtain ⟨d, hd, hresolve⟩ | ⟨_, hnone⟩ := resolve_cases rules p
  · rw [hresolve] at h
    have hroot : resolve rules d.root = d.access := (hd.of_between prefix_rfl hd.covers).resolve_eq
    obtain ⟨⟨r, hr, hrroot, _⟩, hopen⟩ := hread d.root hd.covers
      ⟨⟨d, hd.mem, rfl, h⟩, hroot ▸ h⟩
    obtain ⟨e, he, hresolve'⟩ := exists_decides hr (hrroot ▸ hd.covers)
    have hbelow : d.root <+: e.root := hrroot ▸ he.root_over hr (hrroot ▸ hd.covers)
    rw [hresolve']
    intro hedeny
    by_cases heq : d.root = e.root
    · rw [heq, (he.of_between prefix_rfl he.covers).resolve_eq] at hopen
      exact hopen hedeny
    · have hne : e.root ≠ [] := by
        intro hnil
        rw [hnil] at hbelow heq
        exact heq (prefix_nil.mp hbelow)
      have hmem : ⟨e.root, .deny⟩ ∈ rules := hdeny e.root he.covers hne (hedeny ▸ he.mem)
      have habove : e.root <+: d.root := hd.root_over (r := ⟨e.root, .deny⟩) hmem he.covers
      exact heq (hbelow.eq_of_length (le_antisymm hbelow.length_le habove.length_le))
  · exact absurd hnone h

end Rules

variable {host : LocalHost} {cwd : AbsolutePathBuf}

/-- Nothing denies the policy as a whole, and its entries above the path are resolved alike. -/
structure IsSettled (host : LocalHost) (cwd : AbsolutePathBuf)
    (entries : List FileSystemSandboxEntry) (path : List Bytes) : Prop where
  ordinary : cwd.IsOrdinary host.encodeComponent
  unambiguous : ¬ hasAmbiguous entries (host.context cwd)
  alike : AlikeAbove host cwd entries path

section Reading
variable (hplain : host.IsPlain)

include hplain in
theorem mem_getReadableRootsWithCwd {entries : List FileSystemSandboxEntry} {p : AbsolutePathBuf} :
    p ∈ (restricted entries).getReadableRootsWithCwd host cwd ↔
      (restricted entries).hasFullDiskReadAccess = false ∧
        ∃ entry ∈ (restricted entries).resolvedEntriesWithCwd host cwd, entry.access ≠ .deny ∧
          (restricted entries).localAccess host cwd entry.path ≠ .deny ∧ entry.path = p := by
  rw [getReadableRootsWithCwd]
  cases (restricted entries).hasFullDiskReadAccess with
  | true => simp
  | false =>
    simp [LocalHost.mem_dedupAbsolutePaths hplain, canRead, and_assoc]

include hplain in
theorem mem_getUnreadableRootsWithCwd {entries : List FileSystemSandboxEntry}
    {p : AbsolutePathBuf} :
    p ∈ (restricted entries).getUnreadableRootsWithCwd host cwd ↔
      ⟨p, .deny⟩ ∈ (restricted entries).resolvedEntriesWithCwd host cwd ∧
        (restricted entries).localAccess host cwd p = .deny ∧ p ≠ AbsolutePathBuf.root := by
  rw [getUnreadableRootsWithCwd, if_neg (by simp [restricted])]
  simp only [LocalHost.mem_dedupAbsolutePaths hplain, mem_map, mem_filter,
    Bool.and_eq_true, decide_eq_true_eq, Bool.not_eq_true', canRead,
    decide_eq_false_iff_not, not_not]
  constructor
  · rintro ⟨⟨path, access⟩, ⟨hmem, ⟨rfl, hdeny⟩, hne⟩, rfl⟩
    exact ⟨hmem, hdeny, hne⟩
  · rintro ⟨hmem, hdeny, hne⟩
    exact ⟨⟨p, .deny⟩, ⟨hmem, ⟨rfl, hdeny⟩, hne⟩, rfl⟩

variable {entries entries' : List FileSystemSandboxEntry}

include hplain in
theorem readable_of_equivalent {p : List Bytes} (hleft : IsSettled host cwd entries p)
    (hright : IsSettled host cwd entries' p)
    (hread : ∀ p, p ∈ (restricted entries).getReadableRootsWithCwd host cwd →
      p ∈ (restricted entries').getReadableRootsWithCwd host cwd)
    (hdeny : ∀ p, p ∈ (restricted entries').getUnreadableRootsWithCwd host cwd →
      p ∈ (restricted entries).getUnreadableRootsWithCwd host cwd)
    (hfull : (restricted entries).hasFullDiskReadAccess = false)
    (h : resolve (rulesOf (host.context cwd) entries) p ≠ .deny) :
    resolve (rulesOf (host.context cwd) entries') p ≠ .deny := by
  refine readable_of_roots ?_ ?_ h
  · rintro x hx ⟨⟨r, hr, rfl, haccess⟩, hopen⟩
    obtain ⟨entry, hentry, hordinary, rfl⟩ := (hleft.alike r hx).mp hr
    have hmem := hread entry.path ((mem_getReadableRootsWithCwd hplain).mpr
      ⟨hfull, entry, hentry, haccess, ?_, rfl⟩)
    · obtain ⟨_, other, hother, haccess', hopen', heq⟩ :=
        (mem_getReadableRootsWithCwd hplain).mp hmem
      rw [heq, localAccess_eq hright.ordinary hright.unambiguous hordinary] at hopen'
      have hrule := (hright.alike ⟨entry.path.components, other.access⟩ hx).mpr
        ⟨other, hother, heq ▸ hordinary, by rw [heq]⟩
      exact ⟨⟨_, hrule, rfl, haccess'⟩, hopen'⟩
    · rwa [localAccess_eq hleft.ordinary hleft.unambiguous hordinary]
  · intro x hover hne hx
    obtain ⟨entry, hentry, hordinary, heq⟩ := (hright.alike _ hover).mp hx
    obtain ⟨rfl, haccess⟩ := Rule.mk.inj heq
    have hmem := hdeny entry.path ((mem_getUnreadableRootsWithCwd hplain).mpr ⟨?_, ?_, ?_⟩)
    · exact (hleft.alike _ hover).mpr
        ⟨_, ((mem_getUnreadableRootsWithCwd hplain).mp hmem).1, hordinary, rfl⟩
    · rw [haccess]
      exact hentry
    · rw [localAccess_eq hright.ordinary hright.unambiguous hordinary, resolve_of_deny hx]
    · rintro hroot
      rw [hroot] at hne
      exact hne rfl

end Reading

section Writing
variable (hkept : KeepsMetadataNames host.crates) {entries : List FileSystemSandboxEntry}
  {p : List Bytes} (hsettled : IsSettled host cwd entries p)
  (hfull : (restricted entries).hasFullDiskWriteAccess = false)

def IsLocalRoot (host : LocalHost) (cwd : AbsolutePathBuf) (entries : List FileSystemSandboxEntry)
    (root : AbsolutePathBuf) : Prop :=
  ⟨root, .write⟩ ∈ (restricted entries).resolvedEntriesWithCwd host cwd ∧
    (restricted entries).canWriteLocalPath host cwd root = true

include hkept hsettled hfull in
theorem isWritableRoot_iff {w : List Bytes} (hw : w <+: p) :
    IsWritableRoot (rulesOf (host.context cwd) entries) metadataNames w ↔
      ∃ root, IsLocalRoot host cwd entries root ∧ root.components = w := by
  have hopens := canWriteLocalPath_iff hsettled.ordinary hsettled.unambiguous hkept hfull
  constructor
  · rintro ⟨hmem, hopen⟩
    obtain ⟨⟨root, access⟩, hentry, hordinary, heq⟩ := (hsettled.alike _ hw).mp hmem
    obtain ⟨rfl, rfl⟩ := Rule.mk.inj heq
    exact ⟨root, ⟨hentry, (hopens root).mpr ⟨hordinary, hopen⟩⟩, rfl⟩
  · rintro ⟨root, ⟨hentry, hopen⟩, rfl⟩
    obtain ⟨hordinary, hopen⟩ := (hopens root).mp hopen
    exact ⟨(hsettled.alike _ hw).mpr ⟨_, hentry, hordinary, rfl⟩, hopen⟩

include hkept hsettled hfull in
theorem opens_name_iff (hplain : host.IsPlain) {root : AbsolutePathBuf}
    (h : root.IsOrdinary host.encodeComponent) {name : Text}
    (hname : name ∈ protectedMetadataPathNames) :
    Opens (rulesOf (host.context cwd) entries) metadataNames (root.components ++ [name.bytes]) ↔
      name ∉ ((restricted entries).writableRootAt host cwd root).protectedMetadataNames := by
  have hopens := canWriteLocalPath_iff hsettled.ordinary hsettled.unambiguous hkept hfull
    (host.join root name.bytes)
  rw [mem_protectedMetadataNames hplain, ← LocalHost.components_join_name hname root]
  rw [and_iff_right (h.join host.decode_encodeComponent (isPlainName_of_mem hkept hname).notDrive
    (LocalHost.components_join_name hname root))] at hopens
  rw [← hopens, not_and, Bool.not_eq_false]
  exact ⟨fun h _ => h, fun h => h hname⟩

include hkept hsettled hfull in
theorem carves_iff (hplain : host.IsPlain) {root : AbsolutePathBuf} {x : List Bytes}
    (hx : x <+: p) :
    Carves (rulesOf (host.context cwd) entries) metadataNames root.components x ↔
      (∃ path ∈ ((restricted entries).writableRootAt host cwd root).readOnlySubpaths,
        path.IsOrdinary host.encodeComponent ∧ path.components = x) ∧
      ∀ name ∈ metadataNames, x ≠ root.components ++ [name] := by
  have hopens := canWriteLocalPath_iff hsettled.ordinary hsettled.unambiguous hkept hfull
  constructor
  · rintro ⟨⟨r, hr, rfl, haccess⟩, hclosed, hbelow, hne, hnames⟩
    obtain ⟨entry, hentry, hordinary, rfl⟩ := (hsettled.alike r hx).mp hr
    refine ⟨⟨entry.path, (mem_readOnlySubpaths hplain).mpr (.inr ?_), hordinary, rfl⟩, hnames⟩
    refine ⟨entry, hentry, by simpa [canWrite] using haccess, ?_, ?_, hbelow, rfl⟩
    · rw [← Bool.not_eq_true, hopens]
      exact fun hopen => hclosed hopen.2
    · rintro rfl
      exact hne rfl
  · rintro ⟨⟨path, hpath, hordinary, rfl⟩, hnames⟩
    rcases (mem_readOnlySubpaths hplain).mp hpath with
      ⟨name, hname, rfl, _⟩ | ⟨entry, hentry, haccess, hclosed, hne, hbelow, rfl⟩
    · refine absurd (LocalHost.components_join_name hname root) (hnames _ ?_)
      exact mem_map.mpr ⟨name, hname, rfl⟩
    · refine ⟨⟨⟨entry.path.components, entry.access⟩, (hsettled.alike _ hx).mpr
        ⟨entry, hentry, hordinary, rfl⟩, rfl, ?_⟩, ?_, hbelow, ?_, hnames⟩
      · simpa [canWrite] using haccess
      · rw [← Bool.not_eq_true, hopens] at hclosed
        exact fun hopen => hclosed ⟨hordinary, hopen⟩
      · exact fun heq => hne (AbsolutePathBuf.ext_components heq).symm

end Writing

section Equivalent
variable (hplain : host.IsPlain) {entries entries' : List FileSystemSandboxEntry}

include hplain in
theorem sameRoot_of_equivalent
    (h : sortedWritableRoots ((restricted entries).getWritableRootsWithCwd host cwd) =
      sortedWritableRoots ((restricted entries').getWritableRootsWithCwd host cwd))
    (hfull : (restricted entries).hasFullDiskWriteAccess = false) {root : AbsolutePathBuf}
    (hroot : IsLocalRoot host cwd entries root) :
    IsLocalRoot host cwd entries' root ∧
      SameRoot ((restricted entries).writableRootAt host cwd root)
        ((restricted entries').writableRootAt host cwd root) := by
  obtain ⟨w, hw, hsame⟩ := exists_sameRoot h
    ((mem_getWritableRootsWithCwd hplain).mpr ⟨hfull, root, hroot.1, hroot.2, rfl⟩)
  obtain ⟨_, root', hmem, hopen, rfl⟩ := (mem_getWritableRootsWithCwd hplain).mp hw
  obtain rfl : root = root' := hsame.root
  exact ⟨⟨hmem, hopen⟩, hsame⟩

include hplain in
theorem opens_of_equivalent (hkept : KeepsMetadataNames host.crates) {p : List Bytes}
    (hleft : IsSettled host cwd entries p) (hright : IsSettled host cwd entries' p)
    (hfull : (restricted entries).hasFullDiskWriteAccess = false)
    (hfull' : (restricted entries').hasFullDiskWriteAccess = false)
    (h : sortedWritableRoots ((restricted entries).getWritableRootsWithCwd host cwd) =
      sortedWritableRoots ((restricted entries').getWritableRootsWithCwd host cwd)) :
    Opens (rulesOf (host.context cwd) entries) metadataNames p ↔
      Opens (rulesOf (host.context cwd) entries') metadataNames p := by
  -- A writable root over the path is a root of both policies, with the same carve-outs.
  have hlocal : ∀ {w}, w <+: p →
      IsWritableRoot (rulesOf (host.context cwd) entries) metadataNames w →
        ∃ root, IsLocalRoot host cwd entries root ∧ root.components = w :=
    fun hw => (isWritableRoot_iff hkept hleft hfull hw).mp
  apply opens_congr
  · intro w hw
    rw [isWritableRoot_iff hkept hleft hfull hw, isWritableRoot_iff hkept hright hfull' hw]
    refine exists_congr fun root => and_congr_left fun _ => ⟨fun hroot => ?_, fun hroot => ?_⟩
    · exact (sameRoot_of_equivalent hplain h hfull hroot).1
    · exact (sameRoot_of_equivalent hplain h.symm hfull' hroot).1
  · intro w x hx hw
    by_cases hwx : w <+: x
    · obtain ⟨root, hroot, rfl⟩ := hlocal (hwx.trans hx) hw
      have hsame := (sameRoot_of_equivalent hplain h hfull hroot).2
      rw [carves_iff hkept hleft hfull hplain hx, carves_iff hkept hright hfull' hplain hx]
      simp only [hsame.subpaths]
    · exact iff_of_false (fun hcarves => hwx hcarves.2.2.1) fun hcarves => hwx hcarves.2.2.1
  · intro w hw name hname hover
    obtain ⟨root, hroot, rfl⟩ := hlocal ((prefix_append _ _).trans hover) hw
    obtain ⟨text, htext, rfl⟩ := mem_map.mp hname
    have hsame := (sameRoot_of_equivalent hplain h hfull hroot).2
    have hordinary := ((canWriteLocalPath_iff hleft.ordinary hleft.unambiguous hkept hfull
      root).mp hroot.2).1
    rw [opens_name_iff hkept hleft hfull hplain hordinary htext,
      opens_name_iff hkept hright hfull' hplain hordinary htext, hsame.names]

end Equivalent

def AgreeAt (host : LocalHost) (cwd : AbsolutePathBuf)
    (entries entries' : List FileSystemSandboxEntry) (p : PathUri) : Prop :=
  ((restricted entries).resolveAccess p (host.context cwd)).canRead =
      ((restricted entries').resolveAccess p (host.context cwd)).canRead ∧
    (restricted entries).canWritePath p (host.context cwd) =
      (restricted entries').canWritePath p (host.context cwd)

variable {entries entries' : List FileSystemSandboxEntry}

theorem AgreeAt.symm {p : PathUri} (h : AgreeAt host cwd entries entries' p) :
    AgreeAt host cwd entries' entries p :=
  ⟨h.1.symm, h.2.symm⟩

theorem agree_of_deny {p : PathUri}
    (h : (restricted entries).resolveAccess p (host.context cwd) = .deny)
    (h' : (restricted entries').resolveAccess p (host.context cwd) = .deny) :
    AgreeAt host cwd entries entries' p := by
  rw [AgreeAt, h, h', canWritePath_eq_false h, canWritePath_eq_false h']
  exact ⟨rfl, rfl⟩

section Signatures
variable (hplain : host.IsPlain) (hkept : KeepsMetadataNames host.crates)
  (htmp : PathUri.Kept host.crates.encode tmpName)

include hplain in
theorem readable_iff_of_signature {p : List Bytes} (hleft : IsSettled host cwd entries p)
    (hright : IsSettled host cwd entries' p)
    (h : (restricted entries).semanticSignature host cwd =
      (restricted entries').semanticSignature host cwd) :
    resolve (rulesOf (host.context cwd) entries) p ≠ .deny ↔
      resolve (rulesOf (host.context cwd) entries') p ≠ .deny := by
  have hfull : (restricted entries).hasFullDiskReadAccess =
      (restricted entries').hasFullDiskReadAccess :=
    congrArg FileSystemSemanticSignature.hasFullDiskReadAccess h
  have hread : ∀ p, p ∈ (restricted entries).getReadableRootsWithCwd host cwd ↔
      p ∈ (restricted entries').getReadableRootsWithCwd host cwd :=
    mem_iff_of_sorted_eq (congrArg FileSystemSemanticSignature.readableRoots h)
  have hdeny : ∀ p, p ∈ (restricted entries).getUnreadableRootsWithCwd host cwd ↔
      p ∈ (restricted entries').getUnreadableRootsWithCwd host cwd :=
    mem_iff_of_sorted_eq (congrArg FileSystemSemanticSignature.unreadableRoots h)
  cases hcase : (restricted entries).hasFullDiskReadAccess with
  | true =>
    refine iff_of_true (resolve_of_full_read (LocalHost.lexical_uri hleft.ordinary) hcase p) ?_
    exact resolve_of_full_read (LocalHost.lexical_uri hright.ordinary) (hfull ▸ hcase) p
  | false =>
    constructor
    · exact readable_of_equivalent hplain hleft hright (fun p => (hread p).mp)
        (fun p => (hdeny p).mpr) hcase
    · exact readable_of_equivalent hplain hright hleft (fun p => (hread p).mpr)
        (fun p => (hdeny p).mp) (hfull ▸ hcase)

include hplain hkept htmp in
theorem agree_of_signature {p : PathUri} {ps : List Bytes} (hp : p.lexical = some ps)
    (hleft : IsSettled host cwd entries ps) (hright : IsSettled host cwd entries' ps)
    (h : (restricted entries).semanticSignature host cwd =
      (restricted entries').semanticSignature host cwd) : AgreeAt host cwd entries entries' p := by
  have hcwd := LocalHost.lexical_uri hleft.ordinary
  have hfull : (restricted entries).hasFullDiskWriteAccess =
      (restricted entries').hasFullDiskWriteAccess :=
    congrArg FileSystemSemanticSignature.hasFullDiskWriteAccess h
  constructor
  · rw [resolveAccess_eq_resolve entries p _ hp hcwd hleft.unambiguous,
      resolveAccess_eq_resolve entries' p _ hp hcwd hright.unambiguous]
    exact decide_eq_decide.mpr (readable_iff_of_signature hplain hleft hright h)
  · rw [Bool.eq_iff_iff, canWritePath_iff entries hp hcwd hkept hleft.unambiguous,
      canWritePath_iff entries' hp hcwd hkept hright.unambiguous, ← hfull]
    cases hcase : (restricted entries).hasFullDiskWriteAccess with
    | true =>
      rw [resolve_of_full_write hcwd htmp hcase, resolve_of_full_write hcwd htmp (hfull ▸ hcase)]
      simp
    | false =>
      simp only [Bool.false_eq_true, false_or]
      exact opens_of_equivalent hplain hkept hleft hright hcase (hfull ▸ hcase)
        (congrArg FileSystemSemanticSignature.writableRoots h)

end Signatures

end Codex.Permissions

import Codex.Permissions.SemanticEquivalence

/-! `is_semantically_equivalent_to` is sound but for two cases. Full-disk access is read off the
entries, also when an ambiguous one among them denies everything. And the roots that are compared
come from native paths, in which an entry can be lost or moved. -/

namespace Codex.Permissions
open Codex.Lib FileSystemSandboxPolicy Rule List

variable {host : LocalHost} {cwd : AbsolutePathBuf} {entries entries' : List FileSystemSandboxEntry}

/-- An ambiguous entry of the first policy denies everything, and both policies seem to permit
reading everywhere, with the same writable roots. -/
structure Masked (host : LocalHost) (cwd : AbsolutePathBuf)
    (entries entries' : List FileSystemSandboxEntry) : Prop where
  ambiguous : hasAmbiguous entries (host.context cwd)
  unambiguous : ¬ hasAmbiguous entries' (host.context cwd)
  fullRead : (restricted entries).hasFullDiskReadAccess = true
  fullRead' : (restricted entries').hasFullDiskReadAccess = true
  fullWrite : (restricted entries).hasFullDiskWriteAccess =
    (restricted entries').hasFullDiskWriteAccess
  unwritten : (restricted entries').getWritableRootsWithCwd host cwd = []

theorem unreadable_of_full_read (hplain : host.IsPlain) (cwd : AbsolutePathBuf)
    (h : (restricted entries).hasFullDiskReadAccess) :
    (restricted entries).getReadableRootsWithCwd host cwd = [] ∧
      (restricted entries).getUnreadableRootsWithCwd host cwd = [] ∧
      (restricted entries).getUnreadableGlobsWithCwd host cwd = [] := by
  have hdeny := (hasFullDiskReadAccess_iff.mp h).2
  refine ⟨by rw [getReadableRootsWithCwd, if_pos h], ?_, ?_⟩
  · rw [eq_nil_iff_forall_not_mem]
    intro p hp
    have hmem := ((mem_getUnreadableRootsWithCwd hplain).mp hp).1
    obtain ⟨entry, hentry, hresolved⟩ := mem_filterMap.mp hmem
    obtain ⟨_, _, heq⟩ := Option.map_eq_some_iff.mp hresolved
    exact hdeny entry hentry (ResolvedFileSystemEntry.mk.inj heq).2
  · have hglobs : (restricted entries).entries.filterMap denyGlobPattern = [] := by
      rw [filterMap_eq_nil_iff]
      intro entry hentry
      unfold denyGlobPattern
      split
      · rw [if_neg (hdeny entry hentry)]
      · rfl
    rw [getUnreadableGlobsWithCwd, if_neg (by simp [restricted]), hglobs, map_nil, mergeSort_nil]
    rfl

theorem writableRoots_eq_nil_of_ambiguous (hplain : host.IsPlain)
    (h : hasAmbiguous entries (host.context cwd)) :
    (restricted entries).getWritableRootsWithCwd host cwd = [] := by
  rw [eq_nil_iff_forall_not_mem]
  intro w
  refine no_writableRoot hplain fun path => canWritePath_eq_false ?_
  exact resolveAccess_of_ambiguous entries _ _ h

theorem Masked.signature_eq (hplain : host.IsPlain) (h : Masked host cwd entries entries') :
    (restricted entries).semanticSignature host cwd =
      (restricted entries').semanticSignature host cwd := by
  obtain ⟨hread, hdeny, hglobs⟩ := unreadable_of_full_read hplain cwd h.fullRead
  obtain ⟨hread', hdeny', hglobs'⟩ := unreadable_of_full_read hplain cwd h.fullRead'
  have hdefaults : (restricted entries).includePlatformDefaults =
      (restricted entries').includePlatformDefaults := by
    rw [includePlatformDefaults, includePlatformDefaults, h.fullRead, h.fullRead']
    rfl
  rw [semanticSignature, semanticSignature, h.fullRead, h.fullRead', h.fullWrite, hdefaults, hread,
    hread', hdeny, hdeny', hglobs, hglobs', h.unwritten,
    writableRoots_eq_nil_of_ambiguous hplain h.ambiguous]

/-- Away from the masked case, a policy with the roots of one that denies everything denies
everything below entries that are resolved alike. -/
theorem resolve_of_ambiguous_signature (hplain : host.IsPlain)
    (hamb : hasAmbiguous entries (host.context cwd)) {p : List Bytes}
    (hright : IsSettled host cwd entries' p) (hmasked : ¬ Masked host cwd entries entries')
    (h : (restricted entries).semanticSignature host cwd =
      (restricted entries').semanticSignature host cwd) :
    resolve (rulesOf (host.context cwd) entries') p = .deny := by
  have hread : (restricted entries).hasFullDiskReadAccess =
      (restricted entries').hasFullDiskReadAccess :=
    congrArg FileSystemSemanticSignature.hasFullDiskReadAccess h
  have hwrite : (restricted entries).hasFullDiskWriteAccess =
      (restricted entries').hasFullDiskWriteAccess :=
    congrArg FileSystemSemanticSignature.hasFullDiskWriteAccess h
  have hroots := congrArg FileSystemSemanticSignature.writableRoots h
  cases hfull : (restricted entries').hasFullDiskReadAccess with
  | true =>
    refine absurd ⟨hamb, hright.unambiguous, hread.trans hfull, hfull, hwrite, ?_⟩ hmasked
    rw [eq_nil_iff_forall_not_mem]
    intro w hw
    obtain ⟨v, hv, _⟩ := exists_sameRoot hroots.symm hw
    rw [writableRoots_eq_nil_of_ambiguous hplain hamb] at hv
    exact not_mem_nil hv
  | false =>
    by_contra hopen
    obtain ⟨d, hd, hresolve⟩ | ⟨_, hnone⟩ := resolve_cases (rulesOf (host.context cwd) entries') p
    · rw [hresolve] at hopen
      obtain ⟨entry, hentry, hordinary, heq⟩ := (hright.alike d hd.covers).mp hd.mem
      have hroot := (hd.of_between prefix_rfl hd.covers).resolve_eq
      rw [heq] at hroot hopen
      have hmem : entry.path ∈ (restricted entries').getReadableRootsWithCwd host cwd := by
        refine (mem_getReadableRootsWithCwd hplain).mpr ⟨hfull, entry, hentry, hopen, ?_, rfl⟩
        rwa [localAccess_eq hright.ordinary hright.unambiguous hordinary, hroot]
      rw [← mem_iff_of_sorted_eq (congrArg FileSystemSemanticSignature.readableRoots h)] at hmem
      obtain ⟨_, _, _, _, hopen', _⟩ := (mem_getReadableRootsWithCwd hplain).mp hmem
      exact hopen' (resolveAccess_of_ambiguous entries _ _ hamb)
    · exact hopen hnone

theorem agree_of_ambiguous (hplain : host.IsPlain)
    (hamb : hasAmbiguous entries (host.context cwd)) {p : PathUri} {ps : List Bytes}
    (hp : p.lexical = some ps) (hright : IsSettled host cwd entries' ps)
    (hmasked : ¬ Masked host cwd entries entries')
    (h : (restricted entries).semanticSignature host cwd =
      (restricted entries').semanticSignature host cwd) : AgreeAt host cwd entries entries' p := by
  refine agree_of_deny (resolveAccess_of_ambiguous entries p _ hamb) ?_
  rw [resolveAccess_eq_resolve entries' p _ hp (LocalHost.lexical_uri hright.ordinary)
    hright.unambiguous]
  exact resolve_of_ambiguous_signature hplain hamb hright hmasked h

theorem Masked.not_agree (hcwd : cwd.IsOrdinary host.encodeComponent)
    (h : Masked host cwd entries entries') :
    ¬ AgreeAt host cwd entries entries' (host.uri cwd) := by
  intro hagree
  have hlexical := LocalHost.lexical_uri hcwd
  have hread := hagree.1
  rw [resolveAccess_of_ambiguous entries _ _ h.ambiguous,
    resolveAccess_eq_resolve entries' _ _ hlexical hlexical h.unambiguous] at hread
  have hopen : resolve (rulesOf (host.context cwd) entries') cwd.components ≠ .deny :=
    resolve_of_full_read hlexical h.fullRead' cwd.components
  exact hopen (by simpa [FileSystemAccessMode.canRead] using hread.symm)

/-- Below an entry that the host loses, or finds elsewhere than its URI says, the policies agree. -/
def AgreeWhereMoved (host : LocalHost) (cwd : AbsolutePathBuf)
    (entries entries' : List FileSystemSandboxEntry) : Prop :=
  ∀ p : PathUri, ∀ ps ∈ p.lexical,
    ¬ (AlikeAbove host cwd entries ps ∧ AlikeAbove host cwd entries' ps) →
      AgreeAt host cwd entries entries' p

theorem agree_of_not_masked (hplain : host.IsPlain) (hkept : KeepsMetadataNames host.crates)
    (htmp : PathUri.Kept host.crates.encode tmpName)
    (hcwd : cwd.IsOrdinary host.encodeComponent) (hmasked : ¬ Masked host cwd entries entries')
    (hmasked' : ¬ Masked host cwd entries' entries)
    (hmoved : AgreeWhereMoved host cwd entries entries')
    (h : (restricted entries).semanticSignature host cwd =
      (restricted entries').semanticSignature host cwd) (p : PathUri) :
    AgreeAt host cwd entries entries' p := by
  cases hp : p.lexical with
  | none =>
    exact agree_of_deny (resolveAccess_of_not_lexical entries p _ (.inl hp))
      (resolveAccess_of_not_lexical entries' p _ (.inl hp))
  | some ps =>
    by_cases halike : AlikeAbove host cwd entries ps ∧ AlikeAbove host cwd entries' ps
    · by_cases hamb : hasAmbiguous entries (host.context cwd) <;>
        by_cases hamb' : hasAmbiguous entries' (host.context cwd)
      · exact agree_of_deny (resolveAccess_of_ambiguous entries p _ hamb)
          (resolveAccess_of_ambiguous entries' p _ hamb')
      · exact agree_of_ambiguous hplain hamb hp ⟨hcwd, hamb', halike.2⟩ hmasked h
      · exact (agree_of_ambiguous hplain hamb' hp ⟨hcwd, hamb, halike.1⟩ hmasked' h.symm).symm
      · exact agree_of_signature hplain hkept htmp hp ⟨hcwd, hamb, halike.1⟩
          ⟨hcwd, hamb', halike.2⟩ h
    · exact hmoved p ps hp halike

theorem kept_tmpName_literalCrates : PathUri.Kept literalCrates.encode tmpName := by
  have hdecode : Percent.decode tmpName.bytes = tmpName.bytes := by decide
  exact fun _ => hdecode

/-- `/tmp` is no directory of the host, so the writable root for it is left out. -/
example :
    let policy := restricted [⟨.special .slashTmp, .write, false⟩]
    let other := restricted []
    let cwd := nativePath "/w"
    let path := emptyHost.uri (nativePath "/tmp/x")
    policy.isSemanticallyEquivalentTo other emptyHost cwd = true ∧
      policy.canWritePath path (emptyHost.context cwd) = true ∧
      other.canWritePath path (emptyHost.context cwd) = false := by
  decide +kernel

end Codex.Permissions

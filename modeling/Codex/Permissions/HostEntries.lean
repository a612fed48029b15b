import Codex.Permissions.FullDisk
import Codex.Permissions.RootProjection

/-! An entry is resolved twice: to the URIs that `resolve_access` matches, and to a native path. The
two are the same path but for some spellings: a path with dot components, `:slash_tmp` while it is
no directory, or a subpath that begins with the home directory. -/

namespace Codex.Permissions
open Codex.Lib FileSystemSandboxPolicy List Option PathUri

variable {host : LocalHost} {cwd : AbsolutePathBuf} {entries : List FileSystemSandboxEntry}

/-- The entries at and above a path are resolved alike. -/
def AlikeAbove (host : LocalHost) (cwd : AbsolutePathBuf) (entries : List FileSystemSandboxEntry)
    (path : List Bytes) : Prop :=
  ∀ r : Rule Bytes, r.root <+: path → (r ∈ rulesOf (host.context cwd) entries ↔
    ∃ entry ∈ (restricted entries).resolvedEntriesWithCwd host cwd,
      entry.path.IsOrdinary host.encodeComponent ∧ r = ⟨entry.path.components, entry.access⟩)

def PathAlike (host : LocalHost) (cwd : AbsolutePathBuf) (path : FileSystemPath) : Prop :=
  ∀ x, (∃ u ∈ entryPaths (host.context cwd) path, u.lexical = some x) ↔
    ∃ native, host.resolveEntryPath path cwd = some native ∧
      native.IsOrdinary host.encodeComponent ∧ native.components = x

theorem alikeAbove_of_pathAlike (h : ∀ entry ∈ entries, PathAlike host cwd entry.path)
    (path : List Bytes) : AlikeAbove host cwd entries path := by
  rintro ⟨root, access⟩ -
  rw [mem_rulesOf]
  constructor
  · rintro ⟨entry, hentry, rfl, hu⟩
    obtain ⟨native, hnative, hordinary, rfl⟩ := (h entry hentry root).mp hu
    refine ⟨⟨native, entry.access⟩, mem_filterMap.mpr ⟨entry, hentry, ?_⟩, hordinary, rfl⟩
    rw [hnative, map_some]
  · rintro ⟨resolved, hresolved, hordinary, heq⟩
    obtain ⟨entry, hentry, hmap⟩ := mem_filterMap.mp hresolved
    obtain ⟨native, hnative, rfl⟩ := map_eq_some_iff.mp hmap
    obtain ⟨rfl, rfl⟩ := Rule.mk.inj heq
    exact ⟨entry, hentry, rfl, (h entry hentry _).mpr ⟨native, hnative, hordinary, rfl⟩⟩

theorem pathAlike_of_nil {path : FileSystemPath} (hu : entryPaths (host.context cwd) path = [])
    (hnative : host.resolveEntryPath path cwd = none) : PathAlike host cwd path := by
  intro x
  simp [hu, hnative]

theorem pathAlike_of_lexical {path : FileSystemPath} {u : PathUri} {native : AbsolutePathBuf}
    (hu : entryPaths (host.context cwd) path = [u])
    (hnative : host.resolveEntryPath path cwd = some native)
    (hordinary : native.IsOrdinary host.encodeComponent)
    (hlexical : u.lexical = some native.components) : PathAlike host cwd path := by
  intro x
  simp [hu, hnative, hordinary, hlexical]

theorem pathAlike_path {uri : PathUri} {native : AbsolutePathBuf}
    (hordinary : native.IsOrdinary host.encodeComponent)
    (hlexical : uri.lexical = some native.components) : PathAlike host cwd (.path uri) := by
  cases uri with
  | fallback payload => exact nomatch hlexical
  | file authority segments =>
    have hnative : (PathUri.file authority segments).toAbsPath host.encodeComponent = some native :=
      toAbsPath_of_lexical hlexical
    exact pathAlike_of_lexical rfl hnative hordinary hlexical

theorem isOrdinary_root : AbsolutePathBuf.root.IsOrdinary host.encodeComponent := by
  rw [AbsolutePathBuf.isOrdinary_iff host.decode_encodeComponent]
  rintro _ ⟨⟩

theorem pathAlike_tmpdir : PathAlike host cwd (.special .tmpdir) := by
  intro x
  change (∃ u ∈ (host.tmpdir.map host.uri).toList, u.lexical = some x) ↔
    ∃ native, host.tmpdir = some native ∧ native.IsOrdinary host.encodeComponent ∧
      native.components = x
  cases host.tmpdir with
  | none => simp
  | some tmpdir =>
    simp [LocalHost.uri, AbsolutePathBuf.lexical_fromAbsPath_iff host.decode_encodeComponent]

theorem pathAlike_slashTmp (htmp : PathUri.Kept host.crates.encode tmpName)
    (hdir : host.isDir LocalHost.slashTmp) : PathAlike host cwd (.special .slashTmp) := by
  have hpaths : ∃ v, entryPaths (host.context cwd) (.special .slashTmp) = [v] ∧
      v.lexical = some [tmpName.bytes] := entryPaths_slashTmp htmp
  obtain ⟨v, hv, hlexical⟩ := hpaths
  have hnative : host.resolveEntryPath (.special .slashTmp) cwd = some LocalHost.slashTmp :=
    if_pos hdir
  refine pathAlike_of_lexical hv hnative ?_ hlexical
  exact isOrdinary_root.join host.decode_encodeComponent (isPlainName_tmp htmp).notDrive rfl

theorem pathAlike_subpath (hcwd : cwd.IsOrdinary host.encodeComponent) {name : Text}
    (hname : PathUri.IsPlainName host.crates.encode name) (hnative : IsNormalComponent name.bytes)
    (htilde : name.bytes.head? ≠ some AbsolutePathBuf.tilde) :
    PathAlike host cwd (.special (.projectRoots (some name))) := by
  obtain ⟨v, hv, hlexical⟩ := lexical_join hname (host.context cwd).cwd (LocalHost.lexical_uri hcwd)
  have hcomponents : (host.join cwd name.bytes).components = cwd.components ++ [name.bytes] :=
    LocalHost.components_join hnative htilde cwd
  have hpaths : entryPaths (host.context cwd) (.special (.projectRoots (some name))) = [v] := by
    change ([(host.context cwd).cwd].filterMap fun root =>
      root.join host.crates.encode name) = [v]
    simp only [filterMap_cons, hv, filterMap_nil]
  exact pathAlike_of_lexical hpaths rfl
    (hcwd.join host.decode_encodeComponent hname.notDrive hcomponents) (hcomponents ▸ hlexical)

def IsPlainPath (host : LocalHost) : FileSystemPath → Prop
  | .path uri => ∃ native : AbsolutePathBuf,
    native.IsOrdinary host.encodeComponent ∧ uri.lexical = some native.components
  | .special .slashTmp => host.isDir LocalHost.slashTmp = true
  | .special (.projectRoots (some name)) => PathUri.IsPlainName host.crates.encode name ∧
    IsNormalComponent name.bytes ∧ name.bytes.head? ≠ some AbsolutePathBuf.tilde
  | _ => True

theorem alikeAbove_of_isPlainPath (hcwd : cwd.IsOrdinary host.encodeComponent)
    (htmp : PathUri.Kept host.crates.encode tmpName)
    (h : ∀ entry ∈ entries, IsPlainPath host entry.path) (path : List Bytes) :
    AlikeAbove host cwd entries path := by
  have hlexical : (host.context cwd).cwd.uri.lexical = some cwd.components :=
    LocalHost.lexical_uri hcwd
  refine alikeAbove_of_pathAlike (fun entry hentry => ?_) path
  have hpath := h entry hentry
  generalize entry.path = path at hpath
  match path with
  | .path uri =>
    obtain ⟨native, hordinary, hnative⟩ := hpath
    exact pathAlike_path hordinary hnative
  | .globPattern _ => exact pathAlike_of_nil rfl rfl
  | .special .root =>
    exact pathAlike_of_lexical (entryPaths_root hlexical) rfl isOrdinary_root
      (root_lexical hlexical)
  | .special (.projectRoots none) => exact pathAlike_of_lexical rfl rfl hcwd hlexical
  | .special (.projectRoots (some name)) =>
    exact pathAlike_subpath hcwd hpath.1 hpath.2.1 hpath.2.2
  | .special .tmpdir => exact pathAlike_tmpdir
  | .special .slashTmp => exact pathAlike_slashTmp htmp hpath
  | .special .minimal => exact pathAlike_of_nil rfl rfl
  | .special (.unknown _ _) => exact pathAlike_of_nil rfl rfl

end Codex.Permissions

import Codex.Permissions.DenyReadValidator
import Codex.Permissions.MaterializedRoots

/-! `for_approved_command` of `protocol/src/permissions/target.rs`, with
`preserve_deny_read_restrictions_from` and the strict matcher under it. -/

namespace Codex
open PathUri
open Option hiding all all_eq_true
open List

namespace PathUri
open Codex.Lib Codex.Lib.Percent

variable {encode : SegmentEncoding}

theorem isPrefix_foldl_joinStep (components : List Text) (h : ['.', '.'] ∉ components)
    (state : List Bytes × Nat) : state.1.filter (fun s => !s.isEmpty) <+:
      (components.foldl (joinStep encode) state).1.filter fun s => !s.isEmpty := by
  induction components generalizing state with
  | nil => exact prefix_rfl
  | cons component components ih =>
    have hcomponent : component ≠ ['.', '.'] := fun heq => h (heq ▸ mem_cons_self)
    refine List.IsPrefix.trans ?_
      (ih (fun hmem => h (mem_cons_of_mem component hmem)) (joinStep encode state component))
    rw [joinStep, if_neg hcomponent]
    split
    · exact prefix_rfl
    · simp only [pushSegment, pushEncoded]
      split
      · next hroot =>
        rw [hroot]
        exact List.nil_prefix
      · rw [filter_append]
        exact prefix_append _ _

theorem fromAbsoluteNativePath_eq_none {path : Text} (h : (path.splitOn '/').head? ≠ some []) :
    fromAbsoluteNativePath encode path = none := by
  unfold fromAbsoluteNativePath
  split
  · rw [Split.splitOn_cons_self, head?_cons] at h
    exact absurd rfl h
  · rfl

theorem isPrefix_lexical_join {root : PosixUri} {path : Text} {u : PathUri} {rs us : List Bytes}
    (hfirst : (path.splitOn '/').head? ≠ some []) (hdots : ['.', '.'] ∉ path.splitOn '/')
    (hjoin : root.join encode path = some u) (hroot : root.uri.lexical = some rs)
    (hu : u.lexical = some us) : rs <+: us := by
  rw [PosixUri.join] at hjoin
  split at hjoin
  · cases hjoin
  · split at hjoin
    · obtain rfl := Option.some.inj hjoin
      rw [Option.some.inj (hroot.symm.trans hu)]
    · rw [fromAbsoluteNativePath_eq_none hfirst] at hjoin
      cases huri : root.uri with
      | fallback payload =>
        rw [huri] at hroot
        cases hroot
      | file host segments =>
        rw [huri] at hjoin hroot
        obtain rfl := Option.some.inj hjoin
        obtain rfl := host_eq_none (lexical_posix hroot)
        rw [normalizeDriveLetter_of_posix (lexical_posix hu)] at hu
        obtain ⟨hsegments, rfl⟩ := lexical_eq_some hroot
        obtain ⟨hjoined, rfl⟩ := lexical_eq_some hu
        have hprefix := @isPrefix_foldl_joinStep encode (path.splitOn '/') hdots
          (popIfEmpty segments, nonemptyCount segments)
        rw [filter_popIfEmpty] at hprefix
        exact hprefix.map decode

end PathUri

namespace Permissions
open Codex.Lib FileSystemSandboxPolicy Rule

namespace FileSystemSandboxPolicy

def preserveDenyReadRestrictionsFrom (self existing : FileSystemSandboxPolicy) :
    FileSystemSandboxPolicy :=
  let denyEntries := existing.entries.filter fun entry => entry.access = .deny
  let self :=
    if self.kind = .unrestricted ∧ denyEntries ≠ [] then
      restricted [⟨.special .root, .write, false⟩]
    else self
  if self.kind ≠ .restricted then self
  else
    { self with
      globScanMaxDepth := self.globScanMaxDepth.orElse fun _ => existing.globScanMaxDepth
      entries := denyEntries.foldl pushNew self.entries }

def isContextPath (path : PathUri) : Bool := isPosix path && path.lexicalDepth.isSome

def validateContextPaths (self : FileSystemSandboxPolicy) (context : Context) : Bool :=
  isContextPath context.cwd.uri &&
    context.workspaceRoots.all (fun root => isContextPath root.uri) &&
    self.entries.all fun entry =>
      match entry.path with
      | .path path => isContextPath path
      | .special .tmpdir =>
        context.temporaryDirectories.any fun directories => directories.all isContextPath
      | .special (.projectRoots (some subpath)) =>
        context.workspaceRoots.all fun root => (context.join root subpath).isSome
      | .globPattern pattern =>
        !"~/".toList.isPrefixOf pattern ||
          context.userHomeDir.any fun home => isContextPath home.uri
      | _ => true

/-- `ReadDenyMatcher::try_new_with_context`; the outer `none` is an error. -/
def tryReadDenyMatcher (self : FileSystemSandboxPolicy) (context : Context) :
    Option (Option PreparedReadDenyMatcher) :=
  if self.hasContextReadDenials = false then some none
  else if self.validateContextPaths context then (self.tryPrepareDenyReadMatcher context).map some
  else none

def rootMetadataEntries (context : Context) (root : PathUri)
    (matcher : Option PreparedReadDenyMatcher) : Option (List FileSystemSandboxEntry) :=
  if h : root.inferPathConvention = some .posix then
    (protectedMetadataPathNames.mapM
      ((⟨root, h⟩ : PosixUri).joinDescendant context.crates.encode)).map fun paths =>
        (paths.filter fun path => !matcher.any (matchesPreparedReadDeny path context)).map
          fun path => ⟨.path path, .write, false⟩
  else none

/-- What `for_approved_command` builds of a restricted policy; `none` where it keeps the original
one. -/
def approvedPolicy (self : FileSystemSandboxPolicy) (context : Context) :
    Option FileSystemSandboxPolicy := do
  let approved :=
    (restricted [⟨.special .root, .write, false⟩]).preserveDenyReadRestrictionsFrom self
  if context.workspaceRoots = [] ∧
      approved.entries.any fun entry => (workspaceSubpath entry.path).isSome then none
  else
    let approved ← approved.tryMaterializeProjectRoots context.crates context.workspaceRoots
    let root ← fileSystemRoot context
    let matcher ← approved.tryReadDenyMatcher context
    if !(approved.resolveAccess root context).canWrite ||
        matcher.any (matchesPreparedReadDeny root context) then none
    else
      let metadata ← rootMetadataEntries context root matcher
      some { approved with entries := approved.entries ++ metadata }

def forApprovedCommand (self : FileSystemSandboxPolicy) (context : Context) :
    FileSystemSandboxPolicy :=
  if self.kind ≠ .restricted then self else (self.approvedPolicy context).getD self

end FileSystemSandboxPolicy

variable {policy : FileSystemSandboxPolicy} {context : Context} {p : PathUri}

theorem exists_mem_of_mapM {α β : Type} {f : α → Option β} {l : List α} {l' : List β}
    (h : l.mapM f = some l') {x : α} (hx : x ∈ l) : ∃ y ∈ l', f x = some y := by
  induction l generalizing l' with
  | nil => exact absurd hx not_mem_nil
  | cons a l ih =>
    rw [mapM_cons] at h
    obtain ⟨b, hb, hrest⟩ := bind_eq_some_iff.mp h
    obtain ⟨bs, hbs, hcons⟩ := bind_eq_some_iff.mp hrest
    obtain rfl := Option.some.inj hcons
    rcases mem_cons.mp hx with rfl | hx
    · exact ⟨b, mem_cons_self, hb⟩
    · obtain ⟨y, hy, hfy⟩ := ih hbs hx
      exact ⟨y, mem_cons_of_mem b hy, hfy⟩

/-- The path is at or below a root that the entry stands for, other than the root of the file
system, or the entry is a glob that matches it. -/
def EntryMatches (context : Context) (path : FileSystemPath) (p : PathUri) : Prop :=
  (∃ u ∈ entryPaths context path, isFileSystemRoot context u = false ∧ p.startsWith u = true) ∨
  ∃ pattern native matcher, path = .globPattern pattern ∧
    denyReadGlob context pattern = some native ∧
    context.crates.buildGlobMatcher native = some matcher ∧ matchesAnyGlob [matcher] p = true

theorem deniedRoots_prepareDenyReadMatcher :
    (policy.prepareDenyReadMatcher context).deniedRoots = policy.deniedRoots context := by
  rw [prepareDenyReadMatcher]
  split
  · rfl
  · rfl

theorem mem_denyReadMatchers {entry : FileSystemSandboxEntry} {pattern native : Text}
    {matcher : Bytes → Bool} (hentry : entry ∈ policy.entries) (hdeny : entry.access = .deny)
    (hpath : entry.path = .globPattern pattern)
    (hnative : denyReadGlob context pattern = some native)
    (hmatcher : context.crates.buildGlobMatcher native = some matcher)
    (hvalid : (policy.prepareDenyReadMatcher context).invalidPattern = false) :
    matcher ∈ (policy.prepareDenyReadMatcher context).denyReadMatchers := by
  rw [prepareDenyReadMatcher] at hvalid ⊢
  split at hvalid
  · cases hvalid
  · next patterns hpatterns =>
    have hmem : pattern ∈ policy.entries.filterMap denyGlobPattern := by
      refine mem_filterMap.mpr ⟨entry, hentry, ?_⟩
      rw [denyGlobPattern, hpath]
      exact if_pos hdeny
    obtain ⟨found, hfound, heq⟩ := exists_mem_of_mapM hpatterns hmem
    obtain rfl : native = found := Option.some.inj (hnative.symm.trans heq)
    exact mem_filterMap.mpr ⟨some matcher, List.mem_map.mpr ⟨native, hfound, hmatcher⟩, rfl⟩

theorem matchesReadDeny_eq {entry : FileSystemSandboxEntry} (hentry : entry ∈ policy.entries)
    (hdeny : entry.access = .deny) : policy.matchesReadDeny p context =
      matchesPreparedReadDeny p context (policy.prepareDenyReadMatcher context) := by
  rw [matchesReadDeny, readDenyMatcher, if_pos, any_some]
  exact any_eq_true.mpr ⟨entry, hentry, decide_eq_true hdeny⟩

theorem matchesReadDeny_of_not_lexical {entry : FileSystemSandboxEntry}
    (hentry : entry ∈ policy.entries) (hdeny : entry.access = .deny) (hp : p.lexical = none) :
    policy.matchesReadDeny p context := by
  rw [matchesReadDeny_eq hentry hdeny, matchesPreparedReadDeny, if_pos]
  rcases lexical_eq_none_iff.mp hp with hposix | hdepth
  · exact .inl (decide_eq_false hposix)
  · exact .inr (.inl (by rw [hdepth]; rfl))

theorem matchesReadDeny_of_entryMatches {entry : FileSystemSandboxEntry}
    (hentry : entry ∈ policy.entries) (hdeny : entry.access = .deny)
    (h : EntryMatches context entry.path p) : policy.matchesReadDeny p context := by
  cases hp : p.lexical with
  | none => exact matchesReadDeny_of_not_lexical hentry hdeny hp
  | some ps =>
    rw [matchesReadDeny_eq hentry hdeny]
    rcases h with ⟨u, hu, hroot, hstarts⟩ | ⟨pattern, native, matcher, hpath, hnative, hmatcher, hp⟩
    · obtain ⟨us, hus, -⟩ := (startsWith_iff hp).mp hstarts
      refine DenyReadValidator.matches_of_startsWith ?_ hstarts
      rw [deniedRoots_prepareDenyReadMatcher, DenyReadValidator.mem_deniedRoots]
      exact ⟨mem_resolvedEntries.mpr ⟨entry, hentry, hdeny, hu, lexical_posix hus⟩, hroot⟩
    · rw [matchesPreparedReadDeny]
      split
      · rfl
      · split
        · rfl
        · next hvalid =>
          have hmem := mem_denyReadMatchers hentry hdeny hpath hnative hmatcher
            (Bool.not_eq_true _ ▸ hvalid)
          rw [Bool.or_eq_true]
          refine .inr ?_
          cases p with
          | fallback payload => cases hp
          | file host segments =>
            refine any_eq_true.mpr ⟨matcher, hmem, ?_⟩
            simpa [matchesAnyGlob] using hp

theorem materializeForRoot_of_deny {entry : FileSystemSandboxEntry} (hdeny : entry.access = .deny)
    (subpath : Option Text) (isGlob : Bool) (root : PosixUri) :
    ∃ m, materializeForRoot context.crates entry subpath isGlob root = some m ∧
      m.access = .deny := by
  unfold materializeForRoot
  extract_lets path
  clear_value path
  cases path with
  | some path =>
    cases isGlob with
    | true => exact ⟨_, rfl, hdeny⟩
    | false => exact ⟨_, rfl, hdeny⟩
  | none =>
    rw [hdeny]
    exact ⟨_, rfl, rfl⟩

variable {l : List FileSystemSandboxEntry}

theorem deny_of_mem_materialized {entry m : FileSystemSandboxEntry} (hdeny : entry.access = .deny)
    (hl : materializeProjectRootsEntry context.crates context.workspaceRoots entry = some l)
    (hm : m ∈ l) : m.access = .deny := by
  rw [materializeProjectRootsEntry] at hl
  split at hl
  · obtain rfl := Option.some.inj hl
    rw [mem_singleton.mp hm]
    exact hdeny
  · split at hl
    · cases hl
    · obtain rfl := Option.some.inj hl
      obtain ⟨root, -, hroot⟩ := mem_filterMap.mp hm
      obtain ⟨found, hfound, haccess⟩ := materializeForRoot_of_deny hdeny _ _ root
      rw [← Option.some.inj (hfound.symm.trans hroot)]
      exact haccess

theorem exists_mem_materialized {entry : FileSystemSandboxEntry} (hdeny : entry.access = .deny)
    (hroots : context.workspaceRoots = [] → workspaceSubpath entry.path = none)
    (hl : materializeProjectRootsEntry context.crates context.workspaceRoots entry = some l) :
    ∃ m, m ∈ l := by
  rw [materializeProjectRootsEntry] at hl
  split at hl
  · obtain rfl := Option.some.inj hl
    exact ⟨entry, mem_singleton_self entry⟩
  · next subpath isGlob hsubpath =>
    split at hl
    · cases hl
    · obtain rfl := Option.some.inj hl
      cases hworkspace : context.workspaceRoots with
      | nil =>
        rw [hroots hworkspace] at hsubpath
        cases hsubpath
      | cons root roots =>
        obtain ⟨m, hm, -⟩ := materializeForRoot_of_deny hdeny subpath isGlob root
        exact ⟨m, mem_filterMap.mpr ⟨root, mem_cons_self, hm⟩⟩

theorem relativeSubpath_isOk {subpath : Text} (h : relativeSubpath subpath = .ok subpath) :
    (subpath.splitOn '/').head? ≠ some [] ∧ ['.', '.'] ∉ subpath.splitOn '/' := by
  rw [relativeSubpath] at h
  split at h
  · next hpasses =>
    obtain ⟨-, hempty, -, hdots, htail⟩ := hpasses
    refine ⟨hempty, fun hmem => ?_⟩
    obtain ⟨first, rest, hsplit⟩ := exists_cons_of_ne_nil (splitOn_ne_nil '/' subpath)
    rw [hsplit] at hdots htail hmem
    rcases mem_cons.mp hmem with rfl | hmem
    · exact hdots rfl
    · exact htail hmem
  · cases h

theorem path_of_workspaceSubpath {path : FileSystemPath} {subpath : Option Text}
    (h : workspaceSubpath path = some (subpath, false)) :
    path = .special (.projectRoots subpath) := by
  unfold workspaceSubpath at h
  split at h
  · next found =>
    rw [Option.some.injEq, Prod.mk.injEq] at h
    rw [h.1]
  · obtain ⟨rest, -, heq⟩ := map_eq_some_iff.mp h
    cases heq
  · cases h

theorem startsWith_materializeForRoot {entry : FileSystemSandboxEntry} {subpath : Option Text}
    {root : PosixUri} {u : PathUri} {ps rs : List Bytes} (hp : p.lexical = some ps)
    (hdeny : entry.access = .deny)
    (hsubpath : ∀ text ∈ subpath, relativeSubpath text = .ok text)
    (hroot : root.uri.lexical = some rs) (hu : joinSubpath context root subpath = some u)
    (hstarts : p.startsWith u) :
    ∃ m v, materializeForRoot context.crates entry subpath false root = some m ∧
      m.path = .path v ∧ p.startsWith v := by
  cases subpath with
  | none =>
    obtain rfl := Option.some.inj hu
    exact ⟨_, root.uri, rfl, rfl, hstarts⟩
  | some text =>
    obtain ⟨hfirst, hdots⟩ := relativeSubpath_isOk (hsubpath text rfl)
    cases hscoped : resolveScopedWorkspacePath context.crates.encode root text with
    | some v =>
      refine ⟨_, v, mem_materializeForRoot.mpr (.inl ⟨v, hscoped, rfl⟩), rfl, ?_⟩
      rw [resolveScopedWorkspacePath] at hscoped
      split at hscoped
      · cases hscoped
      · have hjoin := (filter_eq_some_iff.mp hscoped).1
        obtain rfl : u = v := Option.some.inj (hu.symm.trans hjoin)
        exact hstarts
    | none =>
      have hread : entry.access.canWrite = false := by rw [hdeny]; rfl
      refine ⟨_, root.uri, mem_materializeForRoot.mpr (.inr ⟨hscoped, hread, rfl⟩), rfl, ?_⟩
      obtain ⟨us, hus, hcovers⟩ := (startsWith_iff hp).mp hstarts
      have hbelow := isPrefix_lexical_join hfirst hdots hu hroot hus
      exact (startsWith_iff hp).mpr ⟨rs, hroot, hbelow.trans hcovers⟩

theorem entryMatches_materialized {entry : FileSystemSandboxEntry} {ps : List Bytes}
    (hp : p.lexical = some ps) (hdeny : entry.access = .deny)
    (hglob : ∀ subpath, workspaceSubpath entry.path ≠ some (subpath, true))
    (hsubpath : ∀ subpath, entry.path = .special (.projectRoots (some subpath)) →
      relativeSubpath subpath = .ok subpath)
    (hl : materializeProjectRootsEntry context.crates context.workspaceRoots entry = some l)
    (hroots : ∀ root ∈ context.workspaceRoots, ∃ rs, root.uri.lexical = some rs)
    (hopen : ∀ m ∈ l, ∀ u ∈ entryPaths context m.path, isFileSystemRoot context u = false)
    (h : EntryMatches context entry.path p) : ∃ m ∈ l, EntryMatches context m.path p := by
  rw [materializeProjectRootsEntry] at hl
  split at hl
  · obtain rfl := Option.some.inj hl
    exact ⟨entry, mem_singleton_self entry, h⟩
  · next subpath isGlob hworkspace =>
    split at hl
    · cases hl
    · obtain rfl := Option.some.inj hl
      obtain rfl : isGlob = false := by
        cases isGlob with
        | false => rfl
        | true => exact absurd hworkspace (hglob subpath)
      have hpath := path_of_workspaceSubpath hworkspace
      rcases h with ⟨u, hu, -, hstarts⟩ | ⟨pattern, -, -, hpattern, -⟩
      · rw [hpath] at hu
        obtain ⟨root, hroot, hjoin⟩ := mem_filterMap.mp hu
        obtain ⟨rs, hrs⟩ := hroots root hroot
        obtain ⟨m, v, hm, hv, hcovers⟩ := startsWith_materializeForRoot hp hdeny
          (fun text htext => hsubpath text (by rw [hpath, htext])) hrs hjoin hstarts
        have hmem := mem_filterMap.mpr ⟨root, hroot, hm⟩
        have hvpaths : v ∈ entryPaths context m.path := by
          rw [hv]
          exact mem_singleton_self v
        exact ⟨m, hmem, .inl ⟨v, hvpaths, hopen m hmem v hvpaths, hcovers⟩⟩
      · rw [hpath] at hpattern
        cases hpattern

def keptDenies (policy : FileSystemSandboxPolicy) : List FileSystemSandboxEntry :=
  (policy.entries.filter fun entry => entry.access = .deny).foldl pushNew
    [⟨.special .root, .write, false⟩]

/-- What is checked of the policy before the metadata directories are added. -/
structure Approves (policy : FileSystemSandboxPolicy) (context : Context)
    (approved : FileSystemSandboxPolicy) : Prop where
  restricted : approved.kind = .restricted
  materialized : ∀ entry ∈ keptDenies policy, ∃ l,
    materializeProjectRootsEntry context.crates context.workspaceRoots entry = some l ∧
      l ⊆ approved.entries
  symbolic : context.workspaceRoots = [] → ∀ entry ∈ keptDenies policy,
    workspaceSubpath entry.path = none
  validated : (∃ entry ∈ approved.entries, entry.access = .deny) →
    approved.validateContextPaths context = true
  writable : ∃ root, fileSystemRoot context = some root ∧
    approved.resolveAccess root context = .write

theorem approves_of_approvedPolicy {result : FileSystemSandboxPolicy}
    (h : policy.approvedPolicy context = some result) :
    ∃ approved metadata, Approves policy context approved ∧
      result.entries = approved.entries ++ metadata := by
  rw [approvedPolicy] at h
  split at h
  · cases h
  · next hsymbolic =>
    obtain ⟨approved, happroved, h⟩ := bind_eq_some_iff.mp h
    obtain ⟨root, hroot, h⟩ := bind_eq_some_iff.mp h
    obtain ⟨matcher, hmatcher, h⟩ := bind_eq_some_iff.mp h
    split at h
    · cases h
    · next hopen =>
      obtain ⟨metadata, -, h⟩ := bind_eq_some_iff.mp h
      obtain rfl := Option.some.inj h
      obtain ⟨ls, hls, rfl⟩ := map_eq_some_iff.mp happroved
      refine ⟨_, metadata, ⟨rfl, fun entry hentry => ?_, fun hnone entry hentry => ?_,
        fun hdenies => ?_, root, hroot, ?_⟩, rfl⟩
      · obtain ⟨l, hl, heq⟩ := exists_mem_of_mapM hls hentry
        exact ⟨l, heq, fun m hm => mem_flatten.mpr ⟨l, hl, hm⟩⟩
      · by_contra hsome
        refine hsymbolic ⟨hnone, any_eq_true.mpr ⟨entry, hentry, ?_⟩⟩
        exact isSome_iff_ne_none.mpr hsome
      · obtain ⟨entry, hentry, hdeny⟩ := hdenies
        rw [tryReadDenyMatcher, if_neg] at hmatcher
        · split at hmatcher
          · next hvalid => exact hvalid
          · cases hmatcher
        · rw [Bool.not_eq_false, hasContextReadDenials, Bool.and_eq_true]
          exact ⟨rfl, any_eq_true.mpr ⟨entry, hentry, decide_eq_true hdeny⟩⟩
      · rw [Bool.or_eq_true, not_or, Bool.not_eq_true, Bool.not_eq_false'] at hopen
        exact of_decide_eq_true hopen.1

namespace Approves
variable {approved : FileSystemSandboxPolicy}

section
variable (h : Approves policy context approved)
include h

theorem cwd_lexical : ∃ cs, context.cwd.uri.lexical = some cs := by
  obtain ⟨root, hroot, -⟩ := h.writable
  exact cwd_lexical_of_fileSystemRoot hroot

theorem not_fileSystemRoot {entry : FileSystemSandboxEntry} (hentry : entry ∈ approved.entries)
    (hdeny : entry.access = .deny) {u : PathUri} (hu : u ∈ entryPaths context entry.path) :
    isFileSystemRoot context u = false := by
  obtain ⟨cs, hc⟩ := h.cwd_lexical
  obtain ⟨root, hroot, hwrite⟩ := h.writable
  rw [← Bool.not_eq_true, isFileSystemRoot_iff hc]
  intro hlexical
  rw [resolveAccess_restricted h.restricted, resolveAccess_eq_write_iff] at hwrite
  obtain ⟨-, -, ps, w, hps, hw, haccess⟩ := hwrite
  have hrootLexical : ps = [] := by
    rw [fileSystemRoot, lexicalDepth_of_lexical hc] at hroot
    obtain rfl := Option.some.inj hroot
    exact Option.some.inj (hps.symm.trans (root_lexical hc))
  have hrule : (⟨[], .deny⟩ : Rule Bytes) ∈ rulesOf context approved.entries :=
    mem_rulesOf.mpr ⟨entry, hentry, hdeny, u, hu, hlexical⟩
  have hkey := (key_le_iff _ w).mp (hw.max _ hrule List.nil_prefix)
  have hlength := hw.covers.length_le
  rw [hrootLexical] at hlength
  rw [haccess] at hkey
  simp only [length_nil, FileSystemAccessMode.precedence] at hkey hlength
  omega

theorem roots_lexical {entry : FileSystemSandboxEntry} (hentry : entry ∈ approved.entries)
    (hdeny : entry.access = .deny) :
    ∀ root ∈ context.workspaceRoots, ∃ rs, root.uri.lexical = some rs := by
  intro root hroot
  have hvalid := h.validated ⟨entry, hentry, hdeny⟩
  rw [validateContextPaths, Bool.and_eq_true, Bool.and_eq_true, all_eq_true] at hvalid
  have hpath := hvalid.1.2 root hroot
  rw [isContextPath, Bool.and_eq_true, lexicalDepth_of_posix root.posix, Option.isSome_map] at hpath
  exact Option.isSome_iff_exists.mp hpath.2

theorem exists_kept {entry : FileSystemSandboxEntry} (hentry : entry ∈ policy.entries)
    (hdeny : entry.access = .deny) : ∃ other l m, other.eq entry ∧ other.access = .deny ∧
      materializeProjectRootsEntry context.crates context.workspaceRoots other = some l ∧
      l ⊆ approved.entries ∧ m ∈ l ∧ ∀ m ∈ l, m.access = .deny := by
  obtain ⟨other, hother, heq⟩ := exists_eq_foldl_pushNew
    (policy.entries.filter fun entry => entry.access = .deny) [⟨.special .root, .write, false⟩]
    (mem_filter.mpr ⟨hentry, decide_eq_true hdeny⟩)
  have haccess : other.access = .deny := by
    have hsame := heq
    simp only [FileSystemSandboxEntry.eq, Bool.and_eq_true, decide_eq_true_eq] at hsame
    exact hsame.1.2.trans hdeny
  obtain ⟨l, hl, hsubset⟩ := h.materialized other hother
  obtain ⟨m, hm⟩ := exists_mem_materialized haccess (fun hnone => h.symbolic hnone other hother) hl
  exact ⟨other, l, m, heq, haccess, hl, hsubset, hm,
    fun m hm => deny_of_mem_materialized haccess hl hm⟩

end

end Approves

theorem path_eq_of_entryMatches {entry other : FileSystemSandboxEntry} {ps : List Bytes}
    (heq : other.eq entry) (hp : p.lexical = some ps)
    (h : EntryMatches context entry.path p) : other.path = entry.path := by
  rcases h with ⟨u, hu, -, hstarts⟩ | ⟨pattern, -, -, hpattern, -⟩
  · obtain ⟨us, hus, -⟩ := (startsWith_iff hp).mp hstarts
    rw [eq_of_entry_eq_of_mem heq hu (lexical_posix hus)]
  · rw [eq_of_entry_eq heq (by rw [hpattern]; exact fun _ h => by cases h)]

section Kept
variable {approved result : FileSystemSandboxPolicy} {metadata : List FileSystemSandboxEntry}
  {entry : FileSystemSandboxEntry} (h : Approves policy context approved)
  (hresult : result.entries = approved.entries ++ metadata)
  (hentry : entry ∈ policy.entries) (hdeny : entry.access = .deny)
include h hresult hentry hdeny

theorem Approves.matches_of_entry
    (hsubpath : ∀ subpath, entry.path = .special (.projectRoots (some subpath)) →
      relativeSubpath subpath = .ok subpath)
    (hglob : ∀ subpath, workspaceSubpath entry.path ≠ some (subpath, true))
    (hmatches : EntryMatches context entry.path p) :
    result.matchesReadDeny p context := by
  obtain ⟨other, l, m, heq, haccess, hl, hsubset, hm, hdenies⟩ := h.exists_kept hentry hdeny
  have hmem : ∀ {m}, m ∈ l → m ∈ result.entries := fun hm =>
    hresult ▸ mem_append_left metadata (hsubset hm)
  cases hp : p.lexical with
  | none => exact matchesReadDeny_of_not_lexical (hmem hm) (hdenies m hm) hp
  | some ps =>
    have hpath := path_eq_of_entryMatches heq hp hmatches
    obtain ⟨found, hfound, hcovers⟩ := entryMatches_materialized hp haccess
      (hpath ▸ hglob) (hpath ▸ hsubpath) hl (h.roots_lexical (hsubset hm) (hdenies m hm))
      (fun m hm u hu => h.not_fileSystemRoot (hsubset hm) (hdenies m hm) hu) (hpath ▸ hmatches)
    exact matchesReadDeny_of_entryMatches (hmem hfound) (hdenies found hfound) hcovers

theorem Approves.matches_of_materialized {l : List FileSystemSandboxEntry}
    {m : FileSystemSandboxEntry} (hworkspace : workspaceSubpath entry.path ≠ none)
    (hl : materializeProjectRootsEntry context.crates context.workspaceRoots entry = some l)
    (hm : m ∈ l) (hmatches : EntryMatches context m.path p) :
    result.matchesReadDeny p context := by
  obtain ⟨other, l', -, heq, -, hl', hsubset, -, hdenies⟩ := h.exists_kept hentry hdeny
  have hsame : other = entry := by
    refine eq_of_entry_eq heq fun path hpath => absurd ?_ hworkspace
    rw [hpath]
    rfl
  obtain rfl : l' = l := by
    rw [hsame] at hl'
    exact Option.some.inj (hl'.symm.trans hl)
  refine matchesReadDeny_of_entryMatches ?_ (hdenies m hm) hmatches
  rw [hresult]
  exact mem_append_left metadata (hsubset hm)

end Kept

theorem approved_command_keeps_denials (policy : FileSystemSandboxPolicy) (context : Context)
    (p : PathUri) (hkind : policy.kind = .restricted)
    (hsubpaths : ∀ entry ∈ policy.entries, ∀ subpath,
      entry.path = .special (.projectRoots (some subpath)) → relativeSubpath subpath = .ok subpath)
    (entry : FileSystemSandboxEntry) (hentry : entry ∈ policy.entries)
    (hdeny : entry.access = .deny) :
    ((∀ subpath, workspaceSubpath entry.path ≠ some (subpath, true)) →
        EntryMatches context entry.path p →
        (policy.forApprovedCommand context).matchesReadDeny p context = true) ∧
      (policy.forApprovedCommand context ≠ policy → workspaceSubpath entry.path ≠ none →
        ∀ l, materializeProjectRootsEntry context.crates context.workspaceRoots entry = some l →
          ∀ m ∈ l, EntryMatches context m.path p →
            (policy.forApprovedCommand context).matchesReadDeny p context = true) := by
  rw [forApprovedCommand, if_neg (not_not.mpr hkind)]
  cases happroved : policy.approvedPolicy context with
  | none =>
    rw [getD_none]
    exact ⟨fun _ hmatches => matchesReadDeny_of_entryMatches hentry hdeny hmatches,
      fun hne => absurd rfl hne⟩
  | some result =>
    obtain ⟨approved, metadata, happroves, hresult⟩ := approves_of_approvedPolicy happroved
    rw [getD_some]
    refine ⟨fun hglob hmatches => ?_, fun _ hworkspace l hl m hm hmatches => ?_⟩
    · exact happroves.matches_of_entry hresult hentry hdeny (hsubpaths entry hentry) hglob hmatches
    · exact happroves.matches_of_materialized hresult hentry hdeny hworkspace hl hm hmatches

theorem approved_command_keeps_denials_dotted :
    let policy := restricted [⟨.special .root, .read, false⟩, belowWorkspace "a/./b" .deny]
    let approved := policy.forApprovedCommand workspaceContext
    approved.resolveAccess (localFile ["x"]) workspaceContext = .write ∧
      approved.matchesReadDeny (localFile ["w", "a", "b", "x"]) workspaceContext = true := by
  intro policy approved
  refine ⟨by decide +kernel, ?_⟩
  refine (approved_command_keeps_denials policy workspaceContext _ rfl ?_
    (belowWorkspace "a/./b" .deny) (mem_cons_of_mem _ (mem_singleton_self _)) rfl).1 ?_ ?_
  · intro entry hentry subpath hpath
    rcases mem_cons.mp hentry with rfl | hentry
    · cases hpath
    · rw [mem_singleton.mp hentry] at hpath
      cases hpath
      decide +kernel
  · intro subpath hglob
    cases hglob
  · refine .inl ⟨localFile ["w", "a", "b"], ?_, by decide +kernel, by decide +kernel⟩
    have hpaths : entryPaths workspaceContext (belowWorkspace "a/./b" .deny).path =
        [localFile ["w", "a", "b"]] := by decide +kernel
    rw [hpaths]
    exact mem_singleton_self _

/-- A glob below the workspace roots is matched as a path of the working directory in the original
policy, and at the roots in the approved one. -/
theorem workspace_glob_is_not_kept :
    let context : Context :=
      ⟨literalCrates, ⟨localFile ["c"], rfl⟩, [⟨localFile ["w"], rfl⟩], none, none⟩
    let policy := restricted [⟨.globPattern "codex-project-roots://x".toList, .deny, false⟩]
    let path := localFile ["c", "codex-project-roots:", "x"]
    relativeSubpath "x".toList = .ok "x".toList ∧
      EntryMatches context (.globPattern "codex-project-roots://x".toList) path ∧
      policy.matchesReadDeny path context = true ∧
      (policy.forApprovedCommand context).matchesReadDeny path context = false := by
  intro context policy path
  refine ⟨by decide +kernel, .inr ⟨_, "/c/codex-project-roots:/x".toList, _, rfl, ?_, rfl, ?_⟩, ?_⟩
  · decide +kernel
  · decide +kernel
  · decide +kernel

end Permissions

end Codex

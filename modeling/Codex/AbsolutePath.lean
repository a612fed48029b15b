import Codex.Lib.Percent

/-! `AbsolutePathBuf` of `utils/absolute-path` as it is built outside Windows, with the bytes that
a Unix path consists of. -/

namespace Codex
open Codex.Lib Codex.Lib.Percent List

def IsNormalComponent (c : Bytes) : Prop := c ≠ [] ∧ c ≠ [dot] ∧ c ≠ [dot, dot] ∧ slash ∉ c

instance (c : Bytes) : Decidable (IsNormalComponent c) := by
  unfold IsNormalComponent
  infer_instance

/-- An absolute path, as the components below the root. The field says that it is normalized. -/
structure AbsolutePathBuf where
  components : List Bytes
  normal : ∀ c ∈ components, IsNormalComponent c
  deriving DecidableEq

namespace AbsolutePathBuf

theorem ext_components {p q : AbsolutePathBuf} (h : p.components = q.components) : p = q := by
  cases p
  cases q
  exact (mk.injEq ..).mpr h

def root : AbsolutePathBuf := ⟨[], fun _ h => absurd h not_mem_nil⟩

def push (self : AbsolutePathBuf) (c : Bytes) (h : IsNormalComponent c) : AbsolutePathBuf where
  components := self.components ++ [c]
  normal := by
    intro x hx
    rcases mem_append.mp hx with hx | hx
    · exact self.normal x hx
    · exact mem_singleton.mp hx ▸ h

def pop (self : AbsolutePathBuf) : AbsolutePathBuf where
  components := self.components.dropLast
  normal := fun x hx => self.normal x (dropLast_subset _ hx)

def parent (self : AbsolutePathBuf) : Option AbsolutePathBuf :=
  if self.components = [] then none else some self.pop

def startsWith (self base : AbsolutePathBuf) : Bool := base.components.isPrefixOf self.components

def ancestors (self : AbsolutePathBuf) : List AbsolutePathBuf :=
  (List.range (self.components.length + 1)).map fun n =>
    ⟨self.components.take (self.components.length - n),
      fun c hc => self.normal c (mem_of_mem_take hc)⟩

def bytes (self : AbsolutePathBuf) : Bytes :=
  if self.components = [] then [slash] else self.components.flatMap (slash :: ·)

/-- One round of the loop of `normalize_path` (absolutize.rs:27). The empty component is what
splitting leaves of repeated separators, which `Path::components` skips. -/
def pushComponent (self : AbsolutePathBuf) (c : Bytes) : AbsolutePathBuf :=
  if h : IsNormalComponent c then self.push c h
  else if c = [dot, dot] then self.pop
  else self

def normalizePath (self : AbsolutePathBuf) (path : Bytes) : AbsolutePathBuf :=
  (path.splitOn slash).foldl pushComponent self

def joinRelative (base rest : Bytes) : Bytes :=
  match base.getLast? with
  | none => rest
  | some b => if b = slash then base ++ rest else base ++ slash :: rest

def tilde : UInt8 := 126

/-- Only a Unicode path is expanded. -/
def maybeExpandHomeDirectory (home : Option Bytes) (path : Bytes) : Bytes :=
  match path, home with
  | first :: rest, some home =>
    if first ≠ tilde ∨ (Text.ofBytes? path).isNone then path
    else if rest = [] then home
    else if rest.head? = some slash then joinRelative home (rest.dropWhile (· = slash))
    else path
  | _, _ => path

def resolvePathAgainstBase (home : Option Bytes) (path : Bytes) (base : AbsolutePathBuf) :
    AbsolutePathBuf :=
  let expanded := maybeExpandHomeDirectory home path
  if expanded.head? = some slash then root.normalizePath expanded else base.normalizePath expanded

structure ProcessEnv where
  home : Option Bytes
  currentDir : Option Bytes

def fromAbsolutePath (env : ProcessEnv) (path : Bytes) : Option AbsolutePathBuf :=
  let expanded := maybeExpandHomeDirectory env.home path
  if expanded.head? = some slash then some (root.normalizePath expanded)
  else env.currentDir.map fun dir => (root.normalizePath dir).normalizePath expanded

def fileName (self : AbsolutePathBuf) : Option Bytes := self.components.getLast?

theorem components_foldl_pushComponent {cs : List Bytes} (self : AbsolutePathBuf)
    (h : ∀ c ∈ cs, c ≠ [] → IsNormalComponent c) :
    (cs.foldl pushComponent self).components =
      self.components ++ cs.filter fun c => !c.isEmpty := by
  induction cs generalizing self with
  | nil => simp
  | cons c cs ih =>
    rw [foldl_cons, ih _ fun c hc => h c (mem_cons_of_mem _ hc)]
    by_cases hc : c = []
    · subst hc
      rfl
    · have hname := h c mem_cons_self hc
      rw [filter_cons_of_pos (by simpa using hc), pushComponent, dif_pos hname]
      simp [push]

end AbsolutePathBuf

end Codex

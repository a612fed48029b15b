import Codex.Lib.Fallible
import Codex.Lib.Text
import Mathlib.Logic.Function.Basic

/-! What `apply-patch` uses of `ExecutorFileSystem` (`file-system/src/lib.rs`). A `FileSystem`
decides how each call ends from its number and the files, so that any pattern of failures is one. -/

namespace Codex.ApplyPatch
open Codex.Lib

abbrev Files (Path : Type) := Path → Option Text

inductive IoErrorKind where
  | notFound
  | invalidInput
  | other (code : Nat)
  deriving DecidableEq, Repr

structure FileMetadata where
  isDirectory : Bool
  isFile : Bool
  isSymlink : Bool
  deriving DecidableEq, Repr

/-- A read that succeeds returns the content, and one that fails with `NotFound` does so for want
of a file. A write that fails leaves any content or none at its target; a removal that fails may
have removed it. -/
structure FileSystem (Path : Type) where
  readFileText : Nat → Files Path → Path → Except IoErrorKind Text
  getMetadata : Nat → Files Path → Path → Except IoErrorKind FileMetadata
  writeFailure : Nat → Files Path → Path → Option (IoErrorKind × Option Text)
  createDirectoryFailure : Nat → Files Path → Path → Option IoErrorKind
  removeFailure : Nat → Files Path → Path → Option (IoErrorKind × Bool)
  read_ok : ∀ {n files path content}, readFileText n files path = .ok content →
    files path = some content
  read_notFound : ∀ {n files path}, readFileText n files path = .error .notFound →
    files path = none

/-- The file system without failures, for regular files only. -/
def FileSystem.reliable (Path : Type) : FileSystem Path where
  readFileText _ files path :=
    match files path with
    | some content => .ok content
    | none => .error .notFound
  getMetadata _ files path :=
    match files path with
    | some _ => .ok ⟨false, true, false⟩
    | none => .error .notFound
  writeFailure _ _ _ := none
  createDirectoryFailure _ _ _ := none
  removeFailure _ files path := if (files path).isSome then none else some (.notFound, false)
  read_ok := by
    intro n files path content h
    cases hf : files path with
    | none => simp [hf] at h
    | some c => simpa [hf] using h
  read_notFound := by
    intro n files path h
    cases hf : files path with
    | none => rfl
    | some c => simp [hf] at h

end Codex.ApplyPatch

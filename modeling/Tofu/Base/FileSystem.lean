import Mathlib.Logic.Function.Basic

/-!
# Files

A file system maps canonical paths to contents. Several paths may name one file; a path
without a file has no canonical form. `none` is an error of the operating system.
-/

namespace Tofu

/-- The characters of a path. -/
abbrev Path := List Char

/-- Files by their canonical paths, how a path is resolved and which ones can be written. -/
structure FileSystem where
  files : Path → Option (List UInt8)
  resolve : Path → Path
  writable : Path → Bool
  /-- The text of an error. -/
  errorText : String

namespace FileSystem

variable (fs : FileSystem) (p : Path)

/-- `std::fs::read`. -/
def read : Option (List UInt8) := fs.files (fs.resolve p)

/-- Open, seek to `offset`, and `File::read` into a buffer of `size` bytes, which returns
what is left of the file up to that size. -/
def readAt (offset size : Nat) : Option (List UInt8) :=
  (fs.read p).map fun content ↦ (content.drop offset).take size

/-- `Path::canonicalize`. -/
def canonicalize : Option Path := if (fs.read p).isSome then some (fs.resolve p) else none

/-- `std::fs::write`. -/
def write (content : List UInt8) : Option FileSystem :=
  if fs.writable p then
    some { fs with files := Function.update fs.files (fs.resolve p) (some content) }
  else none

variable {fs p}

/-- One writable file, under its canonical path. -/
def single (path : Path) (content : List UInt8) : FileSystem :=
  { files := fun p ↦ if p = path then some content else none
    resolve := id
    writable := fun _ ↦ true
    errorText := "" }

section Write

variable {fs' : FileSystem} {content : List UInt8} {q : Path}

/-- What was written could be. -/
theorem writable_of_write (h : fs.write p content = some fs') : fs.writable p = true := by
  unfold write at h
  split at h
  · assumption
  · cases h

private theorem eq_of_write (h : fs.write p content = some fs') :
    fs' = { fs with files := Function.update fs.files (fs.resolve p) (some content) } := by
  unfold write at h
  split at h
  · exact (Option.some.inj h).symm
  · cases h

/-- What is written is what is read, under every path of the file. -/
theorem read_of_write_eq (h : fs.write p content = some fs')
    (hq : fs.resolve q = fs.resolve p) : fs'.read q = some content := by
  obtain rfl := eq_of_write h
  show Function.update fs.files (fs.resolve p) (some content) (fs.resolve q) = some content
  rw [hq, Function.update_self]

/-- What is written is what is read. -/
theorem read_of_write (h : fs.write p content = some fs') : fs'.read p = some content :=
  read_of_write_eq h rfl

/-- The other files are as before. -/
theorem read_of_write_ne (h : fs.write p content = some fs')
    (hq : fs.resolve q ≠ fs.resolve p) : fs'.read q = fs.read q := by
  obtain rfl := eq_of_write h
  exact Function.update_of_ne hq _ _

end Write

/-- A path is resolved exactly when there is a file behind it. -/
theorem isSome_canonicalize : (fs.canonicalize p).isSome ↔ (fs.read p).isSome := by
  unfold canonicalize
  split
  · next h => simp [h]
  · next h => simp [h]

/-- It is then resolved as the file system says. -/
theorem canonicalize_of_isSome (h : (fs.canonicalize p).isSome) :
    fs.canonicalize p = some (fs.resolve p) := if_pos (isSome_canonicalize.mp h)

/-- Paths name the same files, and every file is still there. -/
structure Extends (fs fs' : FileSystem) : Prop where
  resolve : fs'.resolve = fs.resolve
  canonicalize : ∀ p, (fs.canonicalize p).isSome → (fs'.canonicalize p).isSome

namespace Extends

/-- A file system extends itself. -/
theorem refl (fs : FileSystem) : Extends fs fs := ⟨rfl, fun _ h ↦ h⟩

/-- Writes after each other only add files. -/
theorem trans {fs fs' fs'' : FileSystem} (h : Extends fs fs') (h' : Extends fs' fs'') :
    Extends fs fs'' :=
  ⟨h'.resolve.trans h.resolve, fun p hp ↦ h'.canonicalize p (h.canonicalize p hp)⟩

end Extends

/-- A write resolves paths as before and takes no file away. -/
theorem extends_of_write {fs' : FileSystem} {content : List UInt8}
    (h : fs.write p content = some fs') : fs.Extends fs' := by
  refine ⟨by rw [eq_of_write h], fun q hq ↦ ?_⟩
  rw [isSome_canonicalize] at hq ⊢
  by_cases hc : fs.resolve q = fs.resolve p
  · rw [read_of_write_eq h hc]
    rfl
  · rwa [read_of_write_ne h hc]

end FileSystem

end Tofu

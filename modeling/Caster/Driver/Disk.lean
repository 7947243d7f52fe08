import Caster.Driver.ImportOrder
import Caster.Library.UnixPath

/-!
# Files without links

A tree of directories and files, none of which is a link.  A path leads through directories
from the working directory or from the top.
-/

namespace Caster.Driver

open UnixPath

/-- Something on a way to a file or to the working directory is a directory. -/
def isDirectory (cwd : List Text) (files : List (List Text × Text)) (loc : List Text) : Bool :=
  loc.isPrefixOf cwd || files.any fun file => loc.isPrefixOf file.1 && loc ≠ file.1

/-- The working directory, and the files with their texts. -/
structure Disk where
  cwd : List Text
  files : List (List Text × Text)
  cwd_names : ∀ name ∈ cwd, IsName name
  file_names : ∀ file ∈ files, ∀ name ∈ file.1, IsName name
  apart : ∀ file ∈ files, isDirectory cwd files file.1 = false

namespace Disk

variable (disk : Disk)

/-- A directory. -/
def isDir (loc : List Text) : Bool := isDirectory disk.cwd disk.files loc

/-- Where a path leads. -/
def find (path : Path) : Option (List Text) := locate disk.isDir disk.cwd path

/-- The text of a file. -/
def textAt (loc : List Text) : Option Text := disk.files.lookup loc

/-- The files that are read through paths.  The path of what does not exist stays as it is. -/
def fileSystem (repoRoot : Path) : FileSystem where
  canonical path :=
    match disk.find path with
    | some loc => if disk.isDir loc ∨ (disk.textAt loc).isSome then render true loc else path
    | none => path
  fileExists path := ((disk.find path).bind disk.textAt).isSome
  read path := (disk.find path).bind disk.textAt
  repoRoot := repoRoot

variable {disk} {loc : List Text} {text : Text} {repoRoot : Path} {path : Path}

theorem isDir_iff : disk.isDir loc = true ↔ loc <+: disk.cwd ∨ ∃ file ∈ disk.files, loc <+: file.1 ∧ loc ≠ file.1 := by
  simp [isDir, isDirectory, List.isPrefixOf_iff_prefix]

theorem isDir_root : disk.isDir [] = true := isDir_iff.mpr (Or.inl List.nil_prefix)

theorem isDir_cwd : disk.isDir disk.cwd = true := isDir_iff.mpr (Or.inl List.prefix_rfl)

theorem isDir_dropLast (h : disk.isDir loc = true) : disk.isDir loc.dropLast = true := by
  have hshort : loc.dropLast <+: loc := List.dropLast_prefix loc
  rcases isDir_iff.mp h with h | ⟨file, hfile, hle, hne⟩
  · exact isDir_iff.mpr (Or.inl (hshort.trans h))
  · refine isDir_iff.mpr (Or.inr ⟨file, hfile, hshort.trans hle, fun heq => hne ?_⟩)
    apply hle.eq_of_length
    have hlen := hshort.length_le
    rw [heq] at hlen
    exact Nat.le_antisymm hle.length_le hlen

theorem mem_of_textAt (h : disk.textAt loc = some text) : (loc, text) ∈ disk.files := by
  unfold textAt at h
  obtain ⟨l₁, l₂, heq, _⟩ := List.lookup_eq_some_iff.mp h
  rw [heq]
  exact List.mem_append_right _ List.mem_cons_self

theorem not_isDir (h : disk.textAt loc = some text) : disk.isDir loc = false :=
  disk.apart _ (mem_of_textAt h)

theorem isName_of_textAt (h : disk.textAt loc = some text) {name : Text} (hname : name ∈ loc) : IsName name :=
  disk.file_names _ (mem_of_textAt h) name hname

/-- The parts of the place of a file lead to directories. -/
theorem isDir_of_prefix (h : disk.textAt loc = some text) {front : List Text} (hfront : front <+: loc)
    (hne : front ≠ loc) :
  disk.isDir front = true
  := isDir_iff.mpr (Or.inr ⟨_, mem_of_textAt h, hfront, hne⟩)

/-- The path of a file from the top leads to it. -/
theorem find_render (h : disk.textAt loc = some text) {front : List Text} (hfront : front <+: loc) :
  disk.find (render true front) = some front
  := by
  have hname : ∀ name ∈ front, IsName name := fun name hname => isName_of_textAt h (hfront.subset hname)
  rw [find, locate_render isDir_root isDir_cwd fun part hpart => ⟨(hname part hpart).1, (hname part hpart).2.2.2⟩]
  apply walk_names hname
  intro before hbefore hne
  apply isDir_of_prefix h (hbefore.trans hfront)
  intro heq
  have hle := hfront.length_le
  rw [← heq] at hle
  exact hne (hbefore.eq_of_length (Nat.le_antisymm hbefore.length_le hle))

/-- A path leads to a file. -/
theorem read_eq_some : (disk.fileSystem repoRoot).read path = some text ↔
    ∃ loc, disk.find path = some loc ∧ disk.textAt loc = some text
  := Option.bind_eq_some_iff

theorem fileExists_iff : (disk.fileSystem repoRoot).fileExists path = true ↔
    ∃ loc text, disk.find path = some loc ∧ disk.textAt loc = some text
  := by
  show ((disk.find path).bind disk.textAt).isSome = true ↔ _
  rw [Option.isSome_iff_exists]
  simp only [Option.bind_eq_some_iff]
  tauto

theorem canonical_eq (hfind : disk.find path = some loc) (h : disk.textAt loc = some text) :
  (disk.fileSystem repoRoot).canonical path = render true loc
  := by
  simp [fileSystem, hfind, h]

theorem read_render (h : disk.textAt loc = some text) :
  (disk.fileSystem repoRoot).read (render true loc) = some text
  := read_eq_some.mpr ⟨loc, find_render h List.prefix_rfl, h⟩

end Disk

end Caster.Driver

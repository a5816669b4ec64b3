import SymbolicMemory.Error
import SymbolicMemory.FileName

/-! # Files

What is read from files is asked for by name. A directory of named contents answers
without a disk.
-/

namespace SymbolicMemory

/-- A way to read files by name. -/
abbrev FileReader (m : Type → Type) := String → m (Except FileProblem ByteArray)

/-- Files below one directory. The directories on the way to a file are there too. -/
structure FileTree where
  /-- Every file: the steps that lead to it, and what it holds. -/
  files : List (List (List Char) × ByteArray) := []

namespace FileTree

/-- Files with their names. -/
def ofList (files : List (String × ByteArray)) : FileTree where
  files := files.map fun (name, content) =>
    (((Text.pieces '/' name.toList).foldl (FileName.step false) []).reverse, content)

/-- The content of the file at the end of a way. -/
def file? (t : FileTree) (way : List (List Char)) : Option ByteArray := t.files.lookup way

/-- Whether a way leads to a directory. -/
def isDirectory (t : FileTree) (way : List (List Char)) : Bool :=
  way.isEmpty || t.files.any fun (steps, _) => way.isPrefixOf steps && steps != way

/-- How many bytes a step on the way to a file has at most. -/
def maxStep : Nat := 255

/-- How many bytes a name has at most. -/
def maxName : Nat := 4095

/-- Whether a step is too long to lead anywhere. -/
def isLong (part : List Char) : Bool := maxStep < (String.ofList part).utf8ByteSize

/-- Follows a name outside the tree, where there is nothing but directories above it. -/
def followOutside : (parts : List (List Char)) → FileProblem
  | [] => .isDirectory
  | part :: rest =>
    if part = [] ∨ part = ['.'] ∨ part = ['.', '.'] then followOutside rest
    else if isLong part then .longName
    else .missing

/-- Follows a name from a place in the tree. -/
def follow (t : FileTree) : (way : List (List Char)) → (parts : List (List Char)) →
    Except FileProblem ByteArray
  | way, [] =>
    match t.file? way with
    | some content => .ok content
    | none => .error .isDirectory
  | way, part :: rest =>
    if (t.file? way).isSome then .error .notDirectory
    else if part = [] ∨ part = ['.'] then t.follow way rest
    else if part = ['.', '.'] then
      if way.isEmpty then .error (followOutside rest) else t.follow way.dropLast rest
    else if isLong part then .error .longName
    else
      let next := way ++ [part]
      if (t.file? next).isSome || t.isDirectory next then t.follow next rest else .error .missing

/-- What a name leads to. The empty name leads nowhere, and no file has an absolute name. -/
def read (t : FileTree) : FileReader Id := fun name =>
  let parts := Text.pieces '/' name.toList
  if name.toList.contains '\x00' then .error .impossibleName
  else if name = "" then .error .missing
  else if maxName < name.utf8ByteSize then .error .longName
  else if FileName.isAbsolute name then .error (followOutside parts)
  else t.follow [] parts

end FileTree

end SymbolicMemory

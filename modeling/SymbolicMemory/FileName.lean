import SymbolicMemory.Text.Split

/-! # File names

A file name lists the directories on the way, with slashes between them. Names are
worked on as they are written; whether anything stands behind one is not asked here.
-/

namespace SymbolicMemory.FileName

/-- Whether a name starts at the root. -/
def isAbsolute (name : String) : Bool := name.toList.head? == some '/'

/-- Goes one step further along a way, which is listed last step first. A step up takes the last
    step back; above the root there is nothing, and a relative way may start with steps up. -/
def step (rooted : Bool) (way : List (List Char)) (part : List Char) : List (List Char) :=
  if part = [] ∨ part = ['.'] then way
  else if part = ['.', '.'] then
    match way with
    | [] => if rooted then [] else [part]
    | last :: before => if last = ['.', '.'] then part :: way else before
  else part :: way

/-- The shortest name for the same way. -/
def clean (name : String) : String :=
  let rooted := isAbsolute name
  let way := (Text.pieces '/' name.toList).foldl (step rooted) []
  let joined := "/".intercalate (way.reverse.map String.ofList)
  if rooted then "/" ++ joined else if joined = "" then "." else joined

/-- The directory that a file is in. -/
def directory (name : String) : String :=
  clean (String.ofList (name.toList.reverse.dropWhile (· ≠ '/')).reverse)

/-- The name of a file in a directory, as seen from outside. -/
def join (directory name : String) : String := clean (directory ++ "/" ++ name)

end SymbolicMemory.FileName

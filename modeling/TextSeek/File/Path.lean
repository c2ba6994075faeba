import TextSeek.Error

/-!
# Paths

A `Path` names a place by the steps that lead to it from the root, the last
step first. A path text is a row of steps that slashes divide. It starts at
the root if a slash stands in front, else at the working directory. An empty
step and `.` stay where they are, `..` goes up (and stays at the root), and
every other step goes to what has that name. A step can be taken only from a
directory, so a slash behind the name of a file leads nowhere.

**Results.**
* `walk_append`: a path can be walked in two parts.
-/
namespace TextSeek

/-- The steps to a place from the root, the last one first. -/
abbrev Path := List String

/-- What a path text leads to. -/
inductive Place where
  /-- A file, by its number. -/
  | file (number : Nat)
  | directory (path : Path)
  deriving DecidableEq, Repr

namespace Path

/-- The most bytes in one step. -/
def stepLimit : Nat := 255

/-- The least number of bytes that is too many for a path text. -/
def textLimit : Nat := 4096

/-- Takes one step. `known?` says what stands at a path. -/
def step (known? : Path → Option Place) (place : Place) (name : String) : Except IoError Place :=
  match place with
  | .file _ => .error .notDirectory
  | .directory path =>
    if name = "" ∨ name = "." then .ok place
    else if name = ".." then .ok (.directory path.tail)
    else if stepLimit < name.utf8ByteSize then .error .nameTooLong
    else
      match known? (name :: path) with
      | none => .error .noSuchFile
      | some next => .ok next

def walk (known? : Path → Option Place) (place : Place) (names : List String) :
    Except IoError Place :=
  names.foldlM (step known?) place

def steps (text : String) : List String := (text.toList.splitOn '/').map String.ofList

/-- Where the steps of a path text begin. -/
def start (working : Path) (text : String) : Path :=
  if text.toList.head? = some '/' then [] else working

def locate (known? : Path → Option Place) (working : Path) (text : String) : Except IoError Place :=
  if text.isEmpty then .error .noSuchFile
  else if textLimit ≤ text.utf8ByteSize then .error .nameTooLong
  else walk known? (.directory (start working text)) (steps text)

theorem walk_append (known? : Path → Option Place) (place : Place) (front back : List String) :
    walk known? place (front ++ back) = walk known? place front >>= fun p => walk known? p back := by
  simp [walk, List.foldlM_append]

end Path
end TextSeek

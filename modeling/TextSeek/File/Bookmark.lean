import TextSeek.File.IndexedFile

/-!
# Bookmarks

A `Bookmark` remembers the byte that the last successful lookup led to. Every
caller can hold its own; a failed lookup leaves it as it was.

**Results.**
* `visit_error`: a failed lookup leaves the bookmark alone.
-/
namespace TextSeek

/-- The place of the last successful lookup. -/
structure Bookmark where
  last : Option Nat := none
  deriving DecidableEq, Repr

namespace Bookmark

/-- Remembers the place of an outcome, if it is a success. -/
def visit {α : Type} (b : Bookmark) (place : α → Nat) (outcome : Except AccessError α) :
    Except AccessError α × Bookmark :=
  match outcome with
  | .ok value => (.ok value, ⟨some (place value)⟩)
  | .error error => (.error error, b)

theorem visit_error {α : Type} (b : Bookmark) (place : α → Nat) (error : AccessError) :
    b.visit place (.error error) = (.error error, b) := rfl

def positionOf (b : Bookmark) (f : IndexedFile) (file : Source) (target : Target) :
    Except AccessError Nat × Bookmark :=
  b.visit id (f.positionOf file target)

def readerAt (b : Bookmark) (f : IndexedFile) (file : Source) (target : Target) :
    Except AccessError TextReader × Bookmark :=
  b.visit TextReader.position (f.readerAt file target f.config.readerBuffer)

def readerAtByte (b : Bookmark) (f : IndexedFile) (file : Source) (offset : Nat) :
    Except AccessError TextReader × Bookmark :=
  b.visit (fun _ => offset) (f.readerAtByte file offset f.config.readerBuffer)

def forget (_ : Bookmark) : Bookmark := {}

end Bookmark
end TextSeek

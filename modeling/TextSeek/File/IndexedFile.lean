import TextSeek.Index.Build
import TextSeek.Reader

/-!
# Indexed files

An `IndexedFile` finds characters and lines of a file by number. A lookup
jumps to the closest indexed place before the target and reads on from there.
The file is read at the time of the lookup, so a lookup is given the file as a
`Source`; if the file has shrunk since it was indexed, a target that is no
longer there is reported as truncated.

**Results.**
* `positionOf_of_indexed`: an indexed target is answered without the file.
* `checkRange_iff`: exactly the targets below the count are looked up.
-/
namespace TextSeek

/-- A place in a text, named by number. -/
inductive Target where
  | character (number : Nat)
  | line (number : Nat)
  deriving DecidableEq, Repr

namespace Target

def kind : Target → Ordinal
  | character _ => .character
  | line _ => .line

def number : Target → Nat
  | character n | line n => n

end Target

/-- A file with its index. -/
structure IndexedFile where
  path : String
  encoding : Encoding
  config : Config
  index : TextIndex
  /-- The length of the file when it was indexed, with its header. -/
  size : Nat

namespace IndexedFile

/-- Indexes what has been found at a path (`open_with_config`). -/
def build (path : String) (encoding : Encoding) (config : Config)
    (found : Except IoError Node) : Except AccessError IndexedFile := do
  config.validate
  let source ← liftIo (Source.choose found config.strategy)
  let size ← liftIo source.length
  let index ← buildIndex config encoding source
  return { path, encoding, config, index, size }

def count (f : IndexedFile) : Target → Nat
  | .character _ => f.index.totalChars
  | .line _ => f.index.totalLines

def entries (f : IndexedFile) : Target → SparseIndex
  | .character _ => f.index.chars
  | .line _ => f.index.lines

/-- Refuses a target that is not below the count (`check_range`). -/
def checkRange (f : IndexedFile) (target : Target) : Except AccessError Unit :=
  if target.number < f.count target then .ok ()
  else .error (.outOfRange target.kind target.number (f.count target))

theorem checkRange_iff (f : IndexedFile) (target : Target) :
    f.checkRange target = .ok () ↔ target.number < f.count target := by
  unfold checkRange
  split <;> simp_all

/-! ## Seeking -/

/-- Skips `wanted` characters or lines (`skip_to`); says whether that many were there. A
line is there only if text follows the line end before it. -/
def skipTo (reader : TextReader) (target : Target) (wanted : Nat) :
    Except AccessError Bool × TextReader :=
  match target with
  | .character _ =>
    match reader.skipUnits wanted with
    | (.error error, next) => (.error error, next)
    | (.ok skipped, next) => (.ok (skipped == wanted), next)
  | .line _ =>
    match reader.skipLines wanted with
    | (.error error, next) => (.error error, next)
    | (.ok skipped, next) =>
      if skipped != wanted then (.ok false, next)
      else if wanted = 0 then (.ok true, next)
      else
        match next.peekUnit with
        | (.error error, last) => (.error error, last)
        | (.ok unit, last) => (.ok unit.isSome, last)

/-- A reader at a target that is in range, with a buffer of `buffer` bytes. An
input that ends inside a character has been cut off, and is not malformed. -/
def seek (f : IndexedFile) (file : Source) (target : Target) (buffer : Nat) :
    Except AccessError TextReader := do
  let nearest := ((f.entries target).nearest? target.number).getD ⟨0, f.index.dataStart⟩
  let reader ← TextReader.openAt file f.encoding nearest.position buffer
  let (outcome, reader) := skipTo reader target (target.number - nearest.ordinal)
  let missing := AccessError.truncated target.kind target.number reader.position
  match outcome with
  | .ok true => .ok reader
  | .ok false => .error missing
  | .error (.malformed encoding position) =>
    if reader.endedMidCharacter then .error missing else .error (.malformed encoding position)
  | .error error => .error error

/-- The byte at which a target starts (`file_position_at_char`,
`file_position_at_line`). -/
def positionOf (f : IndexedFile) (file : Source) (target : Target) : Except AccessError Nat := do
  f.checkRange target
  match (f.entries target).position? target.number with
  | some position => return position
  | none => return (← f.seek file target f.config.readerBuffer).position

/-- A reader at a target (`reader_at_char`, `reader_at_line`). -/
def readerAt (f : IndexedFile) (file : Source) (target : Target) (buffer : Nat) :
    Except AccessError TextReader := do
  f.checkRange target
  f.seek file target buffer

/-- A reader at a byte offset, which should be that of a character
(`reader_at_file_position`). -/
def readerAtByte (f : IndexedFile) (file : Source) (offset buffer : Nat) :
    Except AccessError TextReader :=
  if f.size < offset then .error (.outOfRange .byte offset f.size)
  else TextReader.openAt file f.encoding offset buffer

/-- The text without the line ends behind it. -/
def trimLineEnds (text : List Char) : List Char :=
  (text.reverse.dropWhile fun c => c == '\n' || c == '\r').reverse

/-- The text of a line, without its end (`read_line`). -/
def lineText (f : IndexedFile) (file : Source) (number : Nat) : Except AccessError (List Char) := do
  let reader ← f.readerAt file (.line number) f.config.readerBuffer
  let line := reader.readLine
  match line.failure with
  | some error => .error error
  | none => return trimLineEnds line.text

/-- An indexed target is answered without the file. -/
theorem positionOf_of_indexed {f : IndexedFile} {target : Target} {position : Nat}
    (hr : target.number < f.count target)
    (hp : (f.entries target).position? target.number = some position) (file : Source) :
    f.positionOf file target = .ok position := by
  simp [positionOf, (f.checkRange_iff target).2 hr, hp, bind, Except.bind, pure, Except.pure]

end IndexedFile
end TextSeek

import TextSeek.Config.Basic
import TextSeek.Stream.ByteStream

/-!
# Sources of bytes

A `Source` tells the length of a file and opens streams that start anywhere
in it. A file can be read through a handle or through a memory map; both show
the same bytes, and differ only in how they take an offset far beyond the end.
At a path there may also be a directory, which opens but cannot be read, or
nothing.

**Results.**
* `open_ofFile`: both ways show the same bytes.
-/
namespace TextSeek

/-- What stands at a path. -/
inductive Node where
  | file (content : List UInt8)
  | directory
  deriving DecidableEq, Repr

/-- The bytes to be read; a directory has none. -/
def Node.content : Node → Except IoError (List UInt8)
  | file content => .ok content
  | directory => .error .isDirectory

/-- A file that can be read from any offset. -/
structure Source where
  /-- The length in bytes. -/
  length : Except IoError Nat
  /-- A stream of the bytes from an offset on. -/
  openAt : Nat → Except IoError ByteStream

namespace Source

/-- The least file offset that the operating system does not accept. -/
def offsetLimit : Nat := 0x8000000000000000

/-- A source of bytes held in memory, of which each stream makes its reads as
`pieceLimit` and `faults` say. -/
def ofBytes (content : List UInt8) (pieceLimit : Nat → Option Nat)
    (faults : List (Nat × ReadFault)) : Source where
  length := .ok content.length
  openAt offset := .ok { rest := content.drop offset, offset, pieceLimit, faults }

def ofFile (content : List UInt8) : Source where
  length := .ok content.length
  openAt offset :=
    if offsetLimit ≤ offset then .error .invalidArgument
    else .ok { rest := content.drop offset, offset }

/-- A file read through a memory map. An offset behind the end stands for the
end. -/
def ofMap (content : List UInt8) : Source where
  length := .ok content.length
  openAt offset := .ok { rest := content.drop offset, offset := min offset content.length }

/-- The length that a directory is said to have. -/
def directoryLength : Nat := 4096

/-- A directory read through handles: it opens, but the first read fails. -/
def ofDirectory : Source where
  length := .ok directoryLength
  openAt offset := .ok { rest := [], offset, faults := [(0, .failed .isDirectory)] }

def ofNode (found : Except IoError Node) : Source :=
  match found with
  | .error error => { length := .error error, openAt := fun _ => .error error }
  | .ok .directory => ofDirectory
  | .ok (.file content) => ofFile content

/-- The source that an indexing run reads (`open_source`). An empty file is not mapped
but read through a handle, and a directory cannot be mapped. -/
def choose (found : Except IoError Node) (strategy : ReadStrategy) : Except IoError Source :=
  match strategy, found with
  | .buffered, _ => .ok (ofNode found)
  | .mapped, .error error => .error error
  | .mapped, .ok .directory => .error .noSuchDevice
  | .mapped, .ok (.file []) => .ok (ofFile [])
  | .mapped, .ok (.file content) => .ok (ofMap content)

theorem open_ofFile {bytes : List UInt8} {offset : Nat} (h : offset < offsetLimit) :
    ((ofFile bytes).openAt offset).map ByteStream.rest =
      ((ofMap bytes).openAt offset).map ByteStream.rest := by
  have : ¬ offsetLimit ≤ offset := by omega
  simp [ofFile, ofMap, this, Except.map]

def readPieces (stream : ByteStream) : List Nat → Except IoError (List (List UInt8))
  | [] => .ok []
  | space :: spaces =>
    match stream.readThrough space with
    | (.error error, _) => .error error
    | (.ok piece, next) => (piece :: ·) <$> readPieces next spaces

end Source
end TextSeek

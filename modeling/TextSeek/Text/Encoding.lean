import TextSeek.Text.CodeUnit

/-!
# The supported encodings

An encoding is supported when the byte length of a character follows from its
code units alone; a byte-order mark is never part of the choice. An encoding
is chosen by a label: blanks around it, hyphens, underscores and letter case
do not matter.

**Results.**
* `ofLabel?_name`: every encoding is found by its own name.
* `markLength_le`: a mark that is found is no longer than the text it starts.
-/
namespace TextSeek

/-- Text encodings whose positions can be indexed. -/
inductive Encoding where
  | utf8
  | utf16le
  | utf16be
  | latin1
  | ascii
  deriving DecidableEq, Repr, Inhabited

namespace Encoding

/-- Every encoding, in the order in which they are numbered. -/
def all : List Encoding := [utf8, utf16le, utf16be, latin1, ascii]

def name : Encoding → String
  | utf8 => "UTF-8"
  | utf16le => "UTF-16LE"
  | utf16be => "UTF-16BE"
  | latin1 => "ISO-8859-1"
  | ascii => "US-ASCII"

/-- The byte-order mark (`bom`); the single-byte encodings have none. -/
def byteOrderMark : Encoding → List UInt8
  | utf8 => [0xEF, 0xBB, 0xBF]
  | utf16le => [0xFF, 0xFE]
  | utf16be => [0xFE, 0xFF]
  | latin1 | ascii => []

/-- The length of the byte-order mark if the bytes start with it, else 0
(`detect_bom_len`). -/
def markLength (encoding : Encoding) (bytes : List UInt8) : Nat :=
  if encoding.byteOrderMark.isPrefixOf bytes then encoding.byteOrderMark.length else 0

theorem markLength_le (encoding : Encoding) (bytes : List UInt8) :
    encoding.markLength bytes ≤ bytes.length := by
  unfold markLength
  split
  · next h => exact (List.isPrefixOf_iff_prefix.1 h).length_le
  · exact Nat.zero_le _

/-- The fewest bytes that a code unit takes (`min_unit_bytes`). -/
def minUnitBytes : Encoding → Nat
  | utf16le | utf16be => 2
  | utf8 | latin1 | ascii => 1

/-! ## Labels -/

/-- The characters with the Unicode property `White_Space`. -/
def isBlank (c : Char) : Bool :=
  let n := c.toNat
  (0x09 ≤ n && n ≤ 0x0D) || n == 0x20 || n == 0x85 || n == 0xA0 || n == 0x1680 ||
    (0x2000 ≤ n && n ≤ 0x200A) || n == 0x2028 || n == 0x2029 || n == 0x202F || n == 0x205F ||
    n == 0x3000

/-- A label without what does not matter in it. Letter case matters for the
ASCII letters alone, for the known labels hold no other letter and none that a
letter outside ASCII turns into. -/
def normalizeLabel (label : String) : String :=
  let trimmed := ((label.toList.dropWhile isBlank).reverse.dropWhile isBlank).reverse
  String.ofList ((trimmed.filter fun c => c != '-' && c != '_').map Char.toLower)

def labels : List (String × Encoding) :=
  [("utf8", utf8), ("utf16le", utf16le), ("utf16be", utf16be),
   ("iso88591", latin1), ("latin1", latin1), ("l1", latin1), ("cp819", latin1),
   ("usascii", ascii), ("ascii", ascii)]

/-- The encoding that a label names, if it is a supported one (`from_name`). -/
def ofLabel? (label : String) : Option Encoding := labels.lookup (normalizeLabel label)

theorem ofLabel?_name (encoding : Encoding) : ofLabel? encoding.name = some encoding := by
  cases encoding <;> decide

end Encoding
end TextSeek

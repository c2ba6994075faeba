import TextSeek.Text.Encoding

/-!
# Writing characters

The standard encoding of a character and of a text. Latin-1 and ASCII can
write only their own characters.

**Results.**
* `encodeChar?_isSome`: which characters an encoding can write.
-/
namespace TextSeek

def littleEndian (unit : UInt16) : List UInt8 := [unit.toUInt8, (unit / 256).toUInt8]

def bigEndian (unit : UInt16) : List UInt8 := [(unit / 256).toUInt8, unit.toUInt8]

namespace Encoding

def canWrite : Encoding → Char → Bool
  | utf8, _ | utf16le, _ | utf16be, _ => true
  | latin1, c => c.toNat < 0x100
  | ascii, c => c.toNat < 0x80

def encodeChar? (encoding : Encoding) (c : Char) : Option (List UInt8) :=
  match encoding with
  | utf8 => some (String.utf8EncodeChar c)
  | utf16le => some ((CodeUnit.ofChar c).flatMap littleEndian)
  | utf16be => some ((CodeUnit.ofChar c).flatMap bigEndian)
  | latin1 => if c.toNat < 0x100 then some [c.toNat.toUInt8] else none
  | ascii => if c.toNat < 0x80 then some [c.toNat.toUInt8] else none

def encode? (encoding : Encoding) : List Char → Option (List UInt8)
  | [] => some []
  | c :: rest => do
    let front ← encoding.encodeChar? c
    let back ← encoding.encode? rest
    return front ++ back

theorem encodeChar?_isSome (encoding : Encoding) (c : Char) :
    (encoding.encodeChar? c).isSome = encoding.canWrite c := by
  cases encoding <;> simp only [encodeChar?, canWrite, Option.isSome_some]
  all_goals split <;> simp_all

end Encoding
end TextSeek

/-!
# UTF-16 code units

Positions in a text are counted in UTF-16 code units. A character of the
Basic Multilingual Plane is one unit; a supplementary character is two, a
high surrogate followed by a low one.

**Results.**
* `isLowSurrogate_eq_false_of_high`: no unit is both halves of a pair.
* `ofChar_length`: a character is one unit or two, and two exactly from
  U+10000 on.
-/
namespace TextSeek

def carriageReturn : UInt16 := 0x0D

def lineFeed : UInt16 := 0x0A

namespace CodeUnit

/-- The first half of a surrogate pair (`is_high_surrogate`). -/
def isHighSurrogate (unit : UInt16) : Bool := 0xD800 ≤ unit && unit ≤ 0xDBFF

/-- The second half of a surrogate pair (`is_low_surrogate`). -/
def isLowSurrogate (unit : UInt16) : Bool := 0xDC00 ≤ unit && unit ≤ 0xDFFF

theorem isLowSurrogate_eq_false_of_high {unit : UInt16} (h : isHighSurrogate unit = true) :
    isLowSurrogate unit = false := by
  simp only [isHighSurrogate, isLowSurrogate, Bool.and_eq_true, decide_eq_true_eq,
    UInt16.le_iff_toNat_le] at h ⊢
  simp only [Bool.and_eq_false_iff, decide_eq_false_iff_not, Nat.not_le]
  left
  have := h.2
  simp only [UInt16.reduceToNat] at this ⊢
  omega

/-! ## Characters and units -/

/-- The code units of a scalar value given as a number below 0x110000. -/
def ofScalar (value : Nat) : List UInt16 :=
  if value < 0x10000 then [value.toUInt16]
  else
    let offset := value - 0x10000
    [(0xD800 + offset / 0x400).toUInt16, (0xDC00 + offset % 0x400).toUInt16]

def ofChar (c : Char) : List UInt16 := ofScalar c.toNat

theorem ofChar_length (c : Char) : (ofChar c).length = if c.toNat < 0x10000 then 1 else 2 := by
  simp only [ofChar, ofScalar]
  split <;> rfl

/-- What stands for a half of a surrogate pair that has lost the other half. -/
def replacement : Char := '\uFFFD'

/-- The character that a single unit stands for; half a pair stands for none. -/
def toChar (unit : UInt16) : Char :=
  if isHighSurrogate unit || isLowSurrogate unit then replacement else Char.ofNat unit.toNat

/-- The supplementary character of a high and a low surrogate. -/
def pairToChar (high low : UInt16) : Char :=
  Char.ofNat (0x10000 + (high.toNat - 0xD800) * 0x400 + (low.toNat - 0xDC00))

end CodeUnit
end TextSeek

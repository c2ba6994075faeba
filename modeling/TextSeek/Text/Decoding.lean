import TextSeek.Text.Encoding

/-!
# Decoding the character at the front of a byte string

`Encoding.decode` looks at the front of a byte string and finds one whole
character, or says that more bytes are needed, or that no character starts
there. UTF-8 is read strictly: no overlong forms, no surrogates, nothing
above U+10FFFF. UTF-16 takes surrogates in pairs only.

**Results.**
* `width_bounds`: a character takes at least one byte and no more than there
  are; a pair takes at least two.
* `length_lt_of_incomplete`: no character needs more than four bytes.
-/
namespace TextSeek

/-- What stands at the front of a byte string. -/
inductive Decoded where
  /-- A character of one unit, and the bytes it takes. -/
  | one (unit : UInt16) (width : Nat)
  /-- A supplementary character, and the bytes it takes. -/
  | pair (high low : UInt16) (width : Nat)
  /-- The bytes end inside a character. -/
  | incomplete
  /-- No character starts with these bytes. -/
  | malformed
  deriving DecidableEq, Repr

def Decoded.ofScalar (value width : Nat) : Decoded :=
  if value < 0x10000 then .one value.toUInt16 width
  else .pair (0xD800 + (value - 0x10000) / 0x400).toUInt16
    (0xDC00 + (value - 0x10000) % 0x400).toUInt16 width

/-! ## UTF-8 -/

/-- The sequences that a first byte can start: their length and the range of
the second byte. -/
structure Utf8Form where
  length : Nat
  low : UInt8
  high : UInt8
  deriving DecidableEq, Repr

/-- The form of the sequences of two bytes or more that start with `lead`.
The narrow ranges of the second byte shut out overlong forms, surrogates and
values above U+10FFFF. -/
def Utf8Form.ofLead? (lead : UInt8) : Option Utf8Form :=
  if 0xC2 ≤ lead && lead ≤ 0xDF then some ⟨2, 0x80, 0xBF⟩
  else if lead == 0xE0 then some ⟨3, 0xA0, 0xBF⟩
  else if lead == 0xED then some ⟨3, 0x80, 0x9F⟩
  else if 0xE1 ≤ lead && lead ≤ 0xEF then some ⟨3, 0x80, 0xBF⟩
  else if lead == 0xF0 then some ⟨4, 0x90, 0xBF⟩
  else if 0xF1 ≤ lead && lead ≤ 0xF3 then some ⟨4, 0x80, 0xBF⟩
  else if lead == 0xF4 then some ⟨4, 0x80, 0x8F⟩
  else none

/-- The bytes after the first one may stand where they do. -/
def Utf8Form.admits (form : Utf8Form) : List UInt8 → Bool
  | [] => true
  | second :: rest =>
    form.low ≤ second && second ≤ form.high && rest.all fun b => 0x80 ≤ b && b ≤ 0xBF

/-- The scalar value of a sequence: the low bits of the first byte, then six
bits from each byte after it. -/
def Utf8Form.scalar (form : Utf8Form) (lead : UInt8) (tail : List UInt8) : Nat :=
  tail.foldl (fun value b => value * 64 + b.toNat % 64) (lead.toNat % (0x80 >>> form.length))

def decodeUtf8 : List UInt8 → Decoded
  | [] => .incomplete
  | lead :: rest =>
    if lead < 0x80 then .one lead.toUInt16 1
    else
      match Utf8Form.ofLead? lead with
      | none => .malformed
      | some form =>
        let tail := rest.take (form.length - 1)
        if !form.admits tail then .malformed
        else if tail.length < form.length - 1 then .incomplete
        else .ofScalar (form.scalar lead tail) form.length

/-! ## UTF-16 -/

/-- The unit whose more significant byte comes last. -/
def unitOfLittleEndian (a b : UInt8) : UInt16 := a.toUInt16 + b.toUInt16 * 256

/-- The unit whose more significant byte comes first. -/
def unitOfBigEndian (a b : UInt8) : UInt16 := a.toUInt16 * 256 + b.toUInt16

/-- The UTF-16 character at the front, with units put together by `unitOf`
(`decode_utf16`). -/
def decodeUtf16 (unitOf : UInt8 → UInt8 → UInt16) : List UInt8 → Decoded
  | a :: b :: rest =>
    let unit := unitOf a b
    if CodeUnit.isLowSurrogate unit then .malformed
    else if !CodeUnit.isHighSurrogate unit then .one unit 2
    else
      match rest with
      | c :: d :: _ =>
        let low := unitOf c d
        if CodeUnit.isLowSurrogate low then .pair unit low 4 else .malformed
      | _ => .incomplete
  | _ => .incomplete

/-! ## All encodings -/

/-- The character at the front of `bytes` (`decode_char`). -/
def Encoding.decode (encoding : Encoding) (bytes : List UInt8) : Decoded :=
  match encoding with
  | .utf8 => decodeUtf8 bytes
  | .utf16le => decodeUtf16 unitOfLittleEndian bytes
  | .utf16be => decodeUtf16 unitOfBigEndian bytes
  | .latin1 =>
    match bytes with
    | [] => .incomplete
    | b :: _ => .one b.toUInt16 1
  | .ascii =>
    match bytes with
    | [] => .incomplete
    | b :: _ => if b < 0x80 then .one b.toUInt16 1 else .malformed

/-! ## Widths -/

namespace Decoded

def units : Decoded → List UInt16
  | one unit _ => [unit]
  | pair high low _ => [high, low]
  | incomplete | malformed => []

def width : Decoded → Nat
  | one _ width | pair _ _ width => width
  | incomplete | malformed => 0

theorem ofScalar_width (value width : Nat) : (ofScalar value width).width = width := by
  unfold ofScalar
  split <;> rfl

theorem ofScalar_units_length (value width : Nat) (h : 2 ≤ width) :
    1 ≤ (ofScalar value width).units.length ∧ (ofScalar value width).units.length ≤ width := by
  unfold ofScalar
  split <;> simp [units] <;> omega

end Decoded

theorem Utf8Form.length_bounds {lead : UInt8} {form : Utf8Form} (h : ofLead? lead = some form) :
    2 ≤ form.length ∧ form.length ≤ 4 := by
  unfold ofLead? at h
  split at h
  · cases h; decide
  split at h
  · cases h; decide
  split at h
  · cases h; decide
  split at h
  · cases h; decide
  split at h
  · cases h; decide
  split at h
  · cases h; decide
  split at h
  · cases h; decide
  · cases h

/-- What a decoding step takes from `available` bytes: nothing if it finds no
character, else at least a byte for every unit it gives. -/
def Decoded.Takes (d : Decoded) (available : Nat) : Prop :=
  d.width ≤ available ∧ d.units.length ≤ d.width

theorem decodeUtf8_takes (bytes : List UInt8) : (decodeUtf8 bytes).Takes bytes.length := by
  match bytes with
  | [] => simp [decodeUtf8, Decoded.Takes, Decoded.width, Decoded.units]
  | lead :: rest =>
    simp only [decodeUtf8]
    split
    · simp [Decoded.Takes, Decoded.width, Decoded.units]
    · split
      · simp [Decoded.Takes, Decoded.width, Decoded.units]
      · next form hform =>
        have hb := Utf8Form.length_bounds hform
        split
        · simp [Decoded.Takes, Decoded.width, Decoded.units]
        · split
          · simp [Decoded.Takes, Decoded.width, Decoded.units]
          · next hlen =>
            simp only [List.length_take, Nat.not_lt] at hlen
            refine ⟨?_, ?_⟩
            · rw [Decoded.ofScalar_width, List.length_cons]
              omega
            · rw [Decoded.ofScalar_width]
              exact (Decoded.ofScalar_units_length _ _ hb.1).2

theorem decodeUtf16_takes (unitOf : UInt8 → UInt8 → UInt16) (bytes : List UInt8) :
    (decodeUtf16 unitOf bytes).Takes bytes.length := by
  unfold decodeUtf16
  split
  · simp only
    split
    · simp [Decoded.Takes, Decoded.width, Decoded.units]
    · split
      · simp [Decoded.Takes, Decoded.width, Decoded.units]
      · split
        · split <;> simp [Decoded.Takes, Decoded.width, Decoded.units]
        · simp [Decoded.Takes, Decoded.width, Decoded.units]
  · simp [Decoded.Takes, Decoded.width, Decoded.units]

theorem Encoding.decode_takes (encoding : Encoding) (bytes : List UInt8) :
    (encoding.decode bytes).Takes bytes.length := by
  cases encoding with
  | utf8 => exact decodeUtf8_takes bytes
  | utf16le => exact decodeUtf16_takes _ bytes
  | utf16be => exact decodeUtf16_takes _ bytes
  | latin1 => cases bytes <;> simp [decode, Decoded.Takes, Decoded.width, Decoded.units]
  | ascii =>
    cases bytes with
    | nil => simp [decode, Decoded.Takes, Decoded.width, Decoded.units]
    | cons b rest =>
      simp only [decode]
      split <;> simp [Decoded.Takes, Decoded.width, Decoded.units]

/-- A character takes at least one byte for each of its units, and no more
bytes than there are. -/
theorem Encoding.width_bounds {encoding : Encoding} {bytes : List UInt8} {d : Decoded}
    (h : encoding.decode bytes = d) : d.units.length ≤ d.width ∧ d.width ≤ bytes.length := by
  subst h
  exact ⟨(encoding.decode_takes bytes).2, (encoding.decode_takes bytes).1⟩

theorem decodeUtf16_length_lt {unitOf : UInt8 → UInt8 → UInt16} {bytes : List UInt8}
    (h : decodeUtf16 unitOf bytes = .incomplete) : bytes.length < 4 := by
  match bytes with
  | [] | [_] | [_, _] | [_, _, _] => simp
  | a :: b :: c :: d :: rest =>
    simp only [decodeUtf16] at h
    split at h
    · cases h
    · split at h
      · cases h
      · split at h <;> cases h

/-- Four bytes always settle what stands at the front. -/
theorem Encoding.length_lt_of_incomplete {encoding : Encoding} {bytes : List UInt8}
    (h : encoding.decode bytes = .incomplete) : bytes.length < 4 := by
  cases encoding with
  | utf8 =>
    match bytes with
    | [] => simp
    | lead :: rest =>
      simp only [decode, decodeUtf8] at h
      split at h
      · cases h
      · split at h
        · cases h
        · next form hform =>
          have hb := Utf8Form.length_bounds hform
          split at h
          · cases h
          · split at h
            · next hlen =>
              simp only [List.length_take] at hlen
              simp only [List.length_cons]
              omega
            · unfold Decoded.ofScalar at h
              split at h <;> cases h
  | utf16le => exact decodeUtf16_length_lt h
  | utf16be => exact decodeUtf16_length_lt h
  | latin1 => cases bytes <;> simp_all [decode]
  | ascii =>
    cases bytes with
    | nil => simp
    | cons b rest =>
      simp only [decode] at h
      split at h <;> cases h

end TextSeek

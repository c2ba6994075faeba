import TextSeek.Text.Decoding

/-!
# Decoding a whole byte string

`Encoding.decodeAll` decodes character after character until the bytes run
out or no further character can be decoded. It is the yardstick for everything
that decodes in pieces.

**Results.**
* `decodeAll_consumed_le`: no more bytes are used than there are.
* `decodeAll_eq`: one character off the front, then the rest.
-/
namespace TextSeek

inductive Ending where
  /-- Every byte belongs to a decoded character. -/
  | complete
  /-- The bytes end inside a character. -/
  | cutOff
  /-- At some place no character starts. -/
  | malformed
  deriving DecidableEq, Repr

/-- The characters at the front of a byte string. -/
structure WholeText where
  /-- Their code units. -/
  units : List UInt16
  /-- The bytes that they take. -/
  consumed : Nat
  /-- What comes behind them. -/
  ending : Ending
  deriving DecidableEq, Repr

/-- A character of `width` bytes in front of a text. -/
def WholeText.prepend (units : List UInt16) (width : Nat) (text : WholeText) : WholeText :=
  ⟨units ++ text.units, width + text.consumed, text.ending⟩

/-- All characters at the front of `bytes`, and what stops the decoding. -/
def Encoding.decodeAll (encoding : Encoding) (bytes : List UInt8) : WholeText :=
  match _h : encoding.decode bytes with
  | .one unit width => (encoding.decodeAll (bytes.drop width)).prepend [unit] width
  | .pair high low width => (encoding.decodeAll (bytes.drop width)).prepend [high, low] width
  | .incomplete => ⟨[], 0, if bytes.isEmpty then .complete else .cutOff⟩
  | .malformed => ⟨[], 0, .malformed⟩
termination_by bytes.length
decreasing_by
  all_goals
    have hw := Encoding.width_bounds _h
    simp only [Decoded.units, Decoded.width, List.length_cons] at hw
    simp only [List.length_drop]
    omega

theorem Encoding.decodeAll_eq (encoding : Encoding) (bytes : List UInt8) :
    encoding.decodeAll bytes =
      match encoding.decode bytes with
      | .one unit width => (encoding.decodeAll (bytes.drop width)).prepend [unit] width
      | .pair high low width => (encoding.decodeAll (bytes.drop width)).prepend [high, low] width
      | .incomplete => ⟨[], 0, if bytes.isEmpty then .complete else .cutOff⟩
      | .malformed => ⟨[], 0, .malformed⟩ := by
  rw [decodeAll]
  split <;> simp_all

theorem Encoding.decodeAll_consumed_le (encoding : Encoding) (bytes : List UInt8) :
    (encoding.decodeAll bytes).consumed ≤ bytes.length := by
  fun_induction decodeAll encoding bytes with
  | case1 bytes unit width h ih | case2 bytes high low width h ih =>
    have hw := Encoding.width_bounds h
    simp only [Decoded.width] at hw
    simp only [List.length_drop] at ih
    simp only [WholeText.prepend]
    omega
  | case3 | case4 => exact Nat.zero_le _

end TextSeek

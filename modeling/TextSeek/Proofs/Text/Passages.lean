import TextSeek.Proofs.Text.RoundTrip

/-!
# Passages of a text

A run of units is read as characters from its front on, and a half of a pair that has lost
the other half reads as U+FFFD (`CodeUnit.toChars`). Cut out of a text between two
characters, the run is read as what stands there in the text, and it is written in the bytes
between the two cuts.

Results:
* `toChars_flatMap`, `Paired.flatMap_toChars`: units and characters, both ways.
* `encode_append_iff`: a text is written one part behind the other.
* `encode_passage`: the bytes of a passage.
-/
namespace TextSeek

namespace CodeUnit

/-- The characters that units are read as. -/
def toChars : List UInt16 → List Char
  | [] => []
  | [unit] => [toChar unit]
  | first :: second :: rest =>
    if isHighSurrogate first && isLowSurrogate second then pairToChar first second :: toChars rest
    else toChar first :: toChars (second :: rest)

theorem toChars_unit {unit : UInt16} (h : isHighSurrogate unit = false) (more : List UInt16) :
    toChars (unit :: more) = toChar unit :: toChars more := by
  cases more with
  | nil => rfl
  | cons second rest => rw [toChars, h, Bool.false_and, if_neg (by simp)]

theorem toChars_pair {high low : UInt16} (hh : isHighSurrogate high = true)
    (hl : isLowSurrogate low = true) (more : List UInt16) :
    toChars (high :: low :: more) = pairToChar high low :: toChars more := by
  rw [toChars, hh, hl, Bool.true_and, if_pos rfl]

theorem toChars_ofChar (c : Char) (more : List UInt16) :
    toChars (ofChar c ++ more) = c :: toChars more := by
  rcases ofChar_cases c with ⟨unit, hc, hh, -⟩ | ⟨high, low, hc, hh, hl, -⟩
  · rw [hc, List.singleton_append, toChars_unit hh, toChar_of_unit hc]
  · rw [hc]
    show toChars (high :: low :: more) = c :: toChars more
    rw [toChars_pair hh hl, pairToChar_of_pair hc]

/-- The units of a text are read as that text. -/
theorem toChars_flatMap (text : List Char) : toChars (text.flatMap ofChar) = text := by
  induction text with
  | nil => rfl
  | cons c text ih => rw [List.flatMap_cons, toChars_ofChar, ih]

theorem toChars_eq_nil {units : List UInt16} (h : toChars units = []) : units = [] := by
  match units with
  | [] => rfl
  | [_] => cases h
  | _ :: _ :: _ =>
    rw [toChars] at h
    split at h <;> cases h

end CodeUnit

open CodeUnit

/-- Units that are paired are those of the text that they are read as. -/
theorem Paired.flatMap_toChars {units : List UInt16} (h : Paired units) :
    (toChars units).flatMap ofChar = units := by
  induction h with
  | nil => rfl
  | one hh hl _ ih =>
    obtain ⟨c, hc⟩ := exists_char_of_unit hh hl
    rw [toChars_unit hh, List.flatMap_cons, ih, toChar_of_unit hc, hc]
    rfl
  | pair hh hl _ ih =>
    obtain ⟨c, hc⟩ := exists_char_of_pair hh hl
    rw [toChars_pair hh hl, List.flatMap_cons, ih, pairToChar_of_pair hc, hc]
    rfl

theorem Paired.behind {a b : List UInt16} (ha : Paired a) (h : Paired (a ++ b)) : Paired b := by
  induction ha with
  | nil => exact h
  | @one unit rest hh _ _ ih =>
    rw [List.cons_append] at h
    generalize rest ++ b = tail at h ih
    cases h with
    | one _ _ h => exact ih h
    | pair hhigh _ _ => rw [hh] at hhigh; cases hhigh
  | @pair high low rest hh _ _ ih =>
    rw [List.cons_append, List.cons_append] at h
    generalize rest ++ b = tail at h ih
    cases h with
    | one hhigh _ _ => rw [hh] at hhigh; cases hhigh
    | pair _ _ h => exact ih h

theorem Paired.low_of_high {a b : List UInt16} {high : UInt16} (h : Paired (a ++ high :: b))
    (hh : isHighSurrogate high = true) :
    ∃ low rest, b = low :: rest ∧ isLowSurrogate low = true := by
  have hcut : ∀ unit, (high :: b).head? = some unit → isLowSurrogate unit = false := by
    intro unit hu
    cases hu
    exact isLowSurrogate_eq_false_of_high hh
  cases (h.split hcut).2 with
  | one hhigh _ _ => rw [hh] at hhigh; cases hhigh
  | pair _ hlow _ => exact ⟨_, _, rfl, hlow⟩

theorem Paired.encodedLength_pos {units : List UInt16} (h : Paired units) (encoding : Encoding)
    (hne : units ≠ []) : 0 < encoding.encodedLength units := by
  obtain ⟨unit, rest, rfl⟩ := List.exists_cons_of_ne_nil hne
  -- only a low surrogate counts for nothing
  have hlow := h.head_not_low unit rfl
  have hunit : 0 < encoding.byteLength unit := by
    unfold Encoding.byteLength
    rw [hlow]
    cases encoding with
    | latin1 | ascii => exact Nat.one_pos
    | utf8 | utf16le | utf16be =>
      simp only [Bool.false_eq_true, if_false]
      split_ifs <;> decide
  rw [Encoding.encodedLength_cons]
  omega

namespace Encoding

variable {encoding : Encoding} {bytes : List UInt8}

/-- A text is written one part behind the other. -/
theorem encode_append_iff {a b : List Char} : encoding.encode? (a ++ b) = some bytes ↔
    ∃ front back, encoding.encode? a = some front ∧ encoding.encode? b = some back ∧
      bytes = front ++ back := by
  induction a generalizing bytes with
  | nil => simp [encode?]
  | cons c a ih =>
    rw [List.cons_append, encode_cons_iff]
    simp only [ih, encode_cons_iff]
    constructor
    · rintro ⟨first, _, hc, ⟨front, back, ha, hb, rfl⟩, rfl⟩
      exact ⟨first ++ front, back, ⟨first, front, hc, ha, rfl⟩, hb, by rw [List.append_assoc]⟩
    · rintro ⟨_, back, ⟨first, front, hc, ha, rfl⟩, hb, rfl⟩
      exact ⟨first, front ++ back, hc, ⟨front, back, ha, hb, rfl⟩, by rw [List.append_assoc]⟩

theorem length_of_encode {text : List Char} (h : encoding.encode? text = some bytes) :
    encoding.encodedLength (text.flatMap ofChar) = bytes.length := by
  have hlen := encoding.decodeAll_encodedLength bytes
  rw [decodeAll_of_encode h] at hlen
  exact hlen

/-- The bytes of a passage are those between the bytes of what stands before it and behind
it. -/
theorem encode_between {before passage after : List Char}
    (h : encoding.encode? (before ++ passage ++ after) = some bytes) :
    encoding.encode? passage =
      some ((bytes.drop (encoding.encodedLength (before.flatMap ofChar))).take
        (encoding.encodedLength (passage.flatMap ofChar))) := by
  obtain ⟨front, back, hfront, -, rfl⟩ := encode_append_iff.1 h
  obtain ⟨first, second, hfirst, hsecond, rfl⟩ := encode_append_iff.1 hfront
  rw [length_of_encode hfirst, length_of_encode hsecond, hsecond, List.append_assoc,
    List.drop_left, List.take_left]

/-- In a text that is decoded to its end, whole characters are written in the bytes between
what stands before them and what stands behind them. -/
theorem encode_passage {before passage after : List UInt16}
    (hc : (encoding.decodeAll bytes).ending = .complete)
    (hu : (encoding.decodeAll bytes).units = before ++ passage ++ after)
    (hb : Paired before) (hp : Paired passage) :
    encoding.encode? (toChars passage) =
      some ((bytes.drop (encoding.encodedLength before)).take
        (encoding.encodedLength passage)) := by
  have hall := encoding.decodeAll_paired bytes
  rw [hu] at hall
  have ha : Paired after := (hb.append hp).behind hall
  obtain ⟨text, ht⟩ := exists_encode_of_complete hc
  have htext : text = toChars before ++ toChars passage ++ toChars after := by
    have hunits : text.flatMap ofChar = before ++ passage ++ after := by
      rw [← hu, decodeAll_of_encode ht]
    rw [← toChars_flatMap text, hunits,
      ← toChars_flatMap (toChars before ++ toChars passage ++ toChars after), List.flatMap_append,
      List.flatMap_append, hb.flatMap_toChars, hp.flatMap_toChars, ha.flatMap_toChars]
  rw [htext] at ht
  have hbytes := encode_between ht
  rwa [hb.flatMap_toChars, hp.flatMap_toChars] at hbytes

end Encoding
end TextSeek

import TextSeek.Proofs.Text.Utf8Forms
import TextSeek.Text.Writing

/-!
# The bytes of a character

What a decoder accepts at the front of a byte string is the standard form of a
character (`encodeChar?`), and the standard form of every character is accepted.
In UTF-16 a pair is put together from the bits that it was taken apart into,
whichever way its units are written (`UnitForm`).

Results:
* `CodeUnit.ofChar_cases`, `CodeUnit.toChar_of_unit`, `CodeUnit.pairToChar_of_pair`: the
  units of a character, and back.
* `decode_of_encodeChar`: the form of a character is decoded whole.
* `encodeChar_of_decode`: what is decoded is the form of a character.
* `decode_take_of_encodeChar`: the front of a form is incomplete.
-/
namespace TextSeek

/-! ## UTF-16 -/

/-- A way of writing units as two bytes, and of reading them again. -/
structure UnitForm (unitOf : UInt8 → UInt8 → UInt16) (write : UInt16 → List UInt8) : Prop where
  read_write : ∀ unit, ∃ a b, write unit = [a, b] ∧ unitOf a b = unit
  write_read : ∀ a b, write (unitOf a b) = [a, b]

theorem unitForm_littleEndian : UnitForm unitOfLittleEndian littleEndian where
  read_write unit := by
    refine ⟨_, _, rfl, ?_⟩
    have := unit.toNat_lt
    rw [unitOfLittleEndian, ← UInt16.toNat_inj]
    simp only [UInt16.toNat_add, UInt16.toNat_mul, UInt8.toNat_toUInt16, UInt16.toNat_toUInt8,
      UInt16.toNat_div, UInt16.reduceToNat]
    omega
  write_read a b := by
    have := a.toNat_lt
    have := b.toNat_lt
    simp only [littleEndian, unitOfLittleEndian, List.cons.injEq, ← UInt8.toNat_inj,
      UInt16.toNat_add, UInt16.toNat_mul, UInt8.toNat_toUInt16, UInt16.toNat_toUInt8,
      UInt16.toNat_div, UInt16.reduceToNat, and_true]
    omega

theorem unitForm_bigEndian : UnitForm unitOfBigEndian bigEndian where
  read_write unit := by
    refine ⟨_, _, rfl, ?_⟩
    have := unit.toNat_lt
    rw [unitOfBigEndian, ← UInt16.toNat_inj]
    simp only [UInt16.toNat_add, UInt16.toNat_mul, UInt8.toNat_toUInt16, UInt16.toNat_toUInt8,
      UInt16.toNat_div, UInt16.reduceToNat]
    omega
  write_read a b := by
    have := a.toNat_lt
    have := b.toNat_lt
    simp only [bigEndian, unitOfBigEndian, List.cons.injEq, ← UInt8.toNat_inj,
      UInt16.toNat_add, UInt16.toNat_mul, UInt8.toNat_toUInt16, UInt16.toNat_toUInt8,
      UInt16.toNat_div, UInt16.reduceToNat, and_true]
    omega

theorem CodeUnit.exists_char_of_unit {unit : UInt16} (hh : isHighSurrogate unit = false)
    (hl : isLowSurrogate unit = false) : ∃ c : Char, ofChar c = [unit] := by
  have hlt := unit.toNat_lt
  rw [← Bool.not_eq_true, isHighSurrogate_iff] at hh
  rw [← Bool.not_eq_true, isLowSurrogate_iff] at hl
  obtain ⟨c, hc⟩ : ∃ c : Char, c.toNat = unit.toNat := exists_char (by omega)
  refine ⟨c, ?_⟩
  rw [ofChar, ofScalar, if_pos (by omega), hc, Nat.toUInt16_eq, UInt16.ofNat_toNat]

theorem CodeUnit.exists_char_of_pair {high low : UInt16} (hh : isHighSurrogate high = true)
    (hl : isLowSurrogate low = true) : ∃ c : Char, ofChar c = [high, low] := by
  rw [isHighSurrogate_iff] at hh
  rw [isLowSurrogate_iff] at hl
  obtain ⟨c, hc⟩ : ∃ c : Char,
      c.toNat = 0x10000 + (high.toNat - 0xD800) * 0x400 + (low.toNat - 0xDC00) :=
    exists_char (by omega)
  refine ⟨c, ?_⟩
  rw [ofChar, ofScalar, if_neg (by omega)]
  simp only [hc, List.cons.injEq, ← UInt16.toNat_inj, and_true]
  rw [toNat_toUInt16 (by omega), toNat_toUInt16 (by omega)]
  omega

/-- The units of a character are a single unit that is no half of a pair, or a
pair. -/
theorem CodeUnit.ofChar_cases (c : Char) :
    (∃ unit, ofChar c = [unit] ∧ isHighSurrogate unit = false ∧ isLowSurrogate unit = false ∧
        ∀ width, Decoded.ofScalar c.toNat width = .one unit width) ∨
      ∃ high low, ofChar c = [high, low] ∧ isHighSurrogate high = true ∧
        isLowSurrogate low = true ∧
        ∀ width, Decoded.ofScalar c.toNat width = .pair high low width := by
  have hrange := toNat_range c
  by_cases h : c.toNat < 0x10000
  · have hone (width : Nat) : Decoded.ofScalar c.toNat width = .one c.toNat.toUInt16 width :=
      if_pos h
    refine .inl ⟨c.toNat.toUInt16, by rw [ofChar, ofScalar, if_pos h], ?_, ?_, hone⟩
    · rw [← Bool.not_eq_true, isHighSurrogate_iff, toNat_toUInt16 h]
      omega
    · rw [← Bool.not_eq_true, isLowSurrogate_iff, toNat_toUInt16 h]
      omega
  · refine .inr ⟨_, _, by rw [ofChar, ofScalar, if_neg h], ?_, ?_, fun width => if_neg h⟩
    · rw [isHighSurrogate_iff, toNat_toUInt16 (by omega)]
      omega
    · rw [isLowSurrogate_iff, toNat_toUInt16 (by omega)]
      omega

theorem CodeUnit.toChar_of_unit {c : Char} {unit : UInt16} (h : ofChar c = [unit]) :
    toChar unit = c := by
  have hrange := toNat_range c
  by_cases hlt : c.toNat < 0x10000
  · rw [ofChar, ofScalar, if_pos hlt, List.cons.injEq] at h
    have hunit : unit.toNat = c.toNat := by rw [← h.1, toNat_toUInt16 hlt]
    have hh : isHighSurrogate unit = false := by
      rw [← Bool.not_eq_true, isHighSurrogate_iff]
      omega
    have hl : isLowSurrogate unit = false := by
      rw [← Bool.not_eq_true, isLowSurrogate_iff]
      omega
    rw [toChar, hh, hl, Bool.or_false, if_neg (by simp), hunit, Char.ofNat_toNat]
  · rw [ofChar, ofScalar, if_neg hlt] at h
    cases h

theorem CodeUnit.pairToChar_of_pair {c : Char} {high low : UInt16} (h : ofChar c = [high, low]) :
    pairToChar high low = c := by
  have hrange := toNat_range c
  by_cases hlt : c.toNat < 0x10000
  · rw [ofChar, ofScalar, if_pos hlt] at h
    cases h
  · rw [ofChar, ofScalar, if_neg hlt] at h
    simp only [List.cons.injEq, and_true] at h
    obtain ⟨rfl, rfl⟩ := h
    rw [pairToChar, toNat_toUInt16 (by omega), toNat_toUInt16 (by omega),
      show 0x10000 + (0xD800 + (c.toNat - 0x10000) / 0x400 - 0xD800) * 0x400 +
        (0xDC00 + (c.toNat - 0x10000) % 0x400 - 0xDC00) = c.toNat by omega, Char.ofNat_toNat]

section
variable {unitOf : UInt8 → UInt8 → UInt16} {write : UInt16 → List UInt8}

theorem decodeUtf16_of_char (hw : UnitForm unitOf write) (c : Char) :
    decodeUtf16 unitOf ((CodeUnit.ofChar c).flatMap write) =
      .ofScalar c.toNat ((CodeUnit.ofChar c).flatMap write).length := by
  rcases CodeUnit.ofChar_cases c with ⟨unit, hu, hh, hl, hd⟩ | ⟨high, low, hu, hh, hl, hd⟩
  · obtain ⟨a, b, hab, hunit⟩ := hw.read_write unit
    rw [hu, hd, List.flatMap_singleton, hab]
    simp only [decodeUtf16, hunit, hh, hl, Bool.not_false, Bool.false_eq_true, if_false, if_true]
    rfl
  · obtain ⟨a, b, hab, hhigh⟩ := hw.read_write high
    obtain ⟨a', b', hab', hlow⟩ := hw.read_write low
    have hnot := CodeUnit.isLowSurrogate_eq_false_of_high hh
    rw [hu, hd, List.flatMap_cons, List.flatMap_singleton, hab, hab']
    simp only [List.cons_append, List.nil_append, decodeUtf16, hhigh, hlow, hnot, hh, hl,
      Bool.not_true, Bool.false_eq_true, if_false, if_true]
    rfl

theorem exists_char_of_decodeUtf16 (hw : UnitForm unitOf write) {bytes : List UInt8} {d : Decoded}
    (h : decodeUtf16 unitOf bytes = d) (hd : d.units ≠ []) :
    ∃ c : Char, (CodeUnit.ofChar c).flatMap write = bytes.take d.width ∧
      d.units = CodeUnit.ofChar c := by
  match bytes with
  | [] | [_] => subst h; exact absurd rfl hd
  | a :: b :: rest =>
    simp only [decodeUtf16] at h
    split at h
    · subst h; exact absurd rfl hd
    next hlow =>
      split at h
      · next hhigh =>
        subst h
        obtain ⟨c, hc⟩ := CodeUnit.exists_char_of_unit (by simpa using hhigh) (by simpa using hlow)
        refine ⟨c, ?_, hc.symm⟩
        rw [hc, List.flatMap_singleton, hw.write_read]
        rfl
      next hhigh =>
        split at h
        · next c' d' rest' =>
          split at h
          · next hl =>
            subst h
            obtain ⟨c, hc⟩ := CodeUnit.exists_char_of_pair (by simpa using hhigh) hl
            refine ⟨c, ?_, hc.symm⟩
            rw [hc, List.flatMap_cons, List.flatMap_singleton, hw.write_read, hw.write_read]
            rfl
          · subst h; exact absurd rfl hd
        · subst h; exact absurd rfl hd

end

/-! ## All encodings -/

theorem CodeUnit.exists_char_of_byte (b : UInt8) : ∃ c : Char, c.toNat = b.toNat ∧
    c.toNat.toUInt8 = b ∧ ofChar c = [b.toUInt16] := by
  have hb := b.toNat_lt
  obtain ⟨c, hc⟩ : ∃ c : Char, c.toNat = b.toNat := exists_char (by omega)
  refine ⟨c, hc, by rw [hc, Nat.toUInt8_eq, UInt8.ofNat_toNat], ?_⟩
  rw [ofChar, hc, ← Decoded.ofScalar_units _ 1, Decoded.ofScalar_byte]
  rfl

namespace Encoding

/-- A written character is decoded whole, and nothing behind it is. -/
theorem decode_of_encodeChar {encoding : Encoding} {c : Char} {bytes : List UInt8}
    (h : encoding.encodeChar? c = some bytes) :
    encoding.decode bytes = .ofScalar c.toNat bytes.length := by
  cases encoding with
  | utf8 => cases h; exact decodeUtf8_of_char c
  | utf16le => cases h; exact decodeUtf16_of_char unitForm_littleEndian c
  | utf16be => cases h; exact decodeUtf16_of_char unitForm_bigEndian c
  | latin1 =>
    simp only [encodeChar?, Option.ite_none_right_eq_some, Option.some.injEq] at h
    obtain ⟨hc, rfl⟩ := h
    have hscalar := Decoded.ofScalar_byte c.toNat.toUInt8 1
    rw [Nat.toUInt8_eq, toNat_byte hc] at hscalar
    exact hscalar.symm
  | ascii =>
    simp only [encodeChar?, Option.ite_none_right_eq_some, Option.some.injEq] at h
    obtain ⟨hc, rfl⟩ := h
    have hlt : c.toNat.toUInt8 < 0x80 := by
      rw [UInt8.lt_iff_toNat_lt, Nat.toUInt8_eq, toNat_byte (by omega)]
      exact hc
    have hscalar := Decoded.ofScalar_byte c.toNat.toUInt8 1
    rw [Nat.toUInt8_eq, toNat_byte (by omega)] at hscalar
    rw [decode, if_pos hlt]
    exact hscalar.symm

/-- What is decoded was written by one character. -/
theorem encodeChar_of_decode {encoding : Encoding} {bytes : List UInt8} {d : Decoded}
    (h : encoding.decode bytes = d) (hd : d.units ≠ []) :
    ∃ c, encoding.encodeChar? c = some (bytes.take d.width) ∧ d.units = CodeUnit.ofChar c := by
  cases encoding with
  | utf8 =>
    obtain ⟨c, hc, hu⟩ := exists_char_of_decodeUtf8 h hd
    exact ⟨c, congrArg some hc, hu⟩
  | utf16le =>
    obtain ⟨c, hc, hu⟩ := exists_char_of_decodeUtf16 unitForm_littleEndian h hd
    exact ⟨c, congrArg some hc, hu⟩
  | utf16be =>
    obtain ⟨c, hc, hu⟩ := exists_char_of_decodeUtf16 unitForm_bigEndian h hd
    exact ⟨c, congrArg some hc, hu⟩
  | latin1 =>
    cases bytes with
    | nil => subst h; exact absurd rfl hd
    | cons b rest =>
      subst h
      obtain ⟨c, hc, hbyte, hu⟩ := CodeUnit.exists_char_of_byte b
      refine ⟨c, ?_, hu.symm⟩
      rw [encodeChar?, if_pos (by have := b.toNat_lt; omega), hbyte]
      rfl
  | ascii =>
    cases bytes with
    | nil => subst h; exact absurd rfl hd
    | cons b rest =>
      simp only [decode] at h
      split at h
      · next hlt =>
        subst h
        obtain ⟨c, hc, hbyte, hu⟩ := CodeUnit.exists_char_of_byte b
        refine ⟨c, ?_, hu.symm⟩
        rw [encodeChar?, if_pos (by rw [hc]; exact UInt8.lt_iff_toNat_lt.1 hlt), hbyte]
        rfl
      · subst h; exact absurd rfl hd

theorem decode_take_width {encoding : Encoding} {bytes : List UInt8} {d : Decoded}
    (h : encoding.decode bytes = d) (hd : d.units ≠ []) :
    encoding.decode (bytes.take d.width) = d := by
  obtain ⟨c, hc, hu⟩ := encodeChar_of_decode h hd
  have hform := decode_of_encodeChar hc
  have happ := encoding.decode_append (bytes.take d.width) (bytes.drop d.width) (by
    rw [hform]
    intro hi
    exact Decoded.ofScalar_units_ne_nil c.toNat _ (congrArg Decoded.units hi))
  rw [List.take_append_drop, h] at happ
  exact happ.symm

theorem decodeAll_take_width {encoding : Encoding} {bytes : List UInt8} {d : Decoded}
    (h : encoding.decode bytes = d) (hd : d.units ≠ []) :
    encoding.decodeAll (bytes.take d.width) = ⟨d.units, d.width, .complete⟩ := by
  have hall := decodeAll_append (decode_take_width h hd) hd []
  rw [List.append_nil, List.drop_take, Nat.sub_self, List.take_zero, List.nil_append,
    decodeAll_nil] at hall
  rw [hall]
  simp [WholeText.prepend]

/-- The front of a character is incomplete: what it decodes to would be what the
whole character decodes to, and that takes more bytes. -/
theorem decode_take_of_encodeChar {encoding : Encoding} {c : Char} {bytes : List UInt8}
    (h : encoding.encodeChar? c = some bytes) {k : Nat} (hk : k < bytes.length) :
    encoding.decode (bytes.take k) = .incomplete := by
  by_contra hne
  have happ := encoding.decode_append (bytes.take k) (bytes.drop k) hne
  rw [List.take_append_drop, decode_of_encodeChar h] at happ
  have hw := (width_bounds happ.symm).2
  rw [Decoded.ofScalar_width, List.length_take] at hw
  omega

theorem decode_take_of_lt_width {encoding : Encoding} {bytes : List UInt8} {d : Decoded}
    (h : encoding.decode bytes = d) (hd : d.units ≠ []) {k : Nat} (hk : k < d.width) :
    encoding.decode (bytes.take k) = .incomplete := by
  obtain ⟨c, hc, -⟩ := encodeChar_of_decode h hd
  have hw := (width_bounds h).2
  have hfront := decode_take_of_encodeChar hc (k := k) (by rw [List.length_take]; omega)
  rwa [List.take_take, Nat.min_eq_left (by omega)] at hfront

end Encoding
end TextSeek

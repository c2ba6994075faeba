import TextSeek.Text.ByteLength
import TextSeek.Text.WholeDecoding

/-!
# Decoded bytes and encoded lengths

What a decoder takes from the input is what its units take when they are
written: byte positions can be computed from units alone.

**Results.**
* `decode_encodedLength`: the width of a decoded character is the encoded
  length of its units.
* `decodeAll_encodedLength`: the same for a whole text.
-/
namespace TextSeek

theorem CodeUnit.isHighSurrogate_iff (unit : UInt16) :
    isHighSurrogate unit = true ↔ 0xD800 ≤ unit.toNat ∧ unit.toNat ≤ 0xDBFF := by
  simp [isHighSurrogate, UInt16.le_iff_toNat_le]

theorem CodeUnit.isLowSurrogate_iff (unit : UInt16) :
    isLowSurrogate unit = true ↔ 0xDC00 ≤ unit.toNat ∧ unit.toNat ≤ 0xDFFF := by
  simp [isLowSurrogate, UInt16.le_iff_toNat_le]

/-! ## UTF-8 -/

/-- The scalar values that take `width` bytes, from two on. -/
def Utf8Form.Holds (width value : Nat) : Prop :=
  (width = 2 ∧ 0x80 ≤ value ∧ value < 0x800) ∨
    (width = 3 ∧ 0x800 ≤ value ∧ value < 0x10000 ∧ (value < 0xD800 ∨ 0xE000 ≤ value)) ∨
    (width = 4 ∧ 0x10000 ≤ value ∧ value < 0x110000)

/-- The forms, with the first bytes of each. -/
theorem Utf8Form.ofLead?_cases {lead : UInt8} {form : Utf8Form} (h : ofLead? lead = some form) :
    (0xC2 ≤ lead.toNat ∧ lead.toNat ≤ 0xDF ∧ form = ⟨2, 0x80, 0xBF⟩) ∨
      (lead.toNat = 0xE0 ∧ form = ⟨3, 0xA0, 0xBF⟩) ∨
      (lead.toNat = 0xED ∧ form = ⟨3, 0x80, 0x9F⟩) ∨
      (0xE1 ≤ lead.toNat ∧ lead.toNat ≤ 0xEF ∧ lead.toNat ≠ 0xED ∧ form = ⟨3, 0x80, 0xBF⟩) ∨
      (lead.toNat = 0xF0 ∧ form = ⟨4, 0x90, 0xBF⟩) ∨
      (0xF1 ≤ lead.toNat ∧ lead.toNat ≤ 0xF3 ∧ form = ⟨4, 0x80, 0xBF⟩) ∨
      (lead.toNat = 0xF4 ∧ form = ⟨4, 0x80, 0x8F⟩) := by
  unfold ofLead? at h
  simp only [Bool.and_eq_true, decide_eq_true_eq, beq_iff_eq, UInt8.le_iff_toNat_le,
    ← UInt8.toNat_inj, UInt8.reduceToNat] at h
  repeat' split at h
  all_goals cases h
  all_goals
    simp
    omega

private theorem singleton_of_length {tail : List UInt8} (h : tail.length = 1) :
    ∃ b, tail = [b] := by
  match tail, h with
  | [b], _ => exact ⟨b, rfl⟩

private theorem pair_of_length {tail : List UInt8} (h : tail.length = 2) :
    ∃ b c, tail = [b, c] := by
  match tail, h with
  | [b, c], _ => exact ⟨b, c, rfl⟩

private theorem triple_of_length {tail : List UInt8} (h : tail.length = 3) :
    ∃ b c d, tail = [b, c, d] := by
  match tail, h with
  | [b, c, d], _ => exact ⟨b, c, d, rfl⟩

theorem Utf8Form.scalar_holds {lead : UInt8} {form : Utf8Form} {tail : List UInt8}
    (hf : ofLead? lead = some form) (ha : form.admits tail = true)
    (hl : tail.length = form.length - 1) : Holds form.length (form.scalar lead tail) := by
  rcases ofLead?_cases hf with ⟨h1, h2, rfl⟩ | ⟨h1, rfl⟩ | ⟨h1, rfl⟩ | ⟨h1, h2, h3, rfl⟩ |
    ⟨h1, rfl⟩ | ⟨h1, h2, rfl⟩ | ⟨h1, rfl⟩
  · obtain ⟨b, rfl⟩ := singleton_of_length hl
    simp [admits, UInt8.le_iff_toNat_le] at ha
    simp only [Holds, scalar, List.foldl_cons, List.foldl_nil, Nat.reduceShiftRight]
    exact .inl ⟨trivial, by omega, by omega⟩
  · obtain ⟨b, c, rfl⟩ := pair_of_length hl
    simp [admits, UInt8.le_iff_toNat_le] at ha
    simp only [Holds, scalar, List.foldl_cons, List.foldl_nil, Nat.reduceShiftRight]
    exact .inr (.inl ⟨trivial, by omega, by omega, by omega⟩)
  · obtain ⟨b, c, rfl⟩ := pair_of_length hl
    simp [admits, UInt8.le_iff_toNat_le] at ha
    simp only [Holds, scalar, List.foldl_cons, List.foldl_nil, Nat.reduceShiftRight]
    exact .inr (.inl ⟨trivial, by omega, by omega, by omega⟩)
  · obtain ⟨b, c, rfl⟩ := pair_of_length hl
    simp [admits, UInt8.le_iff_toNat_le] at ha
    simp only [Holds, scalar, List.foldl_cons, List.foldl_nil, Nat.reduceShiftRight]
    exact .inr (.inl ⟨trivial, by omega, by omega, by omega⟩)
  · obtain ⟨b, c, d, rfl⟩ := triple_of_length hl
    simp [admits, UInt8.le_iff_toNat_le] at ha
    simp only [Holds, scalar, List.foldl_cons, List.foldl_nil, Nat.reduceShiftRight]
    exact .inr (.inr ⟨trivial, by omega, by omega⟩)
  · obtain ⟨b, c, d, rfl⟩ := triple_of_length hl
    simp [admits, UInt8.le_iff_toNat_le] at ha
    simp only [Holds, scalar, List.foldl_cons, List.foldl_nil, Nat.reduceShiftRight]
    exact .inr (.inr ⟨trivial, by omega, by omega⟩)
  · obtain ⟨b, c, d, rfl⟩ := triple_of_length hl
    simp [admits, UInt8.le_iff_toNat_le] at ha
    simp only [Holds, scalar, List.foldl_cons, List.foldl_nil, Nat.reduceShiftRight]
    exact .inr (.inr ⟨trivial, by omega, by omega⟩)

theorem Decoded.ofScalar_encodedLength {width value : Nat} (h : Utf8Form.Holds width value) :
    Encoding.utf8.encodedLength (ofScalar value width).units = width := by
  unfold ofScalar
  split
  · next hv =>
    have hn : value.toUInt16.toNat = value := by
      rw [Nat.toUInt16_eq, UInt16.toNat_ofNat']
      omega
    have hh := CodeUnit.isHighSurrogate_iff value.toUInt16
    have hl := CodeUnit.isLowSurrogate_iff value.toUInt16
    rw [hn] at hh hl
    simp only [units, Encoding.encodedLength_cons, Encoding.encodedLength_nil,
      Encoding.byteLength, UInt16.lt_iff_toNat_lt, hn, hh, hl, UInt16.reduceToNat]
    unfold Utf8Form.Holds at h
    repeat' split
    all_goals omega
  · next hv =>
    unfold Utf8Form.Holds at h
    have h1 : (0xD800 + (value - 0x10000) / 0x400).toUInt16.toNat =
        0xD800 + (value - 0x10000) / 0x400 := by
      rw [Nat.toUInt16_eq, UInt16.toNat_ofNat']
      omega
    have h2 : (0xDC00 + (value - 0x10000) % 0x400).toUInt16.toNat =
        0xDC00 + (value - 0x10000) % 0x400 := by
      rw [Nat.toUInt16_eq, UInt16.toNat_ofNat']
      omega
    have hh1 := CodeUnit.isHighSurrogate_iff (0xD800 + (value - 0x10000) / 0x400).toUInt16
    have hh2 := CodeUnit.isHighSurrogate_iff (0xDC00 + (value - 0x10000) % 0x400).toUInt16
    have hl2 := CodeUnit.isLowSurrogate_iff (0xDC00 + (value - 0x10000) % 0x400).toUInt16
    rw [h1] at hh1
    rw [h2] at hh2 hl2
    simp only [units, Encoding.encodedLength_cons, Encoding.encodedLength_nil,
      Encoding.byteLength, UInt16.lt_iff_toNat_lt, h1, h2, hh1, hh2, hl2, UInt16.reduceToNat]
    repeat' split
    all_goals omega

theorem decodeUtf8_encodedLength (bytes : List UInt8) :
    Encoding.utf8.encodedLength (decodeUtf8 bytes).units = (decodeUtf8 bytes).width := by
  match bytes with
  | [] => rfl
  | lead :: rest =>
    simp only [decodeUtf8]
    split
    · next h =>
      rw [UInt8.lt_iff_toNat_lt] at h
      have : lead.toUInt16 < 0x80 := by
        rw [UInt16.lt_iff_toNat_lt, UInt8.toNat_toUInt16]
        exact h
      simp [Decoded.units, Decoded.width, Encoding.byteLength, this]
    · split
      · rfl
      · next form hform =>
        split
        · rfl
        · next ha =>
          split
          · rfl
          · next hl =>
            rw [Decoded.ofScalar_width]
            simp only [Bool.not_eq_true', Bool.not_eq_false] at ha
            have hb := Utf8Form.length_bounds hform
            refine Decoded.ofScalar_encodedLength (Utf8Form.scalar_holds hform ha ?_)
            have := List.length_take_le (form.length - 1) rest
            omega

/-! ## UTF-16 -/

theorem decodeUtf16_encodedLength (unitOf : UInt8 → UInt8 → UInt16) (bytes : List UInt8) :
    Encoding.utf16le.encodedLength (decodeUtf16 unitOf bytes).units =
      (decodeUtf16 unitOf bytes).width := by
  unfold decodeUtf16
  split
  · simp only
    split
    · rfl
    · next hlow =>
      split
      · next hhigh =>
        simp only [Bool.not_eq_true', Bool.not_eq_true] at hhigh hlow
        simp [Decoded.units, Decoded.width, Encoding.byteLength, hhigh, hlow]
      · next hhigh =>
        simp only [Bool.not_eq_true', Bool.not_eq_false] at hhigh
        split
        · split
          · next low hl =>
            have hn : ∀ u, CodeUnit.isLowSurrogate u = true →
                CodeUnit.isHighSurrogate u = false := fun u hu => by
              cases hh : CodeUnit.isHighSurrogate u with
              | false => rfl
              | true => rw [CodeUnit.isLowSurrogate_eq_false_of_high hh] at hu; cases hu
            simp [Decoded.units, Decoded.width, Encoding.byteLength, hhigh, hl, hn _ hl]
          · rfl
        · rfl
  · rfl

/-! ## All encodings -/

/-- A decoded character takes the bytes that its units take when written. -/
theorem Encoding.decode_encodedLength (encoding : Encoding) (bytes : List UInt8) :
    encoding.encodedLength (encoding.decode bytes).units = (encoding.decode bytes).width := by
  cases encoding with
  | utf8 => exact decodeUtf8_encodedLength bytes
  | utf16le => exact decodeUtf16_encodedLength _ bytes
  | utf16be => exact decodeUtf16_encodedLength _ bytes
  | latin1 => cases bytes <;> simp [decode, Decoded.units, Decoded.width, byteLength]
  | ascii =>
    cases bytes with
    | nil => rfl
    | cons b rest =>
      simp only [decode]
      split <;> simp [Decoded.units, Decoded.width, byteLength]

/-- A text takes the bytes that its units take when written. -/
theorem Encoding.decodeAll_encodedLength (encoding : Encoding) (bytes : List UInt8) :
    encoding.encodedLength (encoding.decodeAll bytes).units =
      (encoding.decodeAll bytes).consumed := by
  fun_induction decodeAll encoding bytes with
  | case1 bytes unit width h ih | case2 bytes high low width h ih =>
    have hd := encoding.decode_encodedLength bytes
    rw [h] at hd
    simp only [WholeText.prepend, encodedLength_append, ih]
    exact congrArg (· + _) hd
  | case3 | case4 => rfl

end TextSeek

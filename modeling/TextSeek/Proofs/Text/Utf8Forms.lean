import Mathlib.Data.List.Basic
import TextSeek.Proofs.Text.Characters

/-!
# The bytes of a character in UTF-8

The first byte of a sequence settles its length and the range of its second
byte, so that no value has two sequences and none stands for a value that no
character has. The sequences that are accepted are the standard forms of the
characters.

Results:
* `decodeUtf8_of_char`: the form of a character is decoded whole.
* `exists_char_of_decodeUtf8`: what is decoded is the form of a character.
-/
namespace TextSeek

/-! ## Scalar values -/

theorem CodeUnit.toNat_range (c : Char) :
    c.toNat < 0xD800 ∨ 0xDFFF < c.toNat ∧ c.toNat < 0x110000 := c.valid

theorem CodeUnit.exists_char {value : Nat}
    (h : value < 0xD800 ∨ 0xDFFF < value ∧ value < 0x110000) : ∃ c : Char, c.toNat = value :=
  ⟨Char.ofNatAux value h, rfl⟩

theorem CodeUnit.toNat_toUInt16 {n : Nat} (h : n < 0x10000) : n.toUInt16.toNat = n := by
  rw [Nat.toUInt16_eq, UInt16.toNat_ofNat']
  omega

namespace Decoded

theorem ofScalar_units (value width : Nat) :
    (ofScalar value width).units = CodeUnit.ofScalar value := by
  unfold ofScalar CodeUnit.ofScalar
  split <;> rfl

theorem ofScalar_units_ne_nil (value width : Nat) : (ofScalar value width).units ≠ [] := by
  unfold ofScalar
  split <;> simp [units]

theorem ofScalar_byte (b : UInt8) (width : Nat) :
    ofScalar b.toNat width = .one b.toUInt16 width := by
  have hb := b.toNat_lt
  rw [ofScalar, if_pos (by omega), Nat.toUInt16_eq, UInt16.ofNat_uInt8ToNat]

theorem ofScalar_inj {v w m n : Nat} (hv : v < 0x110000) (hw : w < 0x110000)
    (h : ofScalar v m = ofScalar w n) : v = w ∧ m = n := by
  unfold ofScalar at h
  by_cases hv1 : v < 0x10000
  · by_cases hw1 : w < 0x10000
    · rw [if_pos hv1, if_pos hw1] at h
      obtain ⟨hu, hm⟩ := Decoded.one.inj h
      have := congrArg UInt16.toNat hu
      rw [CodeUnit.toNat_toUInt16 hv1, CodeUnit.toNat_toUInt16 hw1] at this
      exact ⟨this, hm⟩
    · rw [if_pos hv1, if_neg hw1] at h
      cases h
  · by_cases hw1 : w < 0x10000
    · rw [if_neg hv1, if_pos hw1] at h
      cases h
    · rw [if_neg hv1, if_neg hw1] at h
      obtain ⟨hh, hl, hm⟩ := Decoded.pair.inj h
      have hhigh := congrArg UInt16.toNat hh
      have hlow := congrArg UInt16.toNat hl
      rw [CodeUnit.toNat_toUInt16 (by omega), CodeUnit.toNat_toUInt16 (by omega)] at hhigh hlow
      exact ⟨by omega, hm⟩

end Decoded

/-! ## UTF-8 -/

theorem toNat_byte {n : Nat} (h : n < 256) : (UInt8.ofNat n).toNat = n := by
  rw [UInt8.toNat_ofNat']
  omega

theorem utf8EncodeChar_of_lt {c : Char} (h : c.toNat < 0x80) :
    String.utf8EncodeChar c = [UInt8.ofNat c.toNat] := by
  simp only [String.utf8EncodeChar, Char.toNat_val, if_pos (show c.toNat ≤ 0x7F by omega)]

namespace Utf8Form

/-- The forms by the value of the first byte. -/
theorem ofLead?_ofNat {n : Nat} (h : n < 256) : ofLead? (UInt8.ofNat n) =
    if 0xC2 ≤ n ∧ n ≤ 0xDF then some ⟨2, 0x80, 0xBF⟩
    else if n = 0xE0 then some ⟨3, 0xA0, 0xBF⟩
    else if n = 0xED then some ⟨3, 0x80, 0x9F⟩
    else if 0xE1 ≤ n ∧ n ≤ 0xEF then some ⟨3, 0x80, 0xBF⟩
    else if n = 0xF0 then some ⟨4, 0x90, 0xBF⟩
    else if 0xF1 ≤ n ∧ n ≤ 0xF3 then some ⟨4, 0x80, 0xBF⟩
    else if n = 0xF4 then some ⟨4, 0x80, 0x8F⟩
    else none := by
  simp only [ofLead?, Bool.and_eq_true, decide_eq_true_eq, beq_iff_eq, UInt8.le_iff_toNat_le,
    ← UInt8.toNat_inj, toNat_byte h, UInt8.reduceToNat]

theorem lead_range {lead : UInt8} {form : Utf8Form} (h : ofLead? lead = some form) :
    0x80 ≤ form.low.toNat ∧ form.high.toNat ≤ 0xBF ∧
      (form.length = 2 ∧ 0xC2 ≤ lead.toNat ∧ lead.toNat ≤ 0xDF ∨
        form.length = 3 ∧ 0xE0 ≤ lead.toNat ∧ lead.toNat ≤ 0xEF ∨
        form.length = 4 ∧ 0xF0 ≤ lead.toNat ∧ lead.toNat ≤ 0xF4) := by
  rcases ofLead?_cases h with ⟨h1, h2, rfl⟩ | ⟨h1, rfl⟩ | ⟨h1, rfl⟩ | ⟨h1, h2, h3, rfl⟩ |
    ⟨h1, rfl⟩ | ⟨h1, h2, rfl⟩ | ⟨h1, rfl⟩ <;> simp <;> omega

theorem admits_cons_iff {form : Utf8Form} {second : UInt8} {rest : List UInt8} :
    form.admits (second :: rest) = true ↔
      (form.low.toNat ≤ second.toNat ∧ second.toNat ≤ form.high.toNat) ∧
        ∀ b ∈ rest, 0x80 ≤ b.toNat ∧ b.toNat ≤ 0xBF := by
  simp only [admits, Bool.and_eq_true, decide_eq_true_eq, List.all_eq_true, UInt8.le_iff_toNat_le,
    show (0x80 : UInt8).toNat = 0x80 from rfl, show (0xBF : UInt8).toNat = 0xBF from rfl]

/-- The bytes behind the first one are continuation bytes. -/
theorem mem_of_admits {lead : UInt8} {form : Utf8Form} {tail : List UInt8}
    (hf : ofLead? lead = some form) (ha : form.admits tail = true) {b : UInt8} (hb : b ∈ tail) :
    0x80 ≤ b.toNat ∧ b.toNat ≤ 0xBF := by
  obtain ⟨hlow, hhigh, -⟩ := lead_range hf
  cases tail with
  | nil => cases hb
  | cons second rest =>
    obtain ⟨hsecond, hrest⟩ := admits_cons_iff.1 ha
    rcases List.mem_cons.1 hb with rfl | hb
    · omega
    · exact hrest b hb

theorem decode_eq {lead : UInt8} {form : Utf8Form} {tail : List UInt8}
    (hf : ofLead? lead = some form) (ha : form.admits tail = true)
    (hl : tail.length = form.length - 1) :
    decodeUtf8 (lead :: tail) = .ofScalar (form.scalar lead tail) form.length := by
  have hlead : ¬ lead < 0x80 := by
    have := lead_range hf
    rw [UInt8.lt_iff_toNat_lt, show (0x80 : UInt8).toNat = 0x80 from rfl]
    omega
  have htake : tail.take (form.length - 1) = tail := List.take_of_length_le (by omega)
  simp only [decodeUtf8, if_neg hlead, hf, htake, ha, Bool.not_true, Bool.false_eq_true, if_false,
    if_neg (show ¬ tail.length < form.length - 1 by omega)]

/-- A whole sequence is the standard form of the character that it stands
for. -/
theorem encode_scalar {lead : UInt8} {form : Utf8Form} {tail : List UInt8}
    (hf : ofLead? lead = some form) (ha : form.admits tail = true)
    (hl : tail.length = form.length - 1) :
    ∃ c : Char, c.toNat = form.scalar lead tail ∧ String.utf8EncodeChar c = lead :: tail := by
  have hholds := scalar_holds hf ha hl
  obtain ⟨c, hc⟩ : ∃ c : Char, c.toNat = form.scalar lead tail :=
    CodeUnit.exists_char (by unfold Holds at hholds; omega)
  refine ⟨c, hc, ?_⟩
  have hbytes (b : UInt8) (hb : b ∈ tail) := mem_of_admits hf ha hb
  obtain ⟨-, -, ⟨hlen, h1, h2⟩ | ⟨hlen, h1, h2⟩ | ⟨hlen, h1, h2⟩⟩ := lead_range hf
  · obtain ⟨b, rfl⟩ := List.length_eq_one_iff.1 (by rw [hl, hlen])
    have hb := hbytes b (by simp)
    simp only [Holds, scalar, hlen, List.foldl_cons, List.foldl_nil,
      Nat.reduceShiftRight] at hc hholds
    simp only [String.utf8EncodeChar, Char.toNat_val, if_neg (show ¬ c.toNat ≤ 0x7F by omega),
      if_pos (show c.toNat ≤ 0x7FF by omega), List.cons.injEq, ← UInt8.toNat_inj,
      UInt8.toNat_ofNat', and_true]
    omega
  · obtain ⟨b₁, b₂, rfl⟩ := List.length_eq_two.1 (by rw [hl, hlen])
    have hb₁ := hbytes b₁ (by simp)
    have hb₂ := hbytes b₂ (by simp)
    simp only [Holds, scalar, hlen, List.foldl_cons, List.foldl_nil,
      Nat.reduceShiftRight] at hc hholds
    simp only [String.utf8EncodeChar, Char.toNat_val, if_neg (show ¬ c.toNat ≤ 0x7F by omega),
      if_neg (show ¬ c.toNat ≤ 0x7FF by omega), if_pos (show c.toNat ≤ 0xFFFF by omega),
      List.cons.injEq, ← UInt8.toNat_inj, UInt8.toNat_ofNat', and_true]
    omega
  · obtain ⟨b₁, b₂, b₃, rfl⟩ := List.length_eq_three.1 (by rw [hl, hlen])
    have hb₁ := hbytes b₁ (by simp)
    have hb₂ := hbytes b₂ (by simp)
    have hb₃ := hbytes b₃ (by simp)
    simp only [Holds, scalar, hlen, List.foldl_cons, List.foldl_nil,
      Nat.reduceShiftRight] at hc hholds
    simp only [String.utf8EncodeChar, Char.toNat_val, if_neg (show ¬ c.toNat ≤ 0x7F by omega),
      if_neg (show ¬ c.toNat ≤ 0x7FF by omega), if_neg (show ¬ c.toNat ≤ 0xFFFF by omega),
      List.cons.injEq, ← UInt8.toNat_inj, UInt8.toNat_ofNat', and_true]
    omega

/-- Of three bytes the first one shuts out second ones that would be overlong or
a surrogate. -/
theorem exists_three {v : Nat} (h : 0x800 ≤ v) (h' : v < 0xD800 ∨ 0xDFFF < v ∧ v < 0x10000) :
    ∃ low high, ofLead? (UInt8.ofNat (v / 4096 % 16 + 224)) = some ⟨3, low, high⟩ ∧
      low.toNat ≤ v / 64 % 64 + 128 ∧ v / 64 % 64 + 128 ≤ high.toNat := by
  rw [ofLead?_ofNat (by omega), if_neg (by omega)]
  by_cases hoverlong : v / 4096 % 16 = 0
  · exact ⟨0xA0, 0xBF, if_pos (by omega), by simp; omega, by simp; omega⟩
  rw [if_neg (by omega)]
  by_cases hsurrogate : v / 4096 % 16 = 13
  · exact ⟨0x80, 0x9F, if_pos (by omega), by simp, by simp; omega⟩
  rw [if_neg (by omega)]
  exact ⟨0x80, 0xBF, if_pos (by omega), by simp, by simp; omega⟩

/-- Of four bytes the first one shuts out second ones that would be overlong or
too great. -/
theorem exists_four {v : Nat} (h : 0x10000 ≤ v) (h' : v < 0x110000) :
    ∃ low high, ofLead? (UInt8.ofNat (v / 262144 % 8 + 240)) = some ⟨4, low, high⟩ ∧
      low.toNat ≤ v / 4096 % 64 + 128 ∧ v / 4096 % 64 + 128 ≤ high.toNat := by
  rw [ofLead?_ofNat (by omega), if_neg (by omega), if_neg (by omega), if_neg (by omega),
    if_neg (by omega)]
  by_cases hoverlong : v / 262144 % 8 = 0
  · exact ⟨0x90, 0xBF, if_pos (by omega), by simp; omega, by simp; omega⟩
  rw [if_neg (by omega)]
  by_cases hlast : v / 262144 % 8 = 4
  · rw [if_neg (by omega)]
    exact ⟨0x80, 0x8F, if_pos (by omega), by simp, by simp; omega⟩
  · exact ⟨0x80, 0xBF, if_pos (by omega), by simp, by simp; omega⟩

/-- The standard form of a character of more than one byte is a whole
sequence. -/
theorem exists_of_char (c : Char) (h : 0x80 ≤ c.toNat) :
    ∃ lead tail form, String.utf8EncodeChar c = lead :: tail ∧ ofLead? lead = some form ∧
      form.admits tail = true ∧ tail.length = form.length - 1 ∧
      form.scalar lead tail = c.toNat := by
  have hrange := CodeUnit.toNat_range c
  simp only [String.utf8EncodeChar, Char.toNat_val, if_neg (show ¬ c.toNat ≤ 0x7F by omega)]
  generalize c.toNat = v at *
  have hbyte (n : Nat) : (UInt8.ofNat n).toNat = n % 256 := UInt8.toNat_ofNat'
  by_cases h2 : v ≤ 0x7FF
  · rw [if_pos h2]
    refine ⟨_, _, ⟨2, 0x80, 0xBF⟩, rfl, ?_, ?_, rfl, ?_⟩
    · rw [ofLead?_ofNat (by omega), if_pos (by omega)]
    · simp only [admits_cons_iff, hbyte, UInt8.reduceToNat]
      exact ⟨by omega, by simp⟩
    · simp only [scalar, List.foldl_cons, List.foldl_nil, Nat.reduceShiftRight, hbyte]
      omega
  rw [if_neg h2]
  by_cases h3 : v ≤ 0xFFFF
  · obtain ⟨low, high, hf, hlow, hhigh⟩ := exists_three (v := v) (by omega) (by omega)
    rw [if_pos h3]
    refine ⟨_, _, _, rfl, hf, ?_, rfl, ?_⟩
    · simp only [admits_cons_iff, hbyte, List.forall_mem_singleton]
      omega
    · simp only [scalar, List.foldl_cons, List.foldl_nil, Nat.reduceShiftRight, hbyte]
      omega
  · obtain ⟨low, high, hf, hlow, hhigh⟩ := exists_four (v := v) (by omega) (by omega)
    rw [if_neg h3]
    refine ⟨_, _, _, rfl, hf, ?_, rfl, ?_⟩
    · rw [admits_cons_iff, List.forall_mem_cons, List.forall_mem_singleton]
      simp only [hbyte]
      omega
    · simp only [scalar, List.foldl_cons, List.foldl_nil, Nat.reduceShiftRight, hbyte]
      omega

end Utf8Form

theorem decodeUtf8_of_char (c : Char) :
    decodeUtf8 (String.utf8EncodeChar c) =
      .ofScalar c.toNat (String.utf8EncodeChar c).length := by
  by_cases h : c.toNat < 0x80
  · have hlead : UInt8.ofNat c.toNat < 0x80 := by
      rw [UInt8.lt_iff_toNat_lt, toNat_byte (by omega)]
      exact h
    have hscalar := Decoded.ofScalar_byte (UInt8.ofNat c.toNat) 1
    rw [toNat_byte (by omega)] at hscalar
    rw [utf8EncodeChar_of_lt h, decodeUtf8, if_pos hlead, ← hscalar]
    rfl
  · obtain ⟨lead, tail, form, hbytes, hf, ha, hl, hv⟩ := Utf8Form.exists_of_char c (by omega)
    have hlen := (Utf8Form.length_bounds hf).1
    rw [hbytes, Utf8Form.decode_eq hf ha hl, hv, List.length_cons, hl,
      Nat.sub_add_cancel (by omega)]

theorem exists_char_of_decodeUtf8 {bytes : List UInt8} {d : Decoded} (h : decodeUtf8 bytes = d)
    (hd : d.units ≠ []) : ∃ c : Char, String.utf8EncodeChar c = bytes.take d.width ∧
      d.units = CodeUnit.ofChar c := by
  cases bytes with
  | nil => subst h; exact absurd rfl hd
  | cons lead rest =>
    simp only [decodeUtf8] at h
    split at h
    · next hlead =>
      subst h
      have hlt : lead.toNat < 0x80 := UInt8.lt_iff_toNat_lt.1 hlead
      obtain ⟨c, hc⟩ : ∃ c : Char, c.toNat = lead.toNat :=
        CodeUnit.exists_char (.inl (by omega))
      refine ⟨c, ?_, ?_⟩
      · rw [utf8EncodeChar_of_lt (by omega), hc, UInt8.ofNat_toNat]
        rfl
      · rw [CodeUnit.ofChar, hc, ← Decoded.ofScalar_units lead.toNat 1, Decoded.ofScalar_byte]
    · split at h
      · subst h; exact absurd rfl hd
      next form hform =>
        split at h
        · subst h; exact absurd rfl hd
        next ha =>
          split at h
          · subst h; exact absurd rfl hd
          next hl =>
            subst h
            have hb := Utf8Form.length_bounds hform
            simp only [Bool.not_eq_true', Bool.not_eq_false] at ha
            have hl : (rest.take (form.length - 1)).length = form.length - 1 := by
              have := List.length_take_le (form.length - 1) rest
              omega
            obtain ⟨c, hc, hbytes⟩ := Utf8Form.encode_scalar hform ha hl
            refine ⟨c, ?_, ?_⟩
            · rw [hbytes, Decoded.ofScalar_width, ← List.take_succ_cons,
                Nat.sub_add_cancel (by omega)]
            · rw [Decoded.ofScalar_units, CodeUnit.ofChar, hc]

end TextSeek

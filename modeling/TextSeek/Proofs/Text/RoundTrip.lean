import Mathlib.Logic.ExistsUnique
import TextSeek.Proofs.Text.CharacterForms

/-!
# Reading what was written

Decoding takes back what writing has done, and takes nothing else: a byte
string that decodes to its end is what one text, and only that one, is written
as. What holds of one character is lifted to texts by induction.

Results:
* `decodeAll_of_encode`: a written text is decoded to its end.
* `exists_encode_of_complete`: what is decoded to its end was written.
* `encode_inj`: no two texts are written alike.
* `codec_roundTrip`: the encodings are exact in both directions.
-/
namespace TextSeek.Encoding

theorem encodeChar_ne_nil {encoding : Encoding} {c : Char} {bytes : List UInt8}
    (h : encoding.encodeChar? c = some bytes) : bytes ≠ [] := by
  rintro rfl
  have hw := (width_bounds (decode_of_encodeChar h)).1
  rw [Decoded.ofScalar_width, List.length_nil, Nat.le_zero, List.length_eq_zero_iff] at hw
  exact Decoded.ofScalar_units_ne_nil _ _ hw

theorem encode_cons_iff {encoding : Encoding} {c : Char} {text : List Char} {bytes : List UInt8} :
    encoding.encode? (c :: text) = some bytes ↔ ∃ front back,
      encoding.encodeChar? c = some front ∧ encoding.encode? text = some back ∧
        bytes = front ++ back := by
  simp only [encode?, Option.bind_eq_bind, Option.bind_eq_some_iff, Option.pure_def,
    Option.some.injEq]
  constructor
  · rintro ⟨front, hf, back, hb, rfl⟩
    exact ⟨front, back, hf, hb, rfl⟩
  · rintro ⟨front, back, hf, hb, rfl⟩
    exact ⟨front, hf, back, hb, rfl⟩

/-- A text is written exactly if all its characters can be. -/
theorem exists_encode_iff {encoding : Encoding} {text : List Char} :
    (∃ bytes, encoding.encode? text = some bytes) ↔
      ∀ c ∈ text, encoding.canWrite c = true := by
  induction text with
  | nil => exact ⟨fun _ _ h => (nomatch h), fun _ => ⟨[], rfl⟩⟩
  | cons c text ih =>
    rw [List.forall_mem_cons, ← ih, ← encodeChar?_isSome, Option.isSome_iff_exists]
    simp only [encode_cons_iff]
    constructor
    · rintro ⟨bytes, front, back, hf, hb, -⟩
      exact ⟨⟨front, hf⟩, ⟨back, hb⟩⟩
    · rintro ⟨⟨front, hf⟩, ⟨back, hb⟩⟩
      exact ⟨_, front, back, hf, hb, rfl⟩

/-- A written text is decoded to its end. -/
theorem decodeAll_of_encode {encoding : Encoding} {text : List Char} {bytes : List UInt8}
    (h : encoding.encode? text = some bytes) :
    encoding.decodeAll bytes = ⟨text.flatMap CodeUnit.ofChar, bytes.length, .complete⟩ := by
  induction text generalizing bytes with
  | nil => cases h; exact encoding.decodeAll_nil
  | cons c text ih =>
    obtain ⟨front, back, hf, hb, rfl⟩ := encode_cons_iff.1 h
    have hd := decode_of_encodeChar hf
    rw [decodeAll_append hd (Decoded.ofScalar_units_ne_nil _ _), Decoded.ofScalar_units,
      Decoded.ofScalar_width, List.drop_length, List.nil_append, ih hb, List.length_append]
    rfl

theorem exists_encode_of_complete {encoding : Encoding} {bytes : List UInt8}
    (h : (encoding.decodeAll bytes).ending = .complete) :
    ∃ text, encoding.encode? text = some bytes := by
  fun_induction decodeAll encoding bytes with
  | case1 bytes unit width hd ih | case2 bytes high low width hd ih =>
    obtain ⟨text, ht⟩ := ih h
    obtain ⟨c, hc, -⟩ := encodeChar_of_decode hd (by simp [Decoded.units])
    exact ⟨c :: text, encode_cons_iff.2 ⟨_, _, hc, ht, (List.take_append_drop _ _).symm⟩⟩
  | case3 bytes hd =>
    cases bytes with
    | nil => exact ⟨[], rfl⟩
    | cons b rest => cases h
  | case4 => cases h

/-- The character in front of a written text can be told from its bytes. -/
theorem encodeChar_append_inj {encoding : Encoding} {c c' : Char}
    {front front' back back' : List UInt8} (h : encoding.encodeChar? c = some front)
    (h' : encoding.encodeChar? c' = some front') (heq : front ++ back = front' ++ back') :
    c = c' ∧ back = back' := by
  have decode_front {c : Char} {front : List UInt8} (back : List UInt8)
      (h : encoding.encodeChar? c = some front) :
      encoding.decode (front ++ back) = .ofScalar c.toNat front.length := by
    have hd := decode_of_encodeChar h
    rw [decode_append, hd]
    intro hi
    rw [hi] at hd
    exact Decoded.ofScalar_units_ne_nil c.toNat front.length (by rw [← hd]; rfl)
  have hd := decode_front back h
  rw [heq, decode_front back' h'] at hd
  have hrange := CodeUnit.toNat_range c
  have hrange' := CodeUnit.toNat_range c'
  obtain ⟨hv, hl⟩ := Decoded.ofScalar_inj (by omega) (by omega) hd
  exact ⟨Char.toNat_inj.1 hv.symm, (List.append_inj heq hl.symm).2⟩

/-- No two texts are written alike. -/
theorem encode_inj {encoding : Encoding} {text text' : List Char} {bytes : List UInt8}
    (h : encoding.encode? text = some bytes) (h' : encoding.encode? text' = some bytes) :
    text = text' := by
  induction text generalizing text' bytes with
  | nil =>
    cases h
    cases text' with
    | nil => rfl
    | cons c' text' =>
      obtain ⟨front, back, hf, -, heq⟩ := encode_cons_iff.1 h'
      exact absurd (List.append_eq_nil_iff.1 heq.symm).1 (encodeChar_ne_nil hf)
  | cons c text ih =>
    obtain ⟨front, back, hf, hb, rfl⟩ := encode_cons_iff.1 h
    cases text' with
    | nil =>
      rw [encode?, Option.some.injEq, eq_comm, List.append_eq_nil_iff] at h'
      exact absurd h'.1 (encodeChar_ne_nil hf)
    | cons c' text' =>
      obtain ⟨front', back', hf', hb', heq⟩ := encode_cons_iff.1 h'
      obtain ⟨rfl, rfl⟩ := encodeChar_append_inj hf hf' heq
      rw [ih hb hb']

/-- Every text that an encoding can write is read back unit by unit and byte by
byte; what is read to its end was written by exactly one text; and the front of a
character is never mistaken for a character, nor for no character at all. -/
theorem codec_roundTrip (encoding : Encoding) :
    (∀ text : List Char, (∀ c ∈ text, encoding.canWrite c = true) →
      ∃ bytes, encoding.encode? text = some bytes ∧
        encoding.decodeAll bytes = ⟨text.flatMap CodeUnit.ofChar, bytes.length, .complete⟩ ∧
        encoding.encodedLength (text.flatMap CodeUnit.ofChar) = bytes.length) ∧
    (∀ bytes, (encoding.decodeAll bytes).ending = .complete →
      ∃! text, encoding.encode? text = some bytes) ∧
    ∀ c bytes, encoding.encodeChar? c = some bytes →
      ∀ k, 0 < k → k < bytes.length → encoding.decode (bytes.take k) = .incomplete := by
  refine ⟨?_, ?_, ?_⟩
  · intro text hw
    obtain ⟨bytes, h⟩ := exists_encode_iff.2 hw
    have hd := decodeAll_of_encode h
    have hlen := encoding.decodeAll_encodedLength bytes
    rw [hd] at hlen
    exact ⟨bytes, h, hd, hlen⟩
  · intro bytes hc
    obtain ⟨text, h⟩ := exists_encode_of_complete hc
    exact ⟨text, h, fun text' h' => encode_inj h' h⟩
  · intro c bytes h k _ hk
    exact decode_take_of_encodeChar h hk

/-- A text of two, three and four bytes a character, a pair, and the front of
one. -/
theorem codec_roundTrip_mixed :
    (∃ bytes, utf8.encode? ['é', '€', '😀'] = some bytes ∧
      utf8.decodeAll bytes = ⟨[0xE9, 0x20AC, 0xD83D, 0xDE00], bytes.length, .complete⟩ ∧
      utf8.encodedLength [0xE9, 0x20AC, 0xD83D, 0xDE00] = bytes.length) ∧
    (∃! text, utf16le.encode? text = some [0x3D, 0xD8, 0x00, 0xDE]) ∧
    utf8.decode [0xF0, 0x9F, 0x98] = .incomplete :=
  ⟨(codec_roundTrip utf8).1 ['é', '€', '😀'] (fun _ _ => rfl),
    (codec_roundTrip utf16le).2.1 [0x3D, 0xD8, 0x00, 0xDE] (by decide +kernel),
    (codec_roundTrip utf8).2.2 '😀' [0xF0, 0x9F, 0x98, 0x80] (by decide) 3 (by decide) (by decide)⟩

end TextSeek.Encoding

import TextSeek.Text.DecodedLength

/-!
# Texts as sequences of whole characters

What stands at the front of a byte string does not change when more bytes come
behind it, unless it was cut off there. So a text can be decoded in pieces, as
long as every cut falls between two characters; in the decoded units those are
the places that no low surrogate stands at (`Paired`).

Results:
* `decode_append`, `decodeAll_append`: bytes that come later change nothing.
* `decodeAll_append_of_complete`: a whole text in front of other bytes.
* `decodeAll_paired`: decoded units hold surrogates in pairs only.
* `decodeAll_drop`: a text read from one of its characters on is the rest of
  the text.
-/
namespace TextSeek

/-! ## Paired surrogates -/

/-- Every high surrogate is followed by a low one, and no other unit is. -/
inductive Paired : List UInt16 → Prop where
  | nil : Paired []
  | one {unit : UInt16} {rest : List UInt16} (hhigh : CodeUnit.isHighSurrogate unit = false)
      (hlow : CodeUnit.isLowSurrogate unit = false) (h : Paired rest) : Paired (unit :: rest)
  | pair {high low : UInt16} {rest : List UInt16} (hhigh : CodeUnit.isHighSurrogate high = true)
      (hlow : CodeUnit.isLowSurrogate low = true) (h : Paired rest) : Paired (high :: low :: rest)

theorem Paired.append {a b : List UInt16} (ha : Paired a) (hb : Paired b) : Paired (a ++ b) := by
  induction ha with
  | nil => exact hb
  | one hhigh hlow _ ih => exact .one hhigh hlow ih
  | pair hhigh hlow _ ih => exact .pair hhigh hlow ih

theorem Paired.head_not_low {units : List UInt16} (h : Paired units) (unit : UInt16)
    (hu : units.head? = some unit) : CodeUnit.isLowSurrogate unit = false := by
  cases h with
  | nil => cases hu
  | one _ hlow _ => cases hu; exact hlow
  | pair hhigh _ _ => cases hu; exact CodeUnit.isLowSurrogate_eq_false_of_high hhigh

/-- A cut in front of anything but a low surrogate parts two characters. -/
theorem Paired.split : ∀ {a b : List UInt16}, Paired (a ++ b) →
    (∀ unit, b.head? = some unit → CodeUnit.isLowSurrogate unit = false) → Paired a ∧ Paired b
  | [], _, h, _ => ⟨.nil, h⟩
  | [_], b, h, hb => by
    cases h with
    | one hhigh hlow h => exact ⟨.one hhigh hlow .nil, h⟩
    | pair _ hlow _ => have := hb _ rfl; rw [hlow] at this; cases this
  | x :: y :: a, b, h, hb => by
    generalize he : x :: y :: a ++ b = units at h
    cases h with
    | nil => cases he
    | one hhigh hlow h =>
      obtain ⟨rfl, rfl⟩ := List.cons.inj he
      have ih := Paired.split (a := y :: a) h hb
      exact ⟨.one hhigh hlow ih.1, ih.2⟩
    | pair hhigh hlow h =>
      simp only [List.cons_append, List.cons.injEq] at he
      obtain ⟨rfl, rfl, rfl⟩ := he
      have ih := Paired.split h hb
      exact ⟨.pair hhigh hlow ih.1, ih.2⟩

theorem Paired.not_low : ∀ {a b : List UInt16} {unit : UInt16}, Paired (a ++ unit :: b) →
    (∀ last, a.getLast? = some last → CodeUnit.isHighSurrogate last = false) →
    CodeUnit.isLowSurrogate unit = false
  | [], _, _, h, _ => h.head_not_low _ rfl
  | [x], _, _, h, ha => by
    cases h with
    | one _ _ h => exact h.head_not_low _ rfl
    | pair hhigh _ _ => have := ha x rfl; rw [hhigh] at this; cases this
  | x :: y :: a, b, unit, h, ha => by
    have ha' : ∀ last, (y :: a).getLast? = some last → CodeUnit.isHighSurrogate last = false := ha
    cases h with
    | one _ _ h => exact Paired.not_low (a := y :: a) h ha'
    | pair _ _ h =>
      refine Paired.not_low h fun last hl => ha' last ?_
      rw [List.getLast?_cons, hl]
      rfl

theorem Paired.exists_high {a b : List UInt16} {unit : UInt16} (h : Paired (a ++ unit :: b))
    (hlow : CodeUnit.isLowSurrogate unit = true) :
    ∃ high, a.getLast? = some high ∧ CodeUnit.isHighSurrogate high = true := by
  apply Classical.byContradiction
  intro hnone
  have hnot : CodeUnit.isLowSurrogate unit = false := by
    apply h.not_low
    intro last hl
    cases hhigh : CodeUnit.isHighSurrogate last with
    | true => exact absurd ⟨last, hl, hhigh⟩ hnone
    | false => rfl
  rw [hlow] at hnot
  cases hnot

/-! ## One character -/

theorem Utf8Form.admits_of_append {form : Utf8Form} {a b : List UInt8}
    (h : form.admits (a ++ b) = true) : form.admits a = true := by
  cases a with
  | nil => rfl
  | cons second rest =>
    simp only [List.cons_append, admits, List.all_append, Bool.and_eq_true] at h ⊢
    exact ⟨h.1, h.2.1⟩

theorem decodeUtf8_append (bytes more : List UInt8) (h : decodeUtf8 bytes ≠ .incomplete) :
    decodeUtf8 (bytes ++ more) = decodeUtf8 bytes := by
  match bytes with
  | [] => exact absurd rfl h
  | lead :: rest =>
    simp only [List.cons_append, decodeUtf8] at h ⊢
    split
    · rfl
    next hlead =>
      rw [if_neg hlead] at h
      split
      · rfl
      next form hform =>
        simp only [hform] at h
        by_cases hlen : form.length - 1 ≤ rest.length
        · rw [List.take_append_of_le_length hlen]
        · have ht : rest.take (form.length - 1) = rest := List.take_of_length_le (by omega)
          rw [ht] at h ⊢
          cases ha : form.admits rest with
          | true =>
            simp only [ha, Bool.not_true, Bool.false_eq_true, if_false] at h
            rw [if_pos (by omega)] at h
            exact absurd rfl h
          | false =>
            have hn : form.admits ((rest ++ more).take (form.length - 1)) = false := by
              rw [List.take_append, ht]
              cases hc : form.admits (rest ++ more.take (form.length - 1 - rest.length)) with
              | false => rfl
              | true => rw [Utf8Form.admits_of_append hc] at ha; cases ha
            simp [hn]

theorem decodeUtf16_append (unitOf : UInt8 → UInt8 → UInt16) (bytes more : List UInt8)
    (h : decodeUtf16 unitOf bytes ≠ .incomplete) :
    decodeUtf16 unitOf (bytes ++ more) = decodeUtf16 unitOf bytes := by
  match bytes with
  | [] | [_] => exact absurd rfl h
  | [a, b] | [a, b, _] =>
    simp only [decodeUtf16, List.cons_append] at h ⊢
    split
    · rfl
    next hlow =>
      rw [if_neg hlow] at h
      split
      · rfl
      next hhigh => rw [if_neg hhigh] at h; exact absurd rfl h
  | _ :: _ :: _ :: _ :: _ => rfl

/-- What stands at the front of a byte string, if it is not cut off there, does
not depend on the bytes behind the string. -/
theorem Encoding.decode_append (encoding : Encoding) (bytes more : List UInt8)
    (h : encoding.decode bytes ≠ .incomplete) :
    encoding.decode (bytes ++ more) = encoding.decode bytes := by
  cases encoding with
  | utf8 => exact decodeUtf8_append bytes more h
  | utf16le => exact decodeUtf16_append _ bytes more h
  | utf16be => exact decodeUtf16_append _ bytes more h
  | latin1 => cases bytes with
    | nil => exact absurd rfl h
    | cons b rest => rfl
  | ascii => cases bytes with
    | nil => exact absurd rfl h
    | cons b rest => rfl

/-- A character of one unit is no surrogate, and one of two units is a pair. -/
def Decoded.Regular : Decoded → Prop
  | one unit _ =>
    CodeUnit.isHighSurrogate unit = false ∧ CodeUnit.isLowSurrogate unit = false
  | pair high low _ =>
    CodeUnit.isHighSurrogate high = true ∧ CodeUnit.isLowSurrogate low = true
  | incomplete | malformed => True

theorem Decoded.Regular.paired {d : Decoded} (h : d.Regular) : Paired d.units := by
  cases d with
  | one unit width => exact .one h.1 h.2 .nil
  | pair high low width => exact .pair h.1 h.2 .nil
  | incomplete | malformed => exact .nil

theorem Decoded.ofScalar_regular {width value : Nat} (h : Utf8Form.Holds width value) :
    (ofScalar value width).Regular := by
  have hs (n : Nat) (hn : n < 0x10000) : n.toUInt16.toNat = n := by
    rw [Nat.toUInt16_eq, UInt16.toNat_ofNat']
    omega
  unfold Utf8Form.Holds at h
  unfold ofScalar
  split
  · next hv =>
    have hh := CodeUnit.isHighSurrogate_iff value.toUInt16
    have hl := CodeUnit.isLowSurrogate_iff value.toUInt16
    rw [hs _ hv] at hh hl
    refine ⟨?_, ?_⟩
    · rw [← Bool.not_eq_true, hh]; omega
    · rw [← Bool.not_eq_true, hl]; omega
  · next hv =>
    have hh := CodeUnit.isHighSurrogate_iff (0xD800 + (value - 0x10000) / 0x400).toUInt16
    have hl := CodeUnit.isLowSurrogate_iff (0xDC00 + (value - 0x10000) % 0x400).toUInt16
    rw [hs _ (by omega)] at hh hl
    exact ⟨hh.2 (by omega), hl.2 (by omega)⟩

theorem Decoded.regular_of_byte (b : UInt8) (width : Nat) : (one b.toUInt16 width).Regular := by
  have hb := b.toNat_lt
  have hh := CodeUnit.isHighSurrogate_iff b.toUInt16
  have hl := CodeUnit.isLowSurrogate_iff b.toUInt16
  rw [UInt8.toNat_toUInt16] at hh hl
  refine ⟨?_, ?_⟩
  · rw [← Bool.not_eq_true, hh]; omega
  · rw [← Bool.not_eq_true, hl]; omega

theorem decodeUtf8_regular (bytes : List UInt8) : (decodeUtf8 bytes).Regular := by
  match bytes with
  | [] => trivial
  | lead :: rest =>
    simp only [decodeUtf8]
    split
    · exact Decoded.regular_of_byte lead 1
    · split
      · trivial
      next form hform =>
        split
        · trivial
        next ha =>
          split
          · trivial
          next hl =>
            simp only [Bool.not_eq_true', Bool.not_eq_false] at ha
            refine Decoded.ofScalar_regular (Utf8Form.scalar_holds hform ha ?_)
            have := List.length_take_le (form.length - 1) rest
            omega

theorem decodeUtf16_regular (unitOf : UInt8 → UInt8 → UInt16) (bytes : List UInt8) :
    (decodeUtf16 unitOf bytes).Regular := by
  unfold decodeUtf16
  split
  · simp only
    split
    · trivial
    next hlow =>
      split
      · next hhigh => exact ⟨by simpa using hhigh, by simpa using hlow⟩
      next hhigh =>
        split
        · split
          · next hl => exact ⟨by simpa using hhigh, hl⟩
          · trivial
        · trivial
  · trivial

theorem Encoding.decode_regular (encoding : Encoding) (bytes : List UInt8) :
    (encoding.decode bytes).Regular := by
  cases encoding with
  | utf8 => exact decodeUtf8_regular bytes
  | utf16le => exact decodeUtf16_regular _ bytes
  | utf16be => exact decodeUtf16_regular _ bytes
  | latin1 => cases bytes with
    | nil => trivial
    | cons b rest => exact Decoded.regular_of_byte b 1
  | ascii => cases bytes with
    | nil => trivial
    | cons b rest =>
      simp only [decode]
      split
      · exact Decoded.regular_of_byte b 1
      · trivial

/-! ## Whole texts -/

theorem Encoding.decode_nil (encoding : Encoding) : encoding.decode [] = .incomplete := by
  cases encoding <;> rfl

theorem Encoding.decodeAll_nil (encoding : Encoding) :
    encoding.decodeAll [] = ⟨[], 0, .complete⟩ := by
  rw [decodeAll_eq, decode_nil]
  rfl

@[simp] theorem WholeText.units_prepend (units : List UInt16) (width : Nat) (text : WholeText) :
    (text.prepend units width).units = units ++ text.units := rfl

@[simp] theorem WholeText.consumed_prepend (units : List UInt16) (width : Nat)
    (text : WholeText) : (text.prepend units width).consumed = width + text.consumed := rfl

@[simp] theorem WholeText.ending_prepend (units : List UInt16) (width : Nat) (text : WholeText) :
    (text.prepend units width).ending = text.ending := rfl

theorem WholeText.prepend_prepend (a b : List UInt16) (m n : Nat) (text : WholeText) :
    (text.prepend b n).prepend a m = text.prepend (a ++ b) (m + n) := by
  simp [prepend, Nat.add_assoc]

theorem WholeText.prepend_nil (text : WholeText) : text.prepend [] 0 = text := by
  simp [prepend]

theorem Encoding.decodeAll_append {encoding : Encoding} {bytes : List UInt8} {d : Decoded}
    (h : encoding.decode bytes = d) (hd : d.units ≠ []) (more : List UInt8) :
    encoding.decodeAll (bytes ++ more) =
      (encoding.decodeAll (bytes.drop d.width ++ more)).prepend d.units d.width := by
  have hw := width_bounds h
  have hne : encoding.decode bytes ≠ .incomplete := by
    rintro he
    rw [he] at h
    subst h
    exact hd rfl
  rw [decodeAll_eq, decode_append encoding bytes more hne, h]
  have hdrop : (bytes ++ more).drop d.width = bytes.drop d.width ++ more :=
    List.drop_append_of_le_length hw.2
  cases d with
  | one unit width => simp only [Decoded.width] at hdrop ⊢; rw [hdrop]; rfl
  | pair high low width => simp only [Decoded.width] at hdrop ⊢; rw [hdrop]; rfl
  | incomplete => exact absurd rfl hd
  | malformed => exact absurd rfl hd

theorem Encoding.decodeAll_malformed {encoding : Encoding} {bytes : List UInt8}
    (h : encoding.decode bytes = .malformed) (more : List UInt8) :
    encoding.decodeAll (bytes ++ more) = ⟨[], 0, .malformed⟩ := by
  rw [decodeAll_eq, decode_append encoding bytes more (by rw [h]; exact fun h => nomatch h), h]

theorem Encoding.decodeAll_incomplete {encoding : Encoding} {bytes : List UInt8}
    (h : encoding.decode bytes = .incomplete) (hb : bytes ≠ []) :
    encoding.decodeAll bytes = ⟨[], 0, .cutOff⟩ := by
  rw [decodeAll_eq, h]
  simp [hb]

theorem Encoding.decodeAll_paired (encoding : Encoding) (bytes : List UInt8) :
    Paired (encoding.decodeAll bytes).units := by
  fun_induction decodeAll encoding bytes with
  | case1 bytes unit width h ih | case2 bytes high low width h ih =>
    have hd := (encoding.decode_regular bytes).paired
    rw [h] at hd
    exact hd.append ih
  | case3 | case4 => exact .nil

/-- A text that decodes completely uses up all bytes. -/
theorem Encoding.consumed_of_complete {encoding : Encoding} {bytes : List UInt8}
    (h : (encoding.decodeAll bytes).ending = .complete) :
    (encoding.decodeAll bytes).consumed = bytes.length := by
  fun_induction decodeAll encoding bytes with
  | case1 bytes unit width hd ih | case2 bytes high low width hd ih =>
    have hw := (width_bounds hd).2
    have ih := ih h
    simp only [Decoded.width, List.length_drop] at hw ih
    simp only [WholeText.consumed_prepend, ih]
    omega
  | case3 bytes hd =>
    cases bytes with
    | nil => rfl
    | cons b rest => simp at h
  | case4 => cases h

theorem Encoding.consumed_lt {encoding : Encoding} {bytes : List UInt8}
    (h : (encoding.decodeAll bytes).ending ≠ .complete) :
    (encoding.decodeAll bytes).consumed < bytes.length := by
  fun_induction decodeAll encoding bytes with
  | case1 bytes unit width hd ih | case2 bytes high low width hd ih =>
    have hw := (width_bounds hd).2
    have ih := ih h
    simp only [Decoded.width, List.length_drop] at hw ih
    simp only [WholeText.consumed_prepend]
    omega
  | case3 bytes hd =>
    cases bytes with
    | nil => simp at h
    | cons b rest => exact Nat.succ_pos _
  | case4 bytes hd =>
    cases bytes with
    | nil => cases encoding <;> cases hd
    | cons b rest => exact Nat.succ_pos _

/-- Bytes behind a whole text are read as if they stood alone. -/
theorem Encoding.decodeAll_append_of_complete {encoding : Encoding} {bytes : List UInt8}
    (h : (encoding.decodeAll bytes).ending = .complete) (more : List UInt8) :
    encoding.decodeAll (bytes ++ more) =
      (encoding.decodeAll more).prepend (encoding.decodeAll bytes).units bytes.length := by
  fun_induction decodeAll encoding bytes with
  | case1 bytes unit width hd ih | case2 bytes high low width hd ih =>
    have hw := (width_bounds hd).2
    rw [decodeAll_append hd (by simp [Decoded.units]) more]
    simp only [Decoded.width, Decoded.units] at hw ⊢
    rw [ih h, WholeText.prepend_prepend, List.length_drop, Nat.add_sub_cancel' hw]
    rfl
  | case3 bytes hd =>
    cases bytes with
    | nil => exact (WholeText.prepend_nil _).symm
    | cons b rest => simp at h
  | case4 => cases h

/-- The text from one of its characters on: the bytes in front of it are those
that its units take. -/
theorem Encoding.decodeAll_drop (encoding : Encoding) (bytes : List UInt8) (n : Nat)
    (hn : n ≤ (encoding.decodeAll bytes).units.length)
    (hb : ∀ unit, (encoding.decodeAll bytes).units[n]? = some unit →
      CodeUnit.isLowSurrogate unit = false) :
    encoding.decodeAll
        (bytes.drop (encoding.encodedLength ((encoding.decodeAll bytes).units.take n))) =
      ⟨(encoding.decodeAll bytes).units.drop n, (encoding.decodeAll bytes).consumed -
        encoding.encodedLength ((encoding.decodeAll bytes).units.take n),
        (encoding.decodeAll bytes).ending⟩ := by
  fun_induction decodeAll encoding bytes generalizing n with
  | case1 bytes unit width h ih =>
    have hl := encoding.decode_encodedLength bytes
    simp only [h, Decoded.units, Decoded.width, encodedLength_cons, encodedLength_nil,
      Nat.add_zero] at hl
    cases n with
    | zero => rw [List.take_zero, encodedLength_nil, List.drop_zero, decodeAll_eq, h]; rfl
    | succ n =>
      simp only [WholeText.prepend, List.singleton_append, List.length_cons,
        List.getElem?_cons_succ] at hn hb
      have ih := ih n (by omega) hb
      simp only [WholeText.prepend, List.singleton_append, List.take_succ_cons,
        List.drop_succ_cons, encodedLength_cons, hl]
      rw [← List.drop_drop, ih, Nat.add_sub_add_left]
  | case2 bytes high low width h ih =>
    have hl := encoding.decode_encodedLength bytes
    simp only [h, Decoded.units, Decoded.width, encodedLength_cons, encodedLength_nil,
      Nat.add_zero] at hl
    rcases n with _ | _ | n
    · rw [List.take_zero, encodedLength_nil, List.drop_zero, decodeAll_eq, h]
      rfl
    · -- a cut behind the high surrogate stands in front of its low one
      have hr := encoding.decode_regular bytes
      rw [h] at hr
      have hlow := hb low rfl
      rw [hr.2] at hlow
      cases hlow
    · simp only [WholeText.prepend, List.cons_append, List.nil_append, List.length_cons,
        List.getElem?_cons_succ] at hn hb
      have ih := ih n (by omega) hb
      simp only [WholeText.prepend, List.cons_append, List.nil_append, List.take_succ_cons,
        List.drop_succ_cons, encodedLength_cons]
      rw [← Nat.add_assoc, hl, ← List.drop_drop, ih, Nat.add_sub_add_left]
  | case3 bytes h | case4 bytes h =>
    obtain rfl : n = 0 := by simpa using hn
    rw [List.take_zero, encodedLength_nil, List.drop_zero, decodeAll_eq, h]
    rfl

end TextSeek

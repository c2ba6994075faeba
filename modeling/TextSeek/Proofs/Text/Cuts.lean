import TextSeek.Proofs.Text.CharacterForms
import TextSeek.Proofs.Text.LineStarts

/-!
# Texts that are cut off

Of a text whose bytes are cut off somewhere, those characters are left that end
before the cut (`Fits`). A cut inside a character leaves the front of it behind
them, which is incomplete; so no cut makes a good text malformed. The lines of
what is left are those that start in it.

Results:
* `decodeAll_take`: the text in front of a cut.
* `decodeAll_front`: a cut behind a character.
* `lineStarts_take`: its lines.
-/
namespace TextSeek

namespace Encoding

variable {encoding : Encoding} {bytes : List UInt8} {units : List UInt16} {limit m n : Nat}

/-! ## Lengths -/

theorem encodedLength_take_le (encoding : Encoding) (units : List UInt16) (h : m ≤ n) :
    encoding.encodedLength (units.take m) ≤ encoding.encodedLength (units.take n) := by
  rw [show n = m + (n - m) by omega, List.take_add, encodedLength_append]
  exact Nat.le_add_right _ _

theorem byteLength_of_pair {high low : UInt16} {width : Nat}
    (h : encoding.decode bytes = .pair high low width) :
    encoding.byteLength high = width ∧ encoding.byteLength low = 0 := by
  have hlength := encoding.decode_encodedLength bytes
  have hlow := encoding.decode_regular bytes
  rw [h] at hlength hlow
  have hrange := (CodeUnit.isLowSurrogate_iff low).1 hlow.2
  have hhigh : CodeUnit.isHighSurrogate low = false := by
    rw [← Bool.not_eq_true, CodeUnit.isHighSurrogate_iff]
    omega
  suffices h0 : encoding.byteLength low = 0 by
    simp only [Decoded.units, encodedLength_cons, encodedLength_nil, h0, Decoded.width] at hlength
    exact ⟨hlength, h0⟩
  cases encoding with
  | utf8 =>
    have h1 : ¬ low < 0x80 := by simp only [UInt16.lt_iff_toNat_lt, UInt16.reduceToNat]; omega
    have h2 : ¬ low < 0x800 := by simp only [UInt16.lt_iff_toNat_lt, UInt16.reduceToNat]; omega
    simp [byteLength, h1, h2, hhigh, hlow.2]
  | utf16le | utf16be => simp [byteLength, hhigh, hlow.2]
  | latin1 => cases bytes <;> cases h
  | ascii =>
    cases bytes with
    | nil => cases h
    | cons b rest =>
      simp only [decode] at h
      split at h <;> cases h

/-- The second half of a pair takes no bytes of its own in a text. -/
theorem byteLength_of_low {low : UInt16} (h : low ∈ (encoding.decodeAll bytes).units)
    (hlow : CodeUnit.isLowSurrogate low = true) : encoding.byteLength low = 0 := by
  fun_induction decodeAll encoding bytes with
  | case1 bytes unit width hd ih =>
    rw [WholeText.units_prepend] at h
    rcases List.mem_cons.1 h with rfl | h
    · have hregular := encoding.decode_regular bytes
      rw [hd] at hregular
      exact absurd hlow (by rw [hregular.2]; decide)
    · exact ih h
  | case2 bytes high unit width hd ih =>
    rw [WholeText.units_prepend] at h
    rcases List.mem_cons.1 h with rfl | h
    · have hregular := encoding.decode_regular bytes
      rw [hd] at hregular
      exact absurd hlow (by
        rw [CodeUnit.isLowSurrogate_eq_false_of_high hregular.1]
        decide)
    · rcases List.mem_cons.1 h with rfl | h
      · exact (byteLength_of_pair hd).2
      · exact ih h
  | case3 | case4 => cases h

/-- A character takes its bytes with its first unit. -/
theorem width_le_of_take {d : Decoded} (h : encoding.decode bytes = d) (hd : d.units ≠ [])
    (more : List UInt16) (hm : 0 < m) :
    d.width ≤ encoding.encodedLength ((d.units ++ more).take m) := by
  have hlength := encoding.decode_encodedLength bytes
  obtain ⟨k, rfl⟩ : ∃ k, m = k + 1 := ⟨m - 1, by omega⟩
  cases d with
  | one unit width =>
    rw [h] at hlength
    simp only [Decoded.units, Decoded.width, List.cons_append, List.take_succ_cons,
      encodedLength_cons, encodedLength_nil] at hlength ⊢
    omega
  | pair high low width =>
    simp only [Decoded.units, Decoded.width, List.cons_append, List.take_succ_cons,
      encodedLength_cons, (byteLength_of_pair h).1]
    omega
  | incomplete => exact absurd rfl hd
  | malformed => exact absurd rfl hd

/-! ## What is left of a text -/

/-- Of the text `units`, the first `n` are those of the characters that end within
the first `limit` bytes. -/
structure Fits (encoding : Encoding) (units : List UInt16) (limit n : Nat) : Prop where
  le : n ≤ units.length
  fits : encoding.encodedLength (units.take n) ≤ limit
  whole : ∀ unit, units[n]? = some unit → CodeUnit.isLowSurrogate unit = false
  greatest : ∀ m, m ≤ units.length → encoding.encodedLength (units.take m) ≤ limit → m ≤ n

theorem Fits.nil (encoding : Encoding) (limit : Nat) : encoding.Fits [] limit 0 where
  le := Nat.le_refl _
  fits := Nat.zero_le _
  whole _ hu := nomatch hu
  greatest _ hm _ := hm

theorem Fits.of_lt {d : Decoded} (h : encoding.decode bytes = d) (hd : d.units ≠ [])
    (more : List UInt16) (hl : limit < d.width) : encoding.Fits (d.units ++ more) limit 0 where
  le := Nat.zero_le _
  fits := Nat.zero_le _
  whole unit hu := by
    have hr := (encoding.decode_regular bytes).paired
    rw [h] at hr
    refine hr.head_not_low unit ?_
    rwa [← List.head?_eq_getElem?, List.head?_append_of_ne_nil _ hd] at hu
  greatest m _ hm := by
    refine Nat.le_of_not_lt fun h0 => ?_
    have := width_le_of_take h hd more h0
    omega

theorem Fits.of_le {d : Decoded} (h : encoding.decode bytes = d)
    {more : List UInt16} (hl : d.width ≤ limit) (hf : encoding.Fits more (limit - d.width) n) :
    encoding.Fits (d.units ++ more) limit (d.units.length + n) where
  le := by
    rw [List.length_append]
    exact Nat.add_le_add_left hf.le _
  fits := by
    have hlength := encoding.decode_encodedLength bytes
    have hfits := hf.fits
    rw [h] at hlength
    rw [List.take_length_add_append, encodedLength_append, hlength]
    omega
  whole unit hu := by
    rw [List.getElem?_append_right (Nat.le_add_right _ _), Nat.add_sub_cancel_left] at hu
    exact hf.whole unit hu
  greatest m hm hle := by
    have hlength := encoding.decode_encodedLength bytes
    rw [h] at hlength
    rw [List.length_append] at hm
    by_cases hk : m ≤ d.units.length
    · omega
    · have := hf.greatest (m - d.units.length) (by omega) (by
        rw [show m = d.units.length + (m - d.units.length) by omega,
          List.take_length_add_append, encodedLength_append, hlength] at hle
        omega)
      omega

/-- The bytes are what a cut behind the first `limit` ones has left of a text:
whole characters, and at most the front of another one. -/
def Leaves (encoding : Encoding) (units : List UInt16) (limit : Nat) (bytes : List UInt8) : Prop :=
  ∃ n, encoding.Fits units limit n ∧ (encoding.decodeAll bytes).units = units.take n ∧
    (encoding.decodeAll bytes).ending ≠ .malformed

/-- A cut is inside the first character, or behind it. -/
theorem Leaves.of_front {d : Decoded} (hd : encoding.decode bytes = d) (hu : d.units ≠ [])
    (more : List UInt16) (hmore : d.width ≤ limit →
      encoding.Leaves more (limit - d.width) ((bytes.drop d.width).take (limit - d.width))) :
    encoding.Leaves (d.units ++ more) limit (bytes.take limit) := by
  by_cases hl : limit < d.width
  · refine ⟨0, .of_lt hd hu more hl, ?_⟩
    rw [decodeAll_eq, decode_take_of_lt_width hd hu hl]
    refine ⟨rfl, ?_⟩
    simp only
    split <;> decide
  · have hl : d.width ≤ limit := Nat.le_of_not_lt hl
    obtain ⟨n, hf, hunits, hne⟩ := hmore hl
    have hfront := decodeAll_take_width hd hu
    have hall := decodeAll_append_of_complete
      (show (encoding.decodeAll (bytes.take d.width)).ending = .complete by rw [hfront])
      ((bytes.drop d.width).take (limit - d.width))
    rw [← List.take_add, Nat.add_sub_cancel' hl, hfront] at hall
    refine ⟨d.units.length + n, .of_le hd hl hf, ?_, ?_⟩
    · rw [hall, WholeText.units_prepend, hunits, List.take_length_add_append]
    · rw [hall]
      exact hne

theorem decodeAll_take (hc : (encoding.decodeAll bytes).ending = .complete) (limit : Nat) :
    encoding.Leaves (encoding.decodeAll bytes).units limit (bytes.take limit) := by
  fun_induction decodeAll encoding bytes generalizing limit with
  | case1 bytes unit width hd ih =>
    exact .of_front hd (by simp [Decoded.units]) _ fun _ => ih hc (limit - width)
  | case2 bytes high low width hd ih =>
    exact .of_front hd (by simp [Decoded.units]) _ fun _ => ih hc (limit - width)
  | case3 bytes hd =>
    cases bytes with
    | nil =>
      refine ⟨0, .nil encoding limit, ?_⟩
      rw [List.take_nil, decodeAll_nil]
      exact ⟨rfl, by decide⟩
    | cons b rest => simp at hc
  | case4 => cases hc

/-- The bytes of the first units of a text are those of whole characters. -/
theorem decodeAll_front (hc : (encoding.decodeAll bytes).ending = .complete)
    (hm : m ≤ (encoding.decodeAll bytes).units.length) :
    let width := encoding.encodedLength ((encoding.decodeAll bytes).units.take m)
    ∃ n, m ≤ n ∧ encoding.decodeAll (bytes.take width) =
      ⟨(encoding.decodeAll bytes).units.take n, width, .complete⟩ := by
  intro width
  obtain ⟨n, hfits, hunits, -⟩ := decodeAll_take hc width
  have hge : m ≤ n := hfits.greatest m hm (Nat.le_refl _)
  have hconsumed : (encoding.decodeAll (bytes.take width)).consumed = width := by
    rw [← decodeAll_encodedLength, hunits]
    exact Nat.le_antisymm hfits.fits (encodedLength_take_le encoding _ hge)
  have hall : (encoding.decodeAll (bytes.take width)).ending = .complete := by
    apply Decidable.of_not_not
    intro hne
    have hlt := consumed_lt hne
    rw [hconsumed, List.length_take] at hlt
    omega
  refine ⟨n, hge, ?_⟩
  rw [WholeText.mk.injEq]
  exact ⟨hunits, hconsumed, hall⟩

end Encoding

/-! ## What is left of its lines -/

/-- The lines of the front of a text are those that start in it. -/
theorem lineStarts_take {units : List UInt16} {k start : Nat}
    (h : (lineStarts units)[k]? = some start) (n : Nat) :
    (lineStarts (units.take n))[k]? = if start < n then some start else none := by
  have hsplit : lineStarts units = lineStarts (units.take n) ++
      lineStarts.go (units.take n).length (units.take n).getLast? (units.drop n) := by
    rw [← lineStarts_append, List.take_append_drop]
  rw [hsplit] at h
  by_cases hk : k < (lineStarts (units.take n)).length
  · rw [List.getElem?_append_left hk] at h
    have hlt := lineStarts_lt h
    rw [List.length_take] at hlt
    rw [if_pos (by omega), h]
  · rw [List.getElem?_append_right (Nat.le_of_not_lt hk)] at h
    obtain ⟨i, unit, rfl, hu, -⟩ := mem_lineStarts_go.1 (List.mem_of_getElem? h)
    obtain ⟨hlt, -⟩ := List.getElem?_eq_some_iff.1 hu
    rw [List.length_drop] at hlt
    rw [List.length_take, Nat.min_eq_left (by omega), if_neg (by omega)]
    exact List.getElem?_eq_none (Nat.le_of_not_lt hk)

end TextSeek

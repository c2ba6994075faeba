import TextSeek.Proofs.Index.Segments

/-!
# Where a text is cut

The partitions of a text follow from its units alone. A call hands out as many units
as it has room for, and one less if it would stop in the middle of a pair; it notices
the end of the text exactly if room is left behind the last unit. How many reads it
takes to find the units, and at which of them the end is reported, makes no
difference.

`cutText` cuts a text that is known as a whole. The calls of a decoder, one after
another, cut it at the same places.

Results:
* `fill_units`, `fill_isFinished`: what one call hands out, and whether it has come to
  the end.
* `cutPartitions_eq`, `partitions_eq`: the calls behind a seam, and all calls.
-/
namespace TextSeek

theorem Encoding.eq_nil_of_complete {encoding : Encoding} {bytes : List UInt8}
    (hc : (encoding.decodeAll bytes).ending = .complete)
    (hu : (encoding.decodeAll bytes).units = []) : bytes = [] := by
  have hlen := Encoding.consumed_of_complete hc
  rw [← Encoding.decodeAll_encodedLength, hu] at hlen
  exact List.length_eq_zero_iff.1 hlen.symm

/-- The number of units that are taken of a text where there is room for `room`. -/
def wholeCut (text : List UInt16) (room : Nat) : Nat :=
  if text[room]?.any CodeUnit.isLowSurrogate then room - 1 else room

theorem wholeCut_pos {room : Nat} (h : 2 ≤ room) (text : List UInt16) :
    0 < wholeCut text room := by
  unfold wholeCut
  split <;> omega

theorem wholeCut_of_length_le {text : List UInt16} {room : Nat} (h : text.length ≤ room) :
    wholeCut text room = room := by
  rw [wholeCut, List.getElem?_eq_none h]
  rfl

theorem wholeCut_append {found more : List UInt16} {room : Nat} (hp : Paired more)
    (hlen : found.length ≤ room) (hfull : more ≠ [] → room ≤ found.length + 1)
    (hshort : found.length < room → ∀ unit, more.head? = some unit →
      CodeUnit.isHighSurrogate unit = true) :
    (found ++ more).take (wholeCut (found ++ more) room) = found := by
  cases hp with
  | nil =>
    rw [List.append_nil, wholeCut_of_length_le hlen]
    exact List.take_of_length_le hlen
  | @one unit rest hhigh hlow _ =>
    have heq : found.length = room := by
      apply Nat.le_antisymm hlen
      apply Nat.le_of_not_lt
      intro hlt
      have := hshort hlt unit rfl
      rw [hhigh] at this
      cases this
    have hcut : wholeCut (found ++ unit :: rest) room = room := by
      simp [wholeCut, ← heq, hlow]
    rw [hcut, ← heq]
    exact List.take_left
  | @pair high low rest hhigh hlow _ =>
    have hcut : wholeCut (found ++ high :: low :: rest) room = found.length := by
      rcases Nat.lt_or_eq_of_le hlen with hlt | heq
      · have heq : room = found.length + 1 := by
          have := hfull (by simp)
          omega
        simp [wholeCut, heq, hlow]
      · have := CodeUnit.isLowSurrogate_eq_false_of_high hhigh
        simp [wholeCut, ← heq, this]
    rw [hcut]
    exact List.take_left

/-! ## One call -/

namespace Decoder

variable {d : Decoder}

theorem rest_ne_nil (h : d.encoding.decode d.raw ≠ .incomplete) : d.rest ≠ [] := by
  intro hr
  unfold rest at hr
  rw [List.append_eq_nil_iff] at hr
  rw [hr.1, Encoding.decode_nil] at h
  exact h rfl

theorem Steady.ended_eq_false (hs : d.Steady) (h : d.encoding.decode d.raw ≠ .incomplete) :
    d.ended = false := by
  rw [← Bool.not_eq_true]
  exact fun he => h (hs.ended he).2

theorem isFinished_eq_false (h : d.ended = false) : d.isFinished = false := by
  unfold isFinished
  rw [h, Bool.false_and]

/-- How a call on a steady stream leaves the decoder: it has seen the end exactly if
room and nothing else is left, and else at most one unit would still fit. -/
structure Halts (next : Decoder) (handed room : Nat) : Prop where
  finished_iff : next.isFinished = true ↔ handed < room ∧ next.rest = []
  full : (next.encoding.decodeAll next.rest).units ≠ [] → room ≤ handed + 1

theorem Stuck.halts {handed room : Nat} (h : d.Stuck) (hs : d.Steady) : d.Halts handed room := by
  obtain ⟨ending, hne, ht⟩ := h
  have hrest : d.rest ≠ [] := by
    intro hr
    rw [hr, Encoding.decodeAll_nil, WholeText.mk.injEq] at ht
    exact hne ht.2.2.symm
  refine ⟨⟨?_, fun h => absurd h.2 hrest⟩, fun h => absurd (by rw [ht]) h⟩
  intro hf
  exact absurd (rest_of_finished hs hf) hrest

theorem fillLoop_halts (hs : d.Steady) {room : Nat} (he : d.ended = false ∨ 0 < room)
    (found : List UInt16) : (d.fillLoop room found).decoder.Halts
      (d.fillLoop room found).units.length (found.length + room) := by
  fun_induction fillLoop d room found with
  | case1 d found =>
    have hd : d.ended = false := he.resolve_right (by omega)
    have hf := isFinished_eq_false hd
    exact ⟨by simp [hf], by simp⟩
  | case2 d room found hr unit width hd ih =>
    have hn : d.encoding.decode d.raw ≠ .incomplete := by rw [hd]; simp
    have hroom : found.length + 1 + (room - 1) = found.length + room := by omega
    have := ih (hs.advance hn width) (.inl (hs.ended_eq_false hn))
    rwa [List.length_cons, hroom] at this
  | case3 d room found hr high low width hd h2 =>
    have hn : d.encoding.decode d.raw ≠ .incomplete := by rw [hd]; simp
    have hf := isFinished_eq_false (hs.ended_eq_false hn)
    refine ⟨by simp [hf, rest_ne_nil hn], fun _ => ?_⟩
    rw [List.length_reverse]
    omega
  | case4 d room found hr high low width hd h2 ih =>
    have hn : d.encoding.decode d.raw ≠ .incomplete := by rw [hd]; simp
    have hroom : found.length + 1 + 1 + (room - 2) = found.length + room := by omega
    have := ih (hs.advance hn width) (.inl (hs.ended_eq_false hn))
    rwa [List.length_cons, List.length_cons, hroom] at this
  | case5 d room found hr hd error next hf =>
    rcases hs.refill hd hf with ⟨-, h | ⟨h, -⟩⟩ <;> cases h
  | case6 d room found hr hd next hf hraw =>
    rcases hs.refill hd hf with ⟨hn, h | ⟨-, hend, -⟩⟩
    · cases h
    · have hfin : next.isFinished = true := by simp [isFinished, hend, hraw]
      have hrest := rest_of_finished hn hfin
      refine ⟨?_, fun h => absurd (by rw [hrest, Encoding.decodeAll_nil]) h⟩
      simp only [hfin, hrest, List.length_reverse, true_iff, and_true]
      omega
  | case7 d room found hr hd next hf hraw =>
    rcases hs.refill hd hf with ⟨hn, h | ⟨-, hend, -⟩⟩
    · cases h
    · exact (hn.stuck_of_incomplete hend (by simpa using hraw)).halts hn
  | case8 d room found hr hd next hf ih =>
    exact ih (hs.refill hd hf).1 (.inr (by omega))
  | case9 d room found hr hd => exact (stuck_of_malformed hd).halts hs

theorem fill_halts (hs : d.Steady) {room : Nat} (h : 0 < room) :
    (d.fill room).decoder.Halts (d.fill room).units.length room := by
  simpa [fill] using fillLoop_halts hs (.inr h) []

/-- A call hands out as many units as there is room for, and never half a pair. -/
theorem fill_units (hs : d.Steady) {room : Nat} (h : 0 < room) :
    (d.fill room).units = (d.encoding.decodeAll d.rest).units.take
      (wholeCut (d.encoding.decodeAll d.rest).units room) := by
  obtain ⟨hlen, hg⟩ := d.fill_gives room
  have hfull := (fill_halts hs h).full
  rw [hg.encoding_eq] at hfull
  rw [hg.text_eq, WholeText.units_prepend]
  symm
  apply wholeCut_append (d.encoding.decodeAll_paired _) hlen hfull
  intro hlt unit hu
  exact fill_short hs hlt hu

/-- The next call goes on where this one has cut the text. -/
theorem fill_rest (hs : d.Steady) {room : Nat} (h : 0 < room) :
    (d.encoding.decodeAll (d.fill room).decoder.rest).units =
      (d.encoding.decodeAll d.rest).units.drop
        (wholeCut (d.encoding.decodeAll d.rest).units room) := by
  have hunits := fill_units hs h
  have htext := congrArg WholeText.units (d.fill_gives room).2.text_eq
  rw [WholeText.units_prepend] at htext
  apply List.append_cancel_left
  rw [← htext, hunits]
  exact (List.take_append_drop _ _).symm

theorem fill_isFinished (hs : d.Steady) {room : Nat} (h : 0 < room)
    (hc : (d.encoding.decodeAll d.rest).ending = .complete) :
    (d.fill room).decoder.isFinished = true ↔
      (d.encoding.decodeAll d.rest).units.length < room := by
  obtain ⟨hlen, hg⟩ := d.fill_gives room
  have hhalts := fill_halts hs h
  have hfull := hhalts.full
  rw [hg.encoding_eq] at hfull
  rw [hhalts.finished_iff, hg.text_eq, WholeText.units_prepend, List.length_append]
  rw [hg.text_eq, WholeText.ending_prepend] at hc
  constructor
  · rintro ⟨hlt, hrest⟩
    rw [hrest, Encoding.decodeAll_nil]
    exact hlt
  · intro hlt
    have hnil : (d.encoding.decodeAll (d.fill room).decoder.rest).units = [] := by
      apply Decidable.of_not_not
      intro hne
      have := hfull hne
      have := List.length_pos_iff.2 hne
      omega
    exact ⟨by omega, Encoding.eq_nil_of_complete hc hnil⟩

end Decoder

/-! ## One call after another -/

/-- Cuts a text that is known as a whole into partitions of up to `limit` units. -/
def cutText (encoding : Encoding) (limit : Nat) (seam : Seam) (text : List UInt16) :
    List Partition :=
  let room := max (limit - seam.held.toList.length) 2
  if _h : text.length < room then
    if seam.held.isNone && text.isEmpty then []
    else [(seam.cut encoding text (encoding.encodedLength text) true).1]
  else
    let found := text.take (wholeCut text room)
    let (partition, next) := seam.cut encoding found (encoding.encodedLength found) false
    partition :: cutText encoding limit next (text.drop (wholeCut text room))
termination_by text.length
decreasing_by
  have := wholeCut_pos (Nat.le_max_right (limit - seam.held.toList.length) 2) text
  rw [List.length_drop]
  omega

theorem cutText_nil (encoding : Encoding) (limit : Nat) : cutText encoding limit {} [] = [] := by
  have hlt : 0 < max (limit - 0) 2 := by omega
  unfold cutText
  exact dif_pos hlt

/-- The calls behind a seam cut the rest of a text that decodes as if it were known as
a whole. -/
theorem cutPartitions_eq {d : Decoder} (hs : d.Steady) (limit : Nat) (seam : Seam)
    (done : List Partition) (hc : (d.encoding.decodeAll d.rest).ending = .complete) :
    cutPartitions d limit seam done =
      .ok (done.reverse ++ cutText d.encoding limit seam (d.encoding.decodeAll d.rest).units) := by
  fun_induction cutPartitions d limit seam done with
  | case1 d seam done filled error hf =>
    obtain ⟨⟨ending, he, ht⟩, -, -⟩ := Decoder.fill_failure hs _ _ hf
    rw [ht] at hc
    exact absurd hc he
  | case2 d seam done filled hf hstop =>
    simp only [Bool.and_eq_true, Option.isNone_iff_eq_none, List.isEmpty_iff] at hstop
    obtain ⟨hh, hu⟩ := hstop
    rw [Decoder.text_of_nothing hs (Nat.le_max_right _ _) hf hu, cutText]
    simp [hh]
  | case3 d seam done filled hf hstop partition next hcut he =>
    have hroom : 0 < max (limit - seam.held.toList.length) 2 := by omega
    have hg : d.Gives filled.units filled.decoder := (d.fill_gives _).2
    have ht := hg.text_of_finished (Decoder.fill_steady hs _) he
    have hlt := (Decoder.fill_isFinished hs hroom hc).1 he
    rw [ht] at hlt ⊢
    rw [cutText]
    rw [hg.width_eq, he] at hcut
    simp only [hlt, hstop, hcut, dif_pos, List.reverse_cons]
    rfl
  | case4 d seam done filled hf hstop partition next hcut he ih =>
    have he : filled.decoder.isFinished = false := by simpa using he
    have hroom : 0 < max (limit - seam.held.toList.length) 2 := by omega
    have hg : d.Gives filled.units filled.decoder := (d.fill_gives _).2
    have hlong : ¬ (d.encoding.decodeAll d.rest).units.length <
        max (limit - seam.held.toList.length) 2 := by
      intro hlt
      have hend : filled.decoder.isFinished = true := (Decoder.fill_isFinished hs hroom hc).2 hlt
      rw [he] at hend
      cases hend
    rw [hg.text_eq, WholeText.ending_prepend, ← hg.encoding_eq] at hc
    rw [ih (Decoder.fill_steady hs _) hc, hg.encoding_eq]
    rw [hg.width_eq, he, show filled.units = _ from Decoder.fill_units hs hroom] at hcut
    rw [show (d.encoding.decodeAll filled.decoder.rest).units = _ from Decoder.fill_rest hs hroom,
      List.reverse_cons, List.append_assoc]
    conv => rhs; rw [cutText]
    simp only [hlong, hcut, dif_neg, not_false_eq_true]
    rfl

/-- All calls on a text that decodes cut it as if it were known as a whole. -/
theorem partitions_eq {d : Decoder} (hs : d.Steady) (limit : Nat)
    (hc : (d.encoding.decodeAll d.rest).ending = .complete) :
    partitions d limit =
      .ok (cutText d.encoding limit {} (d.encoding.decodeAll d.rest).units) :=
  cutPartitions_eq hs limit {} [] hc

end TextSeek

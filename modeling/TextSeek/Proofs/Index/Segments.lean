import TextSeek.Index.Partition
import TextSeek.Proofs.Stream.Filling
import TextSeek.Text.Lines

/-!
# Partitions are segments of the text

The partitions of a text, put one behind another, are the text. No cut parts a
carriage return from its line feed or the halves of a surrogate pair, so every
partition can be scanned on its own (`Segments`).

A carriage return at the end of a partition is held back, unless it is alone:
then the call that found it had room for another unit, and only a pair can
have stopped it.

Results:
* `Seam.cut_fits`, `Seam.cut_clear`: what one call cuts off, and what it leaves
  for the next one.
* `cutPartitions_segments`: what one call after another cuts off.
* `partitions_complete`, `partitions_malformed`: the partitions of a text that
  decodes, and the place where one does not.
-/
namespace TextSeek

/-- The partition `p` can stand behind the unit `previous`. -/
structure Partition.Fits (encoding : Encoding) (limit : Nat) (previous : Option UInt16)
    (p : Partition) : Prop where
  nonempty : p.units ≠ []
  short : p.units.length ≤ max limit 3
  bytes_eq : p.bytes = encoding.encodedLength p.units
  paired : Paired p.units
  startsLine_eq : p.startsLine = previous.all fun unit =>
    unit == lineFeed || unit == carriageReturn
  unbroken : ¬ (previous = some carriageReturn ∧ p.units.head? = some lineFeed)

/-- The partitions make up the text that stands behind the unit `previous`. -/
inductive Segments (encoding : Encoding) (limit : Nat) :
    Option UInt16 → List UInt16 → List Partition → Prop where
  | nil (previous : Option UInt16) : Segments encoding limit previous [] []
  | cons {previous : Option UInt16} {text : List UInt16} {p : Partition} {parts : List Partition}
    (hp : p.Fits encoding limit previous)
    (h : Segments encoding limit p.units.getLast? text parts) :
    Segments encoding limit previous (p.units ++ text) (p :: parts)

theorem Segments.getLast? {encoding : Encoding} {limit : Nat} {previous : Option UInt16}
    {text : List UInt16} {parts : List Partition}
    (h : Segments encoding limit previous text parts) :
    (parts.getLast?.bind fun p => p.units.getLast?) = text.getLast? := by
  induction h with
  | nil => rfl
  | @cons previous text p parts hp h ih =>
    cases h with
    | nil => simp
    | @cons _ text' q parts' hq h' =>
      have hne : q.units ++ text' ≠ [] := by simp [hq.nonempty]
      rw [List.getLast?_cons_cons, ih]
      generalize q.units ++ text' = more at hne
      rw [List.getLast?_append, List.getLast?_eq_some_getLast hne, Option.some_or]

/-! ## One cut -/

/-- The partition cut from `units`, and the seam behind it. -/
inductive Seam.Cut (units : List UInt16) (atEnd : Bool) (p : Partition) (next : Seam) : Prop where
  | whole (hu : p.units = units) (hh : next.held = none)
    (he : atEnd = true ∨ units.length ≤ 1 ∨ units.getLast? ≠ some carriageReturn)
  | back (hu : units = p.units ++ [carriageReturn]) (hp : p.units ≠ [])
    (hh : next.held = some carriageReturn) (he : atEnd = false)

theorem Seam.Cut.append {units : List UInt16} {atEnd : Bool} {p : Partition} {next : Seam}
    (h : Seam.Cut units atEnd p next) : units = p.units ++ next.held.toList := by
  cases h with
  | whole hu hh => simp [hu, hh]
  | back hu hp hh => simp [hu, hh]

theorem Seam.Cut.held_eq {units : List UInt16} {atEnd : Bool} {p : Partition} {next : Seam}
    (h : Seam.Cut units atEnd p next) {unit : UInt16} (hu : next.held = some unit) :
    atEnd = false ∧ unit = carriageReturn := by
  cases h with
  | whole _ hh => rw [hh] at hu; cases hu
  | back _ _ hh he => rw [hh] at hu; cases hu; exact ⟨he, rfl⟩

theorem Seam.Cut.all_of_atEnd {units : List UInt16} {p : Partition} {next : Seam}
    (h : Seam.Cut units true p next) : p.units = units := by
  cases h with
  | whole hu => exact hu
  | back _ _ _ he => cases he

theorem Seam.cut_cut (seam : Seam) (encoding : Encoding) (found : List UInt16) (bytes : Nat)
    (atEnd : Bool) : Seam.Cut (seam.held.toList ++ found) atEnd
      (seam.cut encoding found bytes atEnd).1 (seam.cut encoding found bytes atEnd).2 := by
  unfold Seam.cut
  simp only
  split
  · next h =>
    simp only [Bool.and_eq_true, Bool.not_eq_true', decide_eq_true_eq, beq_iff_eq] at h
    obtain ⟨front, hf⟩ := List.getLast?_eq_some_iff.1 h.2
    rw [hf]
    refine .back (by simp) ?_ rfl h.1.1
    have := h.1.2
    rw [hf, List.length_append, List.length_singleton] at this
    simp only [List.dropLast_concat, ne_eq]
    rintro rfl
    simp at this
  · next h =>
    refine .whole rfl rfl ?_
    simp only [Bool.and_eq_true, Bool.not_eq_true', decide_eq_true_eq, beq_iff_eq, not_and] at h
    cases atEnd with
    | true => exact .inl rfl
    | false =>
      by_cases hlen : 1 < (seam.held.toList ++ found).length
      · exact .inr (.inr (h ⟨rfl, hlen⟩))
      · exact .inr (.inl (by omega))

theorem Seam.cut_last (seam : Seam) (encoding : Encoding) (found : List UInt16) (bytes : Nat)
    (atEnd : Bool) : (seam.cut encoding found bytes atEnd).2.last =
      (seam.cut encoding found bytes atEnd).1.units.getLast? := by
  unfold Seam.cut
  simp only
  split <;> rfl

theorem Seam.cut_startsLine (seam : Seam) (encoding : Encoding) (found : List UInt16)
    (bytes : Nat) (atEnd : Bool) :
    (seam.cut encoding found bytes atEnd).1.startsLine = seam.startsLine := by
  unfold Seam.cut
  simp only
  split <;> rfl

theorem Seam.cut_bytes (seam : Seam) (encoding : Encoding) (found : List UInt16) (atEnd : Bool) :
    (seam.cut encoding found (encoding.encodedLength found) atEnd).1.bytes =
      encoding.encodedLength
        (seam.cut encoding found (encoding.encodedLength found) atEnd).1.units := by
  unfold Seam.cut
  simp only [← Encoding.encodedLength_append]
  split
  · next h =>
    simp only [Bool.and_eq_true, beq_iff_eq] at h
    obtain ⟨front, hf⟩ := List.getLast?_eq_some_iff.1 h.2
    rw [hf, List.dropLast_concat, Encoding.encodedLength_append]
    simp
  · rfl

theorem Seam.cut_length_le {d : Decoder} {filled : Filled} {room : Nat}
    (hfill : filled = d.fill room) (seam : Seam) (bytes : Nat) (atEnd : Bool) :
    (seam.cut d.encoding filled.units bytes atEnd).1.units.length ≤ d.left + 1 := by
  have happend := (seam.cut_cut d.encoding filled.units bytes atEnd).append
  have hlength := congrArg List.length happend
  rw [List.length_append, List.length_append] at hlength
  have hheld := Option.length_toList_le (o := seam.held)
  have hleft := d.fill_left room
  rw [← hfill] at hleft
  omega

/-- What holds of a seam in front of `following`: only a carriage return is held
back, and no line feed belongs to a carriage return in front of the seam. -/
structure Seam.Clear (seam : Seam) (following : List UInt16) : Prop where
  held_eq : ∀ unit, seam.held = some unit → unit = carriageReturn
  unbroken : ¬ (seam.last = some carriageReturn ∧
    (seam.held.toList ++ following).head? = some lineFeed)

theorem Seam.clear_start (following : List UInt16) : Seam.Clear {} following where
  held_eq _ h := nomatch h
  unbroken h := nomatch h.1

theorem paired_carriageReturn : Paired [carriageReturn] := .one (by decide) (by decide) .nil

theorem Seam.cut_fits {d : Decoder} {limit : Nat} {seam : Seam}
    (hseam : seam.Clear (d.encoding.decodeAll d.rest).units) {filled : Filled}
    (hfill : filled = d.fill (max (limit - seam.held.toList.length) 2))
    (hne : ¬ (seam.held.isNone && filled.units.isEmpty)) (atEnd : Bool) :
    (seam.cut d.encoding filled.units (filled.decoder.position - d.position) atEnd).1.Fits
      d.encoding limit seam.last := by
  obtain ⟨hheld, hlast⟩ := hseam
  obtain ⟨hlen, hg⟩ := d.fill_gives (max (limit - seam.held.toList.length) 2)
  rw [← hfill] at hlen hg
  rw [hg.text_eq, WholeText.units_prepend] at hlast
  generalize filled.units = found, filled.decoder = next at hlen hg hlast hne ⊢
  have hlen : (seam.held.toList ++ found).length ≤ max limit 3 := by
    have := Option.length_toList_le (o := seam.held)
    rw [List.length_append]
    omega
  have hne : seam.held.toList ++ found ≠ [] := by
    intro h
    rw [List.append_eq_nil_iff] at h
    cases hh : seam.held <;> simp_all
  rw [hg.width_eq]
  have hpaired : Paired (seam.held.toList ++ found) := by
    refine .append ?_ hg.paired
    cases hh : seam.held with
    | none => exact .nil
    | some unit => rw [hheld unit hh]; exact paired_carriageReturn
  have hcut := seam.cut_cut d.encoding found (d.encoding.encodedLength found) atEnd
  have hb := seam.cut_bytes d.encoding found atEnd
  have hstart := seam.cut_startsLine d.encoding found (d.encoding.encodedLength found) atEnd
  generalize seam.cut d.encoding found (d.encoding.encodedLength found) atEnd = cut at *
  rw [← List.append_assoc] at hlast
  cases hcut with
  | whole hu hh he =>
    rw [← hu] at hlen hne hpaired hlast
    refine ⟨hne, hlen, hb, hpaired, hstart, fun h => hlast ⟨h.1, ?_⟩⟩
    rw [List.head?_append, h.2]
    rfl
  | back hu hp hh =>
    rw [hu] at hlen hpaired hlast
    rw [List.length_append, List.length_singleton] at hlen
    refine ⟨hp, by omega, hb, (hpaired.split (by simp; decide)).1, hstart,
      fun h => hlast ⟨h.1, ?_⟩⟩
    rw [List.append_assoc, List.head?_append, h.2]
    rfl

theorem Seam.cut_clear {d : Decoder} {room : Nat} (seam : Seam) (hs : d.Steady) (h2 : 2 ≤ room)
    (hf : (d.fill room).failure = none) (hend : (d.fill room).decoder.isFinished = false)
    (bytes : Nat) :
    (seam.cut d.encoding (d.fill room).units bytes false).2.Clear
      (d.encoding.decodeAll (d.fill room).decoder.rest).units := by
  have hcut := seam.cut_cut d.encoding (d.fill room).units bytes false
  refine ⟨fun _ h => (hcut.held_eq h).2, ?_⟩
  intro hn
  have hlast := seam.cut_last d.encoding (d.fill room).units bytes false
  rw [hn.1] at hlast
  cases hcut with
  | back hu hp hh =>
    rw [hh] at hn
    cases hn.2
  | whole hu hh he =>
    rw [hh] at hn
    rw [hu] at hlast
    have hlen : (seam.held.toList ++ (d.fill room).units).length ≤ 1 := by
      rcases he with h | h | h
      · cases h
      · exact h
      · exact absurd hlast.symm h
    -- the carriage return is alone, so the call had room for what follows it
    have hne : (d.fill room).units ≠ [] := by
      intro h
      rw [Decoder.fill_finished h2 hf h] at hend
      cases hend
    have hpos := List.length_pos_iff.2 hne
    rw [List.length_append] at hlen
    have := Decoder.fill_short hs (by omega) hn.2
    revert this
    decide

/-! ## One call after another -/

/-- The calls behind a seam cut the rest of the text into segments, if it
decodes, and fail at the place where it does not. -/
theorem cutPartitions_segments {d : Decoder} (hs : d.Steady) (limit : Nat) (seam : Seam)
    (done : List Partition) (hseam : seam.Clear (d.encoding.decodeAll d.rest).units) :
    ((d.encoding.decodeAll d.rest).ending = .complete →
      ∃ parts, cutPartitions d limit seam done = .ok (done.reverse ++ parts) ∧
        Segments d.encoding limit seam.last
          (seam.held.toList ++ (d.encoding.decodeAll d.rest).units) parts) ∧
    ((d.encoding.decodeAll d.rest).ending ≠ .complete →
      cutPartitions d limit seam done =
        .error (.malformed d.encoding (d.position + (d.encoding.decodeAll d.rest).consumed))) := by
  fun_induction cutPartitions d limit seam done with
  | case1 d seam done filled error hf =>
    obtain ⟨⟨ending, he, ht⟩, rfl, -⟩ := Decoder.fill_failure hs _ _ hf
    rw [ht]
    exact ⟨fun h => absurd h he, fun _ => rfl⟩
  | case2 d seam done filled hf hstop =>
    simp only [Bool.and_eq_true, Option.isNone_iff_eq_none, List.isEmpty_iff] at hstop
    obtain ⟨hh, hu⟩ := hstop
    rw [Decoder.text_of_nothing hs (Nat.le_max_right _ _) hf hu, hh]
    exact ⟨fun _ => ⟨[], by simp, .nil _⟩, fun h => absurd rfl h⟩
  | case3 d seam done filled hf hstop partition next hc he =>
    have ht := (d.fill_gives _).2.text_of_finished (Decoder.fill_steady hs _) he
    refine ⟨fun _ => ⟨[partition], by simp, ?_⟩, fun h => absurd (by rw [ht]) h⟩
    have hfits := Seam.cut_fits hseam rfl hstop filled.decoder.isFinished
    have hcut := seam.cut_cut d.encoding filled.units (filled.decoder.position - d.position)
      filled.decoder.isFinished
    rw [hc] at hfits hcut
    rw [he] at hcut
    rw [ht, show (d.fill _).units = filled.units from rfl, ← hcut.all_of_atEnd,
      ← List.append_nil partition.units]
    exact .cons hfits (.nil _)
  | case4 d seam done filled hf hstop partition next hc he ih =>
    have he : filled.decoder.isFinished = false := by simpa using he
    have hg : d.Gives filled.units filled.decoder := (d.fill_gives _).2
    have hfits := Seam.cut_fits hseam rfl hstop filled.decoder.isFinished
    have hcut := seam.cut_cut d.encoding filled.units (filled.decoder.position - d.position)
      filled.decoder.isFinished
    have hnext := seam.cut_last d.encoding filled.units (filled.decoder.position - d.position)
      filled.decoder.isFinished
    have hclear := seam.cut_clear hs (Nat.le_max_right _ _) hf he
      (filled.decoder.position - d.position)
    rw [← he] at hclear
    rw [hc] at hfits hcut hnext hclear
    rw [← hg.encoding_eq] at hclear
    obtain ⟨hok, herr⟩ := ih (Decoder.fill_steady hs _) hclear
    rw [hg.encoding_eq] at hok herr
    rw [hg.text_eq, WholeText.ending_prepend, WholeText.units_prepend, WholeText.consumed_prepend]
    constructor
    · intro h
      obtain ⟨parts, hparts, hseg⟩ := hok h
      refine ⟨partition :: parts, by simpa using hparts, ?_⟩
      rw [← List.append_assoc, hcut.append, List.append_assoc]
      rw [hnext] at hseg
      exact .cons hfits hseg
    · intro h
      rw [herr h, hg.position_eq, Nat.add_assoc]

/-! ## All partitions -/

variable {d : Decoder}

theorem partitions_complete (hs : d.Steady) (limit : Nat)
    (h : (d.encoding.decodeAll d.rest).ending = .complete) :
    ∃ parts, partitions d limit = .ok parts ∧
      Segments d.encoding limit none (d.encoding.decodeAll d.rest).units parts := by
  have := (cutPartitions_segments hs limit {} [] (Seam.clear_start _)).1 h
  simpa [partitions] using this

theorem partitions_malformed (hs : d.Steady) (limit : Nat)
    (h : (d.encoding.decodeAll d.rest).ending ≠ .complete) :
    partitions d limit =
      .error (.malformed d.encoding (d.position + (d.encoding.decodeAll d.rest).consumed)) :=
  (cutPartitions_segments hs limit {} [] (Seam.clear_start _)).2 h

end TextSeek

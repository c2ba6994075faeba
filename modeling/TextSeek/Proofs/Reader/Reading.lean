import TextSeek.Proofs.Stream.Filling
import TextSeek.Proofs.Text.LineStarts
import TextSeek.Reader

/-!
# What a reader gives

The text in front of a reader is made of the units that it holds and of what
its decoder still decodes (`Shows`). Every operation is described by what it
takes off the front of that text. How much is decoded at a time, and where the
input was cut by its reads, cannot be seen from outside.

Results:
* `nextUnit_cons`, `peekUnit_cons`, `nextUnit_nil`, `peekUnit_nil`: one unit.
* `skipUnits_shows`: skipping units.
* `skipLines_shows`: skipping lines leads to where the last of them starts.
* `readUnits_shows`: reading all that is left.
-/
namespace TextSeek

def WholeText.behind (encoding : Encoding) (text : WholeText) (n : Nat) : WholeText :=
  ⟨text.units.drop n, text.consumed - encoding.encodedLength (text.units.take n), text.ending⟩

theorem WholeText.behind_zero (encoding : Encoding) (text : WholeText) :
    text.behind encoding 0 = text := by
  simp [behind]

theorem WholeText.behind_behind (encoding : Encoding) (text : WholeText) (m n : Nat) :
    (text.behind encoding m).behind encoding n = text.behind encoding (m + n) := by
  simp only [behind, List.drop_drop, List.take_add, Encoding.encodedLength_append, Nat.sub_sub]

/-- The text `text` is in front of the reader. -/
structure TextReader.Shows (r : TextReader) (encoding : Encoding) (text : WholeText) : Prop where
  steady : r.decoder.Steady
  encoding_eq : r.decoder.encoding = encoding
  chunk : minChunk ≤ r.chunk
  text_eq : text = (encoding.decodeAll r.decoder.rest).prepend r.pending
    (encoding.encodedLength r.pending)
  position_eq : r.decoder.position = r.position + encoding.encodedLength r.pending

/-- The reader `next` stands `n` units behind `r`, which shows `text`. -/
structure TextReader.Moves (r : TextReader) (encoding : Encoding) (text : WholeText) (n : Nat)
    (next : TextReader) : Prop where
  shows : next.Shows encoding (text.behind encoding n)
  position_eq : next.position = r.position + encoding.encodedLength (text.units.take n)

namespace TextReader

variable {r next last : TextReader} {encoding : Encoding} {text : WholeText}

theorem Moves.stay (h : next.Shows encoding text) (hp : next.position = r.position) :
    r.Moves encoding text 0 next :=
  ⟨by rw [WholeText.behind_zero]; exact h, hp⟩

theorem Moves.of_position {n : Nat} (h : next.Moves encoding text n last)
    (hp : next.position = r.position) : r.Moves encoding text n last :=
  ⟨h.shows, by rw [h.position_eq, hp]⟩

theorem Moves.trans {m n : Nat} (h : r.Moves encoding text m next)
    (h' : next.Moves encoding (text.behind encoding m) n last) :
    r.Moves encoding text (m + n) last where
  shows := by
    rw [← WholeText.behind_behind]
    exact h'.shows
  position_eq := by
    rw [h'.position_eq, h.position_eq, List.take_add, Encoding.encodedLength_append, Nat.add_assoc]
    rfl

theorem start_shows {stream : ByteStream} (hs : stream.Steady) (encoding : Encoding)
    (offset buffer : Nat) :
    (start stream encoding offset buffer).Shows encoding (encoding.decodeAll stream.rest) where
  steady := Decoder.start_steady hs encoding offset buffer
  encoding_eq := rfl
  chunk := Nat.le_max_right _ _
  text_eq := (WholeText.prepend_nil _).symm
  position_eq := rfl

theorem Shows.drop (h : r.Shows encoding text) {n : Nat} (hn : n ≤ r.pending.length) :
    r.Moves encoding text n
      { r with
        pending := r.pending.drop n
        position := r.position + encoding.encodedLength (r.pending.take n) } := by
  obtain ⟨hs, henc, hc, rfl, hpos⟩ := h
  have hsplit := encoding.encodedLength_append (r.pending.take n) (r.pending.drop n)
  rw [List.take_append_drop] at hsplit
  refine ⟨⟨hs, henc, hc, ?_, ?_⟩, ?_⟩
  · simp only [WholeText.behind, WholeText.prepend, List.drop_append_of_le_length hn,
      List.take_append_of_le_length hn, WholeText.mk.injEq, true_and, and_true]
    omega
  · simp only [hpos]
    omega
  · simp only [WholeText.units_prepend, List.take_append_of_le_length hn]

theorem Shows.units_of_pending (h : r.Shows encoding text) :
    ∃ more, text.units = r.pending ++ more := by
  rw [h.text_eq]
  exact ⟨_, rfl⟩

/-! ## One unit -/

/-- Afterwards the reader holds units, or none are left. -/
theorem ensureUnits_shows (h : r.Shows encoding text) :
    ∃ outcome next, r.ensureUnits = (outcome, next) ∧ next.Shows encoding text ∧
      next.position = r.position ∧
      (next.pending ≠ [] ∧ outcome = .ok true ∨
        next.pending = [] ∧ text.units = [] ∧
          (text.ending = .complete ∧ outcome = .ok false ∨
            text.ending ≠ .complete ∧ outcome = .error (.malformed encoding r.position))) := by
  obtain ⟨hs, rfl, hc, rfl, hpos⟩ := h
  unfold ensureUnits
  by_cases hp : r.pending = []
  · rw [if_pos (by simp [hp])]
    simp only
    obtain ⟨-, hg⟩ := r.decoder.fill_gives r.chunk
    have hsteady := Decoder.fill_steady hs r.chunk
    have hfailure := Decoder.fill_failure hs r.chunk
    have hnothing := Decoder.text_of_nothing hs hc
    generalize r.decoder.fill r.chunk = filled at *
    rw [hp, Encoding.encodedLength_nil, Nat.add_zero] at hpos
    have hshows : { r with decoder := filled.decoder, pending := filled.units : TextReader }.Shows
        r.decoder.encoding ((r.decoder.encoding.decodeAll r.decoder.rest).prepend r.pending
          (r.decoder.encoding.encodedLength r.pending)) := by
      refine ⟨hsteady, hg.encoding_eq, hc, ?_, ?_⟩
      · rw [hp, Encoding.encodedLength_nil, WholeText.prepend_nil]
        exact hg.text_eq
      · simp only
        rw [hg.position_eq, hpos]
    cases hf : filled.failure with
    | some error =>
      obtain ⟨⟨ending, he, ht⟩, rfl, hu⟩ := hfailure error hf
      refine ⟨_, _, rfl, hshows, rfl, .inr ⟨hu, ?_, .inr ⟨?_, ?_⟩⟩⟩
      · rw [ht, hp]; rfl
      · rw [ht]; exact he
      · rw [hpos]
    | none =>
      by_cases hu : filled.units = []
      · have ht := hnothing hf hu
        refine ⟨_, _, rfl, hshows, rfl, .inr ⟨hu, ?_, .inl ⟨?_, ?_⟩⟩⟩
        · rw [ht, hp]; rfl
        · rw [ht]; rfl
        · simp [hu]
      · exact ⟨_, _, rfl, hshows, rfl, .inl ⟨hu, by simp [hu]⟩⟩
  · rw [if_neg (by simpa using hp)]
    exact ⟨_, _, rfl, ⟨hs, rfl, hc, rfl, hpos⟩, rfl, .inl ⟨hp, rfl⟩⟩

theorem ensureUnits_cons (h : r.Shows encoding text) {unit : UInt16} {rest : List UInt16}
    (hu : text.units = unit :: rest) :
    ∃ held next, r.ensureUnits = (.ok true, next) ∧ next.pending = unit :: held ∧
      next.Shows encoding text ∧ next.position = r.position := by
  rcases ensureUnits_shows h with ⟨outcome, next, he, hn, hpos, ⟨hp, rfl⟩ | ⟨-, h0, -⟩⟩
  · obtain ⟨more, hm⟩ := hn.units_of_pending
    obtain ⟨first, held, hpend⟩ := List.exists_cons_of_ne_nil hp
    rw [hpend, hu, List.cons_append] at hm
    obtain ⟨rfl, -⟩ := List.cons.inj hm
    exact ⟨held, next, he, hpend, hn, hpos⟩
  · rw [hu] at h0
    cases h0

theorem Shows.pending_of_nil (h : r.Shows encoding text) (hu : text.units = []) :
    r.pending = [] := by
  obtain ⟨more, hmore⟩ := h.units_of_pending
  rw [hu, eq_comm, List.append_eq_nil_iff] at hmore
  exact hmore.1

theorem ensureUnits_nil (h : r.Shows encoding text) (hu : text.units = []) :
    ∃ next, r.ensureUnits = (if text.ending = .complete then .ok false
        else .error (.malformed encoding r.position), next) ∧
      next.pending = [] ∧ next.Shows encoding text ∧ next.position = r.position := by
  obtain ⟨outcome, next, he, hn, hpos, ⟨hp, rfl⟩ | ⟨hp, -, ⟨hc, rfl⟩ | ⟨hc, rfl⟩⟩⟩ :=
    ensureUnits_shows h
  · exact absurd (hn.pending_of_nil hu) hp
  · exact ⟨next, by rw [he, if_pos hc], hp, hn, hpos⟩
  · exact ⟨next, by rw [he, if_neg hc], hp, hn, hpos⟩

theorem peekUnit_cons (h : r.Shows encoding text) {unit : UInt16} {rest : List UInt16}
    (hu : text.units = unit :: rest) : ∃ next, r.peekUnit = (.ok (some unit), next) ∧
      next.Shows encoding text ∧ next.position = r.position := by
  obtain ⟨held, next, he, hpend, hn, hpos⟩ := ensureUnits_cons h hu
  refine ⟨next, ?_, hn, hpos⟩
  simp only [peekUnit, he, hpend, List.head?_cons]

theorem nextUnit_cons (h : r.Shows encoding text) {unit : UInt16} {rest : List UInt16}
    (hu : text.units = unit :: rest) :
    ∃ next, r.nextUnit = (.ok (some unit), next) ∧ r.Moves encoding text 1 next := by
  obtain ⟨held, next, he, hpend, hn, hpos⟩ := ensureUnits_cons h hu
  have hdrop := hn.drop (n := 1) (by rw [hpend]; simp)
  have henc : next.encoding = encoding := hn.encoding_eq
  refine ⟨_, ?_, hdrop.of_position hpos⟩
  simp [nextUnit, he, hpend, henc]

theorem nextUnit_nil (h : r.Shows encoding text) (hu : text.units = []) :
    ∃ next, r.nextUnit = (if text.ending = .complete then .ok none
      else .error (.malformed encoding r.position), next) ∧ next.Shows encoding text ∧
        next.position = r.position := by
  obtain ⟨next, he, hp, hn, hpos⟩ := ensureUnits_nil h hu
  refine ⟨next, ?_, hn, hpos⟩
  by_cases hc : text.ending = .complete
  · rw [if_pos hc] at he ⊢
    simp only [nextUnit, he, hp]
  · rw [if_neg hc] at he ⊢
    simp only [nextUnit, he]

theorem peekUnit_nil (h : r.Shows encoding text) (hu : text.units = [])
    (hc : text.ending = .complete) :
    ∃ next, r.peekUnit = (.ok none, next) ∧ next.Shows encoding text ∧
      next.position = r.position := by
  obtain ⟨next, he, hp, hn, hpos⟩ := ensureUnits_nil h hu
  rw [if_pos hc] at he
  exact ⟨next, by simp only [peekUnit, he, hp, List.head?_nil], hn, hpos⟩

/-! ## Skipping units -/

theorem skipUnitsFrom_shows (h : r.Shows encoding text) {wanted : Nat}
    (hw : wanted ≤ text.units.length) (skipped : Nat) :
    ∃ next, r.skipUnitsFrom wanted skipped = (.ok (skipped + wanted), next) ∧
      r.Moves encoding text wanted next := by
  induction wanted using Nat.strongRecOn generalizing r text skipped with
  | ind wanted ih =>
    rw [skipUnitsFrom]
    by_cases h0 : wanted = 0
    · subst h0
      exact ⟨r, by simp, .stay h rfl⟩
    · rw [if_neg h0]
      rcases ensureUnits_shows h with ⟨outcome, next, he, hn, hpos, ⟨hp, rfl⟩ | ⟨-, hu, -⟩⟩
      · simp only [he, dif_neg hp]
        have hlen := List.length_pos_iff.2 hp
        have hpassed := hn.drop (Nat.min_le_left next.pending.length wanted)
        rw [show next.encoding = encoding from hn.encoding_eq]
        generalize htaken : min next.pending.length wanted = taken at *
        have hrest : wanted - taken ≤ (text.behind encoding taken).units.length := by
          simp only [WholeText.behind, List.length_drop]
          omega
        obtain ⟨last, hl, hmoves⟩ := ih (wanted - taken) (by omega) hpassed.shows hrest
          (skipped + taken)
        have hall := (hpassed.of_position hpos).trans hmoves
        rw [show taken + (wanted - taken) = wanted by omega] at hall
        rw [show skipped + taken + (wanted - taken) = skipped + wanted by omega] at hl
        exact ⟨last, hl, hall⟩
      · rw [hu] at hw
        exact absurd hw (by simpa using h0)

theorem skipUnits_shows (h : r.Shows encoding text) {count : Nat}
    (hc : count ≤ text.units.length) :
    ∃ next, r.skipUnits count = (.ok count, next) ∧ r.Moves encoding text count next := by
  simpa [skipUnits] using skipUnitsFrom_shows h hc 0

/-! ## Skipping lines -/

theorem finishLineEnd_shows (h : r.Shows encoding text) {unit : UInt16} {rest : List UInt16}
    (hu : text.units = unit :: rest) : ∃ next, r.finishLineEnd = (.ok (unit == lineFeed), next) ∧
      r.Moves encoding text (if unit = lineFeed then 1 else 0) next := by
  obtain ⟨next, hp, hn, hpos⟩ := peekUnit_cons h hu
  by_cases hlf : unit = lineFeed
  · obtain ⟨last, hl, hmoves⟩ := nextUnit_cons hn hu
    refine ⟨last, ?_, ?_⟩
    · simp only [finishLineEnd, hp, hlf, hl, beq_self_eq_true, if_true]
    · rw [if_pos hlf]
      exact hmoves.of_position hpos
  · refine ⟨next, ?_, ?_⟩
    · have hne : (unit == lineFeed) = false := beq_false_of_ne hlf
      have : (some unit == some lineFeed) = false := by simpa using hlf
      simp only [finishLineEnd, hp, this, hne, Bool.false_eq_true, if_false]
    · rw [if_neg hlf]
      exact .stay hn hpos

theorem skipLinesFrom_of_ne {wanted : Nat} (hw : wanted ≠ 0) (found : Nat) :
    r.skipLinesFrom wanted found =
      match r.nextUnit with
      | (.error error, next) => (.error error, next)
      | (.ok none, next) => (.ok found, next)
      | (.ok (some unit), next) =>
        if unit == lineFeed then next.skipLinesFrom (wanted - 1) (found + 1)
        else if unit == carriageReturn then
          match next.finishLineEnd with
          | (.error error, last) => (.error error, last)
          | (.ok _, last) => last.skipLinesFrom (wanted - 1) (found + 1)
        else next.skipLinesFrom wanted found := by
  rw [skipLinesFrom, if_neg hw]
  split <;> simp only [*]
  split
  · rfl
  · split
    · split <;> simp only [*]
    · rfl

/-- One step over line ends: a unit is passed, or a carriage return with its line
feed. What was to be skipped and what was found still add up, and the lines behind
are found as many lines later. A carriage return at the very end is left out, for
it is not known there what comes next. -/
theorem skipLinesFrom_step (h : r.Shows encoding text) {unit : UInt16} {rest : List UInt16}
    (hu : text.units = unit :: rest) (hlast : ¬ (unit = carriageReturn ∧ rest = []))
    (wanted found : Nat) :
    ∃ next k wanted' found', r.skipLinesFrom (wanted + 1) found =
        next.skipLinesFrom wanted' found' ∧ r.Moves encoding text k next ∧
      0 < k ∧ k ≤ text.units.length ∧ (lineStarts text.units)[wanted + 1]? =
        ((lineStarts (text.units.drop k))[wanted']?).map (· + k) ∧
      found' + wanted' = found + (wanted + 1) := by
  obtain ⟨next, hnext, hmoves⟩ := nextUnit_cons h hu
  rw [hu, skipLinesFrom_of_ne (Nat.succ_ne_zero wanted), hnext]
  simp only
  have hone : 1 ≤ (unit :: rest).length := Nat.le_add_left _ _
  by_cases hlf : unit = lineFeed
  · rw [if_pos (by simpa using hlf)]
    exact ⟨next, 1, wanted, found + 1, rfl, hmoves, Nat.one_pos, hone,
      lineStarts_succ_of_end (fun next _ => by simp [endsLine, hlf]) wanted, by omega⟩
  rw [if_neg (by simpa using hlf)]
  by_cases hcr : unit = carriageReturn
  · obtain ⟨second, more, rfl⟩ := List.exists_cons_of_ne_nil fun hr => hlast ⟨hcr, hr⟩
    have hmore : (text.behind encoding 1).units = second :: more := by simp [WholeText.behind, hu]
    obtain ⟨last, hfinish, hfm⟩ := finishLineEnd_shows hmoves.shows hmore
    rw [if_pos (by simpa using hcr), hfinish]
    -- a line feed that follows belongs to the same line end
    by_cases hsecond : second = lineFeed
    · rw [if_pos hsecond] at hfm
      refine ⟨last, 2, wanted, found + 1, rfl, hmoves.trans hfm, Nat.two_pos, ?_, ?_, by omega⟩
      · exact Nat.le_add_left 2 more.length
      · rw [hcr, hsecond]
        exact lineStarts_succ_of_pair more wanted
    · rw [if_neg hsecond] at hfm
      exact ⟨last, 1, wanted, found + 1, rfl, hmoves.trans hfm, Nat.one_pos, hone,
        lineStarts_succ_of_end (fun next hn => by cases hn; simp [endsLine, hcr, hsecond]) wanted,
        by omega⟩
  · rw [if_neg (by simpa using hcr)]
    exact ⟨next, 1, wanted + 1, found, rfl, hmoves, Nat.one_pos, hone,
      lineStarts_succ_of_inside (fun next _ => by simp [endsLine, hlf, hcr]) wanted, rfl⟩

theorem skipLinesFrom_shows (h : r.Shows encoding text) {wanted start : Nat}
    (hs : (lineStarts text.units)[wanted]? = some start) (found : Nat) :
    ∃ last, r.skipLinesFrom wanted found = (.ok (found + wanted), last) ∧
      r.Moves encoding text start last := by
  generalize hn : text.units.length = n
  induction n using Nat.strongRecOn generalizing r text wanted start found with
  | ind n ih =>
    have hlt := lineStarts_lt hs
    obtain ⟨unit, rest, hu⟩ := List.exists_cons_of_ne_nil
      (List.ne_nil_of_length_pos (Nat.lt_of_le_of_lt (Nat.zero_le _) hlt))
    cases wanted with
    | zero =>
      rw [lineStarts_zero (by rw [hu]; simp), Option.some.injEq] at hs
      subst hs
      exact ⟨r, by rw [skipLinesFrom]; simp, .stay h rfl⟩
    | succ wanted =>
      -- no line starts behind a carriage return that is the last unit
      have hlast : ¬ (unit = carriageReturn ∧ rest = []) := by
        rintro ⟨-, rfl⟩
        rw [hu] at hs
        cases hs
      obtain ⟨next, k, wanted', found', hstep, hm, hk, -, hlines, hsum⟩ :=
        skipLinesFrom_step h hu hlast wanted found
      rw [hs, eq_comm, Option.map_eq_some_iff] at hlines
      obtain ⟨start', hs', rfl⟩ := hlines
      obtain ⟨last, hl, hm'⟩ := ih (text.units.drop k).length (by rw [List.length_drop]; omega)
        hm.shows hs' found' rfl
      rw [hstep, hl, hsum, Nat.add_comm start']
      exact ⟨last, rfl, hm.trans hm'⟩

/-- As many line ends as there are lines in front of one of them lead to where
it starts. -/
theorem skipLines_shows (h : r.Shows encoding text) {count start : Nat}
    (hs : (lineStarts text.units)[count]? = some start) :
    ∃ next, r.skipLines count = (.ok count, next) ∧ r.Moves encoding text start next := by
  simpa [skipLines] using skipLinesFrom_shows h hs 0

/-! ## Reading all -/

theorem readUnitsFrom_shows (h : r.Shows encoding text) (found : List UInt16) :
    r.readUnitsFrom found = (found.reverse ++ text.units, if text.ending = .complete then none
      else some (.malformed encoding (r.position + encoding.encodedLength text.units))) := by
  generalize hu : text.units = units
  induction units generalizing r text found with
  | nil =>
    obtain ⟨next, hn, -⟩ := nextUnit_nil h hu
    by_cases hc : text.ending = .complete
    · rw [if_pos hc] at hn ⊢
      rw [readUnitsFrom, hn, List.append_nil]
    · rw [if_neg hc] at hn ⊢
      rw [readUnitsFrom, hn, List.append_nil, Encoding.encodedLength_nil, Nat.add_zero]
  | cons unit rest ih =>
    obtain ⟨next, hn, hm⟩ := nextUnit_cons h hu
    have hrest : (text.behind encoding 1).units = rest := by simp [WholeText.behind, hu]
    have hpos := hm.position_eq
    rw [hu, List.take_succ_cons, List.take_zero, Encoding.encodedLength_cons,
      Encoding.encodedLength_nil, Nat.add_zero] at hpos
    rw [readUnitsFrom, hn]
    simp only
    rw [ih hm.shows (unit :: found) hrest, hpos, Encoding.encodedLength_cons, Nat.add_assoc,
      List.reverse_cons, List.append_assoc]
    rfl

/-- Everything in front of a reader can be read, up to the place where it does
not decode. -/
theorem readUnits_shows (h : r.Shows encoding text) :
    r.readUnits = (text.units, if text.ending = .complete then none
      else some (.malformed encoding (r.position + encoding.encodedLength text.units))) :=
  readUnitsFrom_shows h []

end TextReader
end TextSeek

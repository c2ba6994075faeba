import TextSeek.Proofs.Reader.Reading
import TextSeek.Proofs.Stream.Schedule

/-!
# Text that runs out

An operation that asks for more text than there is passes all of it. If the text
is whole, the operation succeeds with less than was asked for; if it is not, the
operation fails at the byte where the text ends, and the reader tells a text that is
cut off inside a character from one that is malformed (`Stops`). For a text that is
not malformed this says that the operation succeeds or the reader has seen the cut
(`RanOut`).

Results:
* `ensureUnits_stops`: no unit is left.
* `skipUnits_stops`: more units are skipped than are left.
* `skipLines_stops`: a line is skipped to that does not start any more.
-/
namespace TextSeek

/-- A call that fails leaves a decoder that says whether it stands in front of a
character cut off. -/
theorem Decoder.fill_dangling_iff {d : Decoder} (hs : d.Steady) {room : Nat} {error : AccessError}
    (hf : (d.fill room).failure = some error) :
    (d.fill room).decoder.isDangling = true ↔
      (d.encoding.decodeAll d.rest).ending = .cutOff := by
  have hg := (d.fill_gives room).2
  have hn := fill_steady hs room
  rw [(fill_failure hs room error hf).2.1] at hf
  rw [hg.text_eq, WholeText.ending_prepend, ← hg.encoding_eq]
  cases (fillLoop_malformed hf).1 with
  | malformed h =>
    -- bytes that start no character are not the front of one
    have hbad : (d.fill room).decoder.encoding.decodeAll (d.fill room).decoder.rest =
        ⟨[], 0, .malformed⟩ :=
      Encoding.decodeAll_malformed h (d.fill room).decoder.stream.rest
    have hopen : (d.fill room).decoder.ended = false := by
      rw [← Bool.not_eq_true]
      intro he
      have hinc := (hn.ended he).2
      rw [show (d.fill room).decoder.encoding.decode (d.fill room).decoder.raw = .malformed
        from h] at hinc
      cases hinc
    rw [hbad]
    simp [isDangling, hopen]
  | cutOff h he hr =>
    have hne : (d.fill room).decoder.raw ≠ [] := hr
    have hended : (d.fill room).decoder.ended = true := he
    have hcut : (d.fill room).decoder.encoding.decodeAll (d.fill room).decoder.rest =
        ⟨[], 0, .cutOff⟩ := by
      rw [rest, (hn.ended hended).1, List.append_nil]
      exact Encoding.decodeAll_incomplete h hne
    rw [hcut]
    simp [isDangling, hended, hne]

namespace TextReader

variable {r next mid : TextReader} {encoding : Encoding} {text : WholeText} {α : Type}

/-- An operation on a reader in front of `text` has passed all of the text. It has
succeeded as `expected` says, or it has failed where a text ends that is not whole. -/
structure Stops (r : TextReader) (encoding : Encoding) (text : WholeText) (expected : α → Prop)
    (outcome : Except AccessError α) (next : TextReader) : Prop where
  moves : r.Moves encoding text text.units.length next
  ends : (∃ value, outcome = .ok value ∧ expected value) ∨
    text.ending ≠ .complete ∧ outcome = .error (.malformed encoding next.position) ∧
      (next.endedMidCharacter = true ↔ text.ending = .cutOff)

/-- The same of a text that is not malformed: the operation has succeeded as `expected`
says unless the text is cut off. -/
structure RanOut (r : TextReader) (encoding : Encoding) (text : WholeText) (expected : α → Prop)
    (outcome : Except AccessError α) (next : TextReader) : Prop where
  moves : r.Moves encoding text text.units.length next
  ends : (∃ value, outcome = .ok value ∧ expected value) ∨
    (∃ position, outcome = .error (.malformed encoding position)) ∧ next.endedMidCharacter = true

theorem Stops.ranOut {expected expected' : α → Prop} {outcome : Except AccessError α}
    (h : r.Stops encoding text expected outcome next) (hm : text.ending ≠ .malformed)
    (he : ∀ value, expected value → expected' value) :
    r.RanOut encoding text expected' outcome next where
  moves := h.moves
  ends := by
    rcases h.ends with ⟨value, ho, hv⟩ | ⟨hne, ho, hd⟩
    · exact .inl ⟨value, ho, he value hv⟩
    · refine .inr ⟨⟨_, ho⟩, hd.2 ?_⟩
      cases hend : text.ending with
      | complete => exact absurd hend hne
      | cutOff => rfl
      | malformed => exact absurd hend hm

theorem Stops.behind {m : Nat} {expected : α → Prop} {outcome : Except AccessError α}
    (hm : r.Moves encoding text m mid) (hle : m ≤ text.units.length)
    (h : mid.Stops encoding (text.behind encoding m) expected outcome next) :
    r.Stops encoding text expected outcome next where
  moves := by
    have htrans := hm.trans h.moves
    rwa [show (text.behind encoding m).units.length = text.units.length - m from
      List.length_drop, Nat.add_sub_cancel' hle] at htrans
  ends := h.ends

theorem Stops.of_ok {expected : α → Prop} {value : α}
    (h : r.Stops encoding text expected (.ok value) next) : expected value := by
  rcases h.ends with ⟨value', ho, he⟩ | ⟨-, ho, -⟩
  · rw [Except.ok.inj ho]
    exact he
  · cases ho

theorem Moves.of_nil (hu : text.units = []) (h : next.Shows encoding text)
    (hp : next.position = r.position) : r.Moves encoding text text.units.length next := by
  rw [hu]
  exact .stay h hp

theorem Stops.ok {expected : α → Prop} {value : α}
    (hm : r.Moves encoding text text.units.length next) (he : expected value) :
    r.Stops encoding text expected (.ok value) next :=
  ⟨hm, .inl ⟨value, rfl, he⟩⟩

theorem Stops.failed {β : Type} {expected : α → Prop} {expected' : β → Prop} {error : AccessError}
    (h : r.Stops encoding text expected (.error error) next) :
    r.Stops encoding text expected' (.error error) next where
  moves := h.moves
  ends := by
    rcases h.ends with ⟨_, ho, _⟩ | ⟨hne, ho, hd⟩
    · cases ho
    · exact .inr ⟨hne, congrArg Except.error (Except.error.inj ho), hd⟩

/-! ## Units -/

theorem ensureUnits_stops (h : r.Shows encoding text) (hu : text.units = []) :
    ∃ outcome next, r.ensureUnits = (outcome, next) ∧ next.pending = [] ∧
      r.Stops encoding text (fun found => found = false ∧ text.ending = .complete) outcome
        next := by
  have hpend := h.pending_of_nil hu
  obtain ⟨next, he, hp, hn, hpos⟩ := ensureUnits_nil h hu
  refine ⟨_, next, he, hp, .of_nil hu hn hpos, ?_⟩
  by_cases hc : text.ending = .complete
  · exact .inl ⟨false, if_pos hc, rfl, hc⟩
  · rw [if_neg hc] at he
    rw [hpos]
    refine .inr ⟨hc, if_neg hc, ?_⟩
    have hending : text.ending = (r.decoder.encoding.decodeAll r.decoder.rest).ending := by
      rw [h.encoding_eq, h.text_eq]
      rfl
    unfold ensureUnits at he
    rw [if_pos (by simp [hpend])] at he
    simp only at he
    split at he
    · next error hf =>
      cases he
      rw [hending]
      exact Decoder.fill_dangling_iff h.steady hf
    · cases he

theorem nextUnit_stops (h : r.Shows encoding text) (hu : text.units = []) :
    ∃ outcome next, r.nextUnit = (outcome, next) ∧
      r.Stops encoding text (fun unit => unit = none ∧ text.ending = .complete) outcome next := by
  obtain ⟨outcome, next, he, hp, hr⟩ := ensureUnits_stops h hu
  cases outcome with
  | ok found =>
    exact ⟨.ok none, next, by simp only [nextUnit, he, hp], .ok hr.moves ⟨rfl, hr.of_ok.2⟩⟩
  | error error =>
    exact ⟨.error error, next, by simp only [nextUnit, he], hr.failed⟩

theorem peekUnit_stops (h : r.Shows encoding text) (hu : text.units = []) :
    ∃ outcome next, r.peekUnit = (outcome, next) ∧
      r.Stops encoding text (fun unit => unit = none ∧ text.ending = .complete) outcome next := by
  obtain ⟨outcome, next, he, hp, hr⟩ := ensureUnits_stops h hu
  cases outcome with
  | ok found =>
    exact ⟨.ok none, next, by simp only [peekUnit, he, hp, List.head?_nil],
      .ok hr.moves ⟨rfl, hr.of_ok.2⟩⟩
  | error error =>
    exact ⟨.error error, next, by simp only [peekUnit, he], hr.failed⟩

/-! ## Skipping -/

theorem skipUnitsFrom_stops (h : r.Shows encoding text) {wanted : Nat}
    (hw : text.units.length < wanted) (skipped : Nat) :
    ∃ outcome next, r.skipUnitsFrom wanted skipped = (outcome, next) ∧
      r.Stops encoding text
        (fun passed => passed < skipped + wanted ∧ text.ending = .complete) outcome next := by
  induction wanted using Nat.strongRecOn generalizing r text skipped with
  | ind wanted ih =>
    rw [skipUnitsFrom, if_neg (by omega)]
    by_cases hu : text.units = []
    · obtain ⟨outcome, next, he, hp, hr⟩ := ensureUnits_stops h hu
      cases outcome with
      | ok found =>
        exact ⟨.ok skipped, next, by simp only [he, dif_pos hp],
          .ok hr.moves ⟨by omega, hr.of_ok.2⟩⟩
      | error error =>
        exact ⟨.error error, next, by simp only [he], hr.failed⟩
    rcases ensureUnits_shows h with ⟨outcome, next, he, hn, hpos, ⟨hp, rfl⟩ | ⟨-, hnil, -⟩⟩
    · simp only [he, dif_neg hp]
      have hlen := List.length_pos_iff.2 hp
      obtain ⟨more, hmore⟩ := hn.units_of_pending
      have hheld : next.pending.length ≤ text.units.length := by
        rw [hmore, List.length_append]
        exact Nat.le_add_right _ _
      have hpassed := (hn.drop (Nat.min_le_left next.pending.length wanted)).of_position hpos
      rw [show next.encoding = encoding from hn.encoding_eq]
      generalize htaken : min next.pending.length wanted = taken at *
      obtain ⟨outcome, last, hl, hr⟩ := ih (wanted - taken) (by omega) hpassed.shows (by
        simp only [WholeText.behind, List.length_drop]
        omega) (skipped + taken)
      rw [show skipped + taken + (wanted - taken) = skipped + wanted by omega] at hr
      exact ⟨outcome, last, hl, hr.behind hpassed (by omega)⟩
    · exact absurd hnil hu

theorem skipUnits_stops (h : r.Shows encoding text) {count : Nat}
    (hc : text.units.length < count) : ∃ outcome next, r.skipUnits count = (outcome, next) ∧
      r.Stops encoding text (fun passed => passed < count ∧ text.ending = .complete) outcome
        next := by
  simpa [skipUnits] using skipUnitsFrom_stops h hc 0

theorem finishLineEnd_stops (h : r.Shows encoding text) (hu : text.units = []) :
    ∃ outcome next, r.finishLineEnd = (outcome, next) ∧
      r.Stops encoding text (fun found => found = false ∧ text.ending = .complete) outcome
        next := by
  obtain ⟨outcome, next, hp, hr⟩ := peekUnit_stops h hu
  cases outcome with
  | ok unit =>
    obtain ⟨rfl, hc⟩ := hr.of_ok
    exact ⟨.ok false, next, by simp [finishLineEnd, hp], .ok hr.moves ⟨rfl, hc⟩⟩
  | error error =>
    exact ⟨.error error, next, by simp only [finishLineEnd, hp], hr.failed⟩

theorem skipLinesFrom_nil (h : r.Shows encoding text) (hu : text.units = [])
    (wanted found : Nat) : ∃ outcome next, r.skipLinesFrom wanted found = (outcome, next) ∧
      r.Stops encoding text (fun passed => passed = found + wanted ∨ text.ending = .complete)
        outcome next := by
  by_cases hw : wanted = 0
  · rw [hw, skipLinesFrom, if_pos rfl]
    exact ⟨.ok found, r, rfl, .ok (.of_nil hu h rfl) (.inl rfl)⟩
  obtain ⟨outcome, next, hn, hr⟩ := nextUnit_stops h hu
  rw [skipLinesFrom_of_ne hw, hn]
  cases outcome with
  | error error => exact ⟨.error error, next, rfl, hr.failed⟩
  | ok unit =>
    obtain ⟨rfl, hc⟩ := hr.of_ok
    exact ⟨.ok found, next, rfl, .ok hr.moves (.inr hc)⟩

theorem skipLinesFrom_last (h : r.Shows encoding text) (hu : text.units = [carriageReturn])
    (wanted found : Nat) : ∃ outcome next, r.skipLinesFrom (wanted + 1) found = (outcome, next) ∧
      r.Stops encoding text
        (fun passed => passed = found + (wanted + 1) ∨ text.ending = .complete) outcome next := by
  obtain ⟨next, hnext, hmoves⟩ := nextUnit_cons h hu
  have hnil : (text.behind encoding 1).units = [] := by simp [WholeText.behind, hu]
  have hle : 1 ≤ text.units.length := by simp [hu]
  obtain ⟨outcome, last, hf, hr⟩ := finishLineEnd_stops hmoves.shows hnil
  rw [skipLinesFrom_of_ne (Nat.succ_ne_zero wanted), hnext]
  simp only
  rw [if_neg (by decide), if_pos (by decide), hf]
  cases outcome with
  | error error => exact ⟨.error error, last, rfl, hr.failed.behind hmoves hle⟩
  | ok both =>
    -- the end of the text has been seen, and nothing is left behind it
    have hmid := hmoves.trans hr.moves
    rw [hnil, List.length_nil, Nat.add_zero] at hmid
    obtain ⟨outcome, end', he, hre⟩ := skipLinesFrom_nil hmid.shows hnil wanted (found + 1)
    rw [show found + 1 + wanted = found + (wanted + 1) by omega] at hre
    exact ⟨outcome, end', he, hre.behind hmid hle⟩

theorem skipLinesFrom_stops (h : r.Shows encoding text) {wanted : Nat}
    (hs : (lineStarts text.units)[wanted]? = none) (found : Nat) :
    ∃ outcome next, r.skipLinesFrom wanted found = (outcome, next) ∧
      r.Stops encoding text (fun passed => passed = found + wanted ∨ text.ending = .complete)
        outcome next := by
  generalize hn : text.units.length = n
  induction n using Nat.strongRecOn generalizing r text wanted found with
  | ind n ih =>
    by_cases hu : text.units = []
    · exact skipLinesFrom_nil h hu wanted found
    cases wanted with
    | zero => rw [lineStarts_zero hu] at hs; cases hs
    | succ wanted =>
      obtain ⟨unit, rest, hcons⟩ := List.exists_cons_of_ne_nil hu
      by_cases hlast : unit = carriageReturn ∧ rest = []
      · exact skipLinesFrom_last h (by rw [hcons, hlast.1, hlast.2]) wanted found
      · obtain ⟨next, k, wanted', found', hstep, hmoves, hk, hle, hlines, hsum⟩ :=
          skipLinesFrom_step h hcons hlast wanted found
        rw [hs, eq_comm, Option.map_eq_none_iff] at hlines
        obtain ⟨outcome, last, hl, hr⟩ := ih (text.units.drop k).length
          (by rw [List.length_drop]; omega) hmoves.shows hlines found' rfl
        rw [hsum] at hr
        rw [hstep]
        exact ⟨outcome, last, hl, hr.behind hmoves hle⟩

/-- Text that lacks the line has all line ends in front of it at most. -/
theorem skipLines_stops (h : r.Shows encoding text) {count : Nat}
    (hs : (lineStarts text.units)[count]? = none) :
    ∃ outcome next, r.skipLines count = (outcome, next) ∧
      r.Stops encoding text (fun passed => passed = count ∨ text.ending = .complete) outcome
        next := by
  simpa [skipLines] using skipLinesFrom_stops h hs 0

end TextReader
end TextSeek

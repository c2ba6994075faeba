import TextSeek.Proofs.Reader.Reading
import TextSeek.Proofs.Text.LineEnds

/-!
# Reading lines

A reader puts a character together from its units again, and reads a line up to its
end, whichever end that is. In front of the end of the file it makes no difference
whether the last line has one.

Results:
* `readChar_shows`, `readChar_head`: one character.
* `readLineFrom_inline`: characters that end no line.
* `readLine_shows`, `readLine_first`: a line with its end.
* `afterLines_moves`, `readLine_afterLines`: lines one after the other.
-/
namespace TextSeek.TextReader

variable {r : TextReader} {encoding : Encoding} {text : WholeText} {rest : List UInt16}

/-! ## Characters -/

theorem readChar_shows (h : r.Shows encoding text) {c : Char}
    (hu : text.units = CodeUnit.ofChar c ++ rest) : ∃ next, r.readChar = (.ok (some c), next) ∧
      r.Moves encoding text (CodeUnit.ofChar c).length next := by
  rcases CodeUnit.ofChar_cases c with ⟨unit, hc, hh, -⟩ | ⟨high, low, hc, hh, hl, -⟩
  · rw [hc] at hu ⊢
    obtain ⟨next, hn, hm⟩ := nextUnit_cons h hu
    refine ⟨next, ?_, hm⟩
    simp only [readChar, hn, hh, Bool.false_eq_true, if_false, CodeUnit.toChar_of_unit hc]
  · rw [hc] at hu ⊢
    obtain ⟨next, hn, hm⟩ := nextUnit_cons h hu
    have hlow : (text.behind encoding 1).units = low :: rest := by
      simp [WholeText.behind, hu]
    obtain ⟨ahead, hp, hs, hpos⟩ := peekUnit_cons hm.shows hlow
    obtain ⟨last, hlast, hm'⟩ := nextUnit_cons hs hlow
    refine ⟨last, ?_, hm.trans (hm'.of_position hpos)⟩
    simp only [readChar, hn, hh, if_true, hp, hl, hlast, CodeUnit.pairToChar_of_pair hc]

theorem readChar_nil (h : r.Shows encoding text) (hu : text.units = [])
    (hc : text.ending = .complete) :
    ∃ next, r.readChar = (.ok none, next) ∧ r.Moves encoding text 0 next := by
  obtain ⟨next, hn, hs, hpos⟩ := nextUnit_nil h hu
  rw [if_pos hc] at hn
  exact ⟨next, by simp only [readChar, hn], .stay hs hpos⟩

theorem readChar_head (h : r.Shows encoding text) (hc : text.ending = .complete)
    {chars : List Char} (hu : text.units = chars.flatMap CodeUnit.ofChar) :
    ∃ next, r.readChar = (.ok chars.head?, next) ∧
      r.Moves encoding text ((chars.take 1).flatMap CodeUnit.ofChar).length next := by
  cases chars with
  | nil => exact readChar_nil h hu hc
  | cons c rest =>
    obtain ⟨next, hread, hm⟩ := readChar_shows h hu
    refine ⟨next, hread, ?_⟩
    rw [List.take_succ_cons, List.take_zero, List.flatMap_singleton]
    exact hm

/-! ## Lines -/

theorem readLineFrom_of_readChar {next : TextReader} {c : Char}
    (h : r.readChar = (.ok (some c), next)) (found : List Char) :
    r.readLineFrom found =
      if c == '\n' then ⟨(c :: found).reverse, none, next⟩
      else if c == '\r' then
        match next.finishLineEnd with
        | (.error error, last) => ⟨(c :: found).reverse, some error, last⟩
        | (.ok true, last) => ⟨('\n' :: c :: found).reverse, none, last⟩
        | (.ok false, last) => ⟨(c :: found).reverse, none, last⟩
      else next.readLineFrom (c :: found) := by
  rw [readLineFrom]
  split
  · next heq => rw [h] at heq; cases heq
  · next heq => rw [h] at heq; cases heq
  · next heq => rw [h] at heq; cases heq; rfl

theorem readLineFrom_inline (h : r.Shows encoding text) {front : List Char}
    (hin : ∀ c ∈ front, c ≠ '\n' ∧ c ≠ '\r')
    (hu : text.units = front.flatMap CodeUnit.ofChar ++ rest) (found : List Char) :
    ∃ next, r.readLineFrom found = next.readLineFrom (front.reverse ++ found) ∧
      r.Moves encoding text (front.flatMap CodeUnit.ofChar).length next := by
  induction front generalizing r text found with
  | nil => exact ⟨r, rfl, .stay h rfl⟩
  | cons c front ih =>
    obtain ⟨⟨hn, hr⟩, hfront⟩ := List.forall_mem_cons.1 hin
    rw [List.flatMap_cons, List.append_assoc] at hu
    obtain ⟨next, hread, hm⟩ := readChar_shows h hu
    have hrest : (text.behind encoding (CodeUnit.ofChar c).length).units =
        front.flatMap CodeUnit.ofChar ++ rest := by
      rw [WholeText.behind, hu, List.drop_left]
    obtain ⟨last, hl, hm'⟩ := ih hm.shows hfront hrest (c :: found)
    refine ⟨last, ?_, ?_⟩
    · rw [readLineFrom_of_readChar hread, if_neg (by simpa using hn), if_neg (by simpa using hr),
        hl, List.reverse_cons, List.append_assoc]
      rfl
    · rw [List.flatMap_cons, List.length_append]
      exact hm.trans hm'

theorem readLineFrom_nil (h : r.Shows encoding text) (hu : text.units = [])
    (hc : text.ending = .complete) (found : List Char) :
    ∃ next, r.readLineFrom found = ⟨found.reverse, none, next⟩ ∧
      r.Moves encoding text 0 next := by
  obtain ⟨next, hread, hm⟩ := readChar_nil h hu hc
  refine ⟨next, ?_, hm⟩
  rw [readLineFrom, hread]

theorem finishLineEnd_eq (h : r.Shows encoding text) (hc : text.ending = .complete) :
    ∃ next, r.finishLineEnd = (.ok (text.units.head? == some lineFeed), next) ∧
      r.Moves encoding text (if text.units.head? = some lineFeed then 1 else 0) next := by
  cases hu : text.units with
  | nil =>
    obtain ⟨next, hp, hs, hpos⟩ := peekUnit_nil h hu hc
    exact ⟨next, by simp [finishLineEnd, hp], .stay hs hpos⟩
  | cons unit rest =>
    obtain ⟨next, hf, hm⟩ := finishLineEnd_shows h hu
    refine ⟨next, hf, ?_⟩
    simpa only [List.head?_cons, Option.some.injEq] using hm

/-- What ends a line is read with it, and nothing behind it is. -/
theorem readLineFrom_end (h : r.Shows encoding text) (hc : text.ending = .complete) {line : Line}
    (hp : line.Precedes rest) (hu : text.units = line.endUnits ++ rest) (found : List Char) :
    ∃ next, r.readLineFrom found = ⟨found.reverse ++ line.endChars, none, next⟩ ∧
      r.Moves encoding text line.endUnits.length next := by
  rw [Line.endUnits] at hu ⊢
  rw [Line.endChars]
  cases hend : line.ending with
  | none =>
    rw [hend, hp.unended hend] at hu
    obtain ⟨next, hl, hm⟩ := readLineFrom_nil h hu hc found
    exact ⟨next, by rw [hl, List.append_nil], hm⟩
  | some ending =>
    rw [hend] at hu
    cases ending with
    | lf =>
      obtain ⟨next, hread, hm⟩ := readChar_shows (c := '\n') h hu
      refine ⟨next, ?_, hm⟩
      rw [readLineFrom_of_readChar hread, if_pos (by decide), List.reverse_cons]
      rfl
    | cr =>
      obtain ⟨mid, hread, hm⟩ := readChar_shows (c := '\r') h hu
      have hrest : (text.behind encoding (CodeUnit.ofChar '\r').length).units = rest := by
        rw [WholeText.behind, hu]
        rfl
      obtain ⟨next, hf, hm'⟩ := finishLineEnd_eq hm.shows hc
      rw [hrest, if_neg (hp.apart hend)] at hm'
      rw [hrest, beq_false_of_ne (hp.apart hend)] at hf
      refine ⟨next, ?_, hm.trans hm'⟩
      rw [readLineFrom_of_readChar hread, if_neg (by decide), if_pos (by decide), hf,
        List.reverse_cons]
      rfl
    | crlf =>
      obtain ⟨mid, hread, hm⟩ := readChar_shows (c := '\r') h hu
      have hrest : (text.behind encoding (CodeUnit.ofChar '\r').length).units =
          lineFeed :: rest := by
        rw [WholeText.behind, hu]
        rfl
      obtain ⟨next, hf, hm'⟩ := finishLineEnd_eq hm.shows hc
      rw [hrest, List.head?_cons, if_pos rfl] at hm'
      rw [hrest] at hf
      refine ⟨next, ?_, hm.trans hm'⟩
      rw [readLineFrom_of_readChar hread, if_neg (by decide), if_pos (by decide), hf,
        List.head?_cons, beq_self_eq_true]
      simp [LineEnd.chars]

/-- A line is read with its end, and the reader moves behind it. -/
theorem readLine_shows (h : r.Shows encoding text) (hc : text.ending = .complete) {line : Line}
    (hp : line.Precedes rest) (hu : text.units = line.units ++ rest) :
    ∃ next, r.readLine = ⟨line.written, none, next⟩ ∧
      r.Moves encoding text line.units.length next := by
  rw [line.units_eq, List.append_assoc] at hu
  obtain ⟨mid, hread, hm⟩ := readLineFrom_inline h line.inline hu []
  have hend : (text.behind encoding (line.text.flatMap CodeUnit.ofChar).length).units =
      line.endUnits ++ rest := by
    rw [WholeText.behind, hu]
    exact List.drop_left
  obtain ⟨next, hl, hm'⟩ := readLineFrom_end hm.shows hc hp hend (line.text.reverse ++ [])
  refine ⟨next, ?_, ?_⟩
  · rw [readLine, hread, hl, List.append_nil, List.reverse_reverse]
    rfl
  · rw [line.units_eq, List.length_append]
    exact hm.trans hm'

/-- The first line is read, if there is one. -/
theorem readLine_first (h : r.Shows encoding text) (hc : text.ending = .complete)
    {lines : List Line} (hlines : Delimited lines) (hu : text.units = unitsOf lines) :
    ∃ next, r.readLine = ⟨writtenLines (lines.take 1), none, next⟩ ∧
      r.Moves encoding text (unitsOf (lines.take 1)).length next := by
  cases lines with
  | nil => exact readLineFrom_nil h hu hc []
  | cons line rest =>
    obtain ⟨next, hread, hm⟩ := readLine_shows h hc hlines.precedes hu
    refine ⟨next, ?_, ?_⟩
    · rw [hread, List.take_succ_cons, List.take_zero, writtenLines, List.flatMap_singleton]
    · rw [List.take_succ_cons, List.take_zero, unitsOf, List.flatMap_singleton]
      exact hm

/-! ## Lines one after the other -/

/-- The reader when `count` lines have been read. -/
def afterLines (r : TextReader) : Nat → TextReader
  | 0 => r
  | count + 1 => (r.afterLines count).readLine.reader

theorem behind_lines {lines : List Line} (hu : text.units = unitsOf lines)
    (count : Nat) : (text.behind encoding (unitsOf (lines.take count)).length).units =
      unitsOf (lines.drop count) := by
  rw [WholeText.behind, hu, drop_unitsOf]

/-- Each line that is read takes the reader behind one more line of the text. -/
theorem afterLines_moves (h : r.Shows encoding text) (hc : text.ending = .complete)
    {lines : List Line} (hlines : Delimited lines) (hu : text.units = unitsOf lines)
    (count : Nat) :
    r.Moves encoding text (unitsOf (lines.take count)).length (r.afterLines count) := by
  induction count with
  | zero => exact .stay h rfl
  | succ count ih =>
    obtain ⟨next, hread, hm⟩ := readLine_first ih.shows hc (hlines.drop count)
      (behind_lines hu count)
    rw [afterLines, hread, List.take_add, unitsOf_append, List.length_append]
    exact ih.trans hm

theorem readLine_afterLines (h : r.Shows encoding text) (hc : text.ending = .complete)
    {lines : List Line} (hlines : Delimited lines) (hu : text.units = unitsOf lines)
    (count : Nat) : (r.afterLines count).readLine =
      ⟨writtenLines ((lines.drop count).take 1), none, r.afterLines (count + 1)⟩ := by
  obtain ⟨next, hread, -⟩ := readLine_first (afterLines_moves h hc hlines hu count).shows hc
    (hlines.drop count) (behind_lines hu count)
  rw [afterLines, hread]

end TextSeek.TextReader

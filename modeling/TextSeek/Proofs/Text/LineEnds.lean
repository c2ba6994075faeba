import TextSeek.Proofs.Text.CharacterForms
import TextSeek.Proofs.Text.LineStarts

/-!
# Texts written as lines

A text can be put together from lines, each with an end of its own choice. It can
be taken apart into the same lines again if only the last line lacks an end, and if
no two ends run together: a carriage return and the line feed of an empty line
behind it would be one end (`Delimited`).

Results:
* `lineStarts_line`: a line starts, and behind its end the others do.
* `Delimited.lineStarts_length`: a text has as many lines as it was put together from.
* `Delimited.lineStarts_getElem?`, `Delimited.exists_start`: where each of them starts.
* `exists_delimited`: every text can be taken apart into such lines.
-/
namespace TextSeek

/-- A way of ending a line. -/
inductive LineEnd where
  | lf
  | cr
  | crlf
  deriving DecidableEq, Repr

def LineEnd.chars : LineEnd → List Char
  | lf => ['\n']
  | cr => ['\r']
  | crlf => ['\r', '\n']

/-- A line, and what ends it; at the end of a text that may be nothing. -/
structure Line where
  text : List Char
  ending : Option LineEnd
  inline : ∀ c ∈ text, c ≠ '\n' ∧ c ≠ '\r'

namespace Line

/-- The characters behind the text of the line. -/
def endChars (line : Line) : List Char :=
  match line.ending with
  | some ending => ending.chars
  | none => []

def written (line : Line) : List Char := line.text ++ line.endChars

def units (line : Line) : List UInt16 := line.written.flatMap CodeUnit.ofChar

end Line

def writtenLines (lines : List Line) : List Char := lines.flatMap Line.written

/-- The lines can be told apart. -/
inductive Delimited : List Line → Prop
  | nil : Delimited []
  /-- A last line without an end has text. -/
  | last (line : Line) (hend : line.ending = none → line.text ≠ []) : Delimited [line]
  /-- A line in front of another one has an end, which takes no line feed from it. -/
  | cons (line next : Line) (rest : List Line) (hend : line.ending ≠ none)
    (hapart : ¬ (line.ending = some .cr ∧ next.text = [] ∧ next.ending = some .lf))
    (hrest : Delimited (next :: rest)) : Delimited (line :: next :: rest)

/-! ## The units of a line -/

theorem CodeUnit.ofChar_ne_nil (c : Char) : ofChar c ≠ [] := by
  rw [ofChar, ← Decoded.ofScalar_units _ 0]
  exact Decoded.ofScalar_units_ne_nil _ _

theorem CodeUnit.ofChar_inline {c : Char} (hn : c ≠ '\n') (hr : c ≠ '\r') :
    ∀ unit ∈ ofChar c, unit ≠ lineFeed ∧ unit ≠ carriageReturn := by
  intro unit hu
  rcases ofChar_cases c with ⟨single, hc, -⟩ | ⟨high, low, hc, hh, hl, -⟩
  · rw [hc, List.mem_singleton] at hu
    have hback := toChar_of_unit hc
    rw [← hu] at hback
    refine ⟨?_, ?_⟩
    · rintro rfl
      exact hn (hback.symm.trans (by decide))
    · rintro rfl
      exact hr (hback.symm.trans (by decide))
  · -- both halves of a pair are far above the two
    rw [isHighSurrogate_iff] at hh
    rw [isLowSurrogate_iff] at hl
    have hle : 0xD800 ≤ unit.toNat := by
      rw [hc, List.mem_cons, List.mem_singleton] at hu
      rcases hu with rfl | rfl <;> omega
    refine ⟨?_, ?_⟩ <;> rintro rfl <;> exact absurd hle (by decide)

namespace Line

/-- The units of the text of the line. -/
def textUnits (line : Line) : List UInt16 := line.text.flatMap CodeUnit.ofChar

theorem textUnits_inline (line : Line) :
    ∀ unit ∈ line.textUnits, unit ≠ lineFeed ∧ unit ≠ carriageReturn := by
  intro unit hu
  obtain ⟨c, hc, hu⟩ := List.mem_flatMap.1 hu
  obtain ⟨hn, hr⟩ := line.inline c hc
  exact CodeUnit.ofChar_inline hn hr unit hu

def endUnits (line : Line) : List UInt16 :=
  match line.ending with
  | some .lf => [lineFeed]
  | some .cr => [carriageReturn]
  | some .crlf => [carriageReturn, lineFeed]
  | none => []

theorem units_eq (line : Line) : line.units = line.textUnits ++ line.endUnits := by
  rw [units, written, List.flatMap_append, endChars, endUnits]
  cases line.ending with
  | none => rfl
  | some ending => cases ending <;> rfl

theorem textUnits_ne_nil {line : Line} (h : line.text ≠ []) : line.textUnits ≠ [] := by
  obtain ⟨c, text, htext⟩ := List.exists_cons_of_ne_nil h
  rw [textUnits, htext, List.flatMap_cons]
  exact List.append_ne_nil_of_left_ne_nil (CodeUnit.ofChar_ne_nil c) _

theorem units_ne_nil {line : Line} (h : line.ending = none → line.text ≠ []) :
    line.units ≠ [] := by
  rw [units_eq]
  cases hend : line.ending with
  | none => exact List.append_ne_nil_of_left_ne_nil (textUnits_ne_nil (h hend)) _
  | some ending =>
    refine List.append_ne_nil_of_right_ne_nil _ ?_
    rw [endUnits, hend]
    cases ending <;> simp

theorem empty_of_head {line : Line} (h : line.units.head? = some lineFeed) :
    line.text = [] ∧ line.ending = some .lf := by
  rw [units_eq] at h
  by_cases htext : line.text = []
  · refine ⟨htext, ?_⟩
    rw [textUnits, htext, List.flatMap_nil, List.nil_append, endUnits] at h
    cases hend : line.ending with
    | none => rw [hend] at h; cases h
    | some ending =>
      rw [hend] at h
      cases ending with
      | lf => rfl
      | cr | crlf => exact absurd (Option.some.inj h) (by decide)
  · rw [List.head?_append_of_ne_nil _ (textUnits_ne_nil htext)] at h
    exact absurd rfl (line.textUnits_inline lineFeed (List.mem_of_head? h)).1

/-- What follows the line is not part of it: nothing follows a line without an end, and
no line feed a carriage return. -/
structure Precedes (line : Line) (rest : List UInt16) : Prop where
  nonempty : line.units ≠ []
  unended : line.ending = none → rest = []
  apart : line.ending = some .cr → rest.head? ≠ some lineFeed

end Line

/-! ## Where the lines start -/

theorem lineStarts_append_inline {front : List UInt16}
    (h : ∀ unit ∈ front, unit ≠ lineFeed ∧ unit ≠ carriageReturn) (rest : List UInt16) (m : Nat) :
    (lineStarts (front ++ rest))[m + 1]? =
      ((lineStarts rest)[m + 1]?).map (· + front.length) := by
  induction front with
  | nil => simp
  | cons unit front ih =>
    obtain ⟨⟨hn, hr⟩, hfront⟩ := List.forall_mem_cons.1 h
    rw [List.cons_append, lineStarts_succ_of_inside (fun _ _ => by simp [endsLine, hn, hr]),
      ih hfront, Option.map_map, List.length_cons]
    rfl

theorem lineStarts_endUnits {line : Line} {rest : List UInt16} (h : line.Precedes rest) (m : Nat) :
    (lineStarts (line.endUnits ++ rest))[m + 1]? =
      ((lineStarts rest)[m]?).map (· + line.endUnits.length) := by
  cases hend : line.ending with
  | none =>
    rw [h.unended hend, Line.endUnits, hend]
    rfl
  | some ending =>
    rw [Line.endUnits, hend]
    cases ending with
    | lf => exact lineStarts_succ_of_end (fun _ _ => rfl) m
    | cr =>
      refine lineStarts_succ_of_end (fun next hn => ?_) m
      have hne : next ≠ lineFeed := fun hlf => h.apart hend (hn.trans (congrArg some hlf))
      simp [endsLine, hne]
    | crlf => exact lineStarts_succ_of_pair rest m

theorem lineStarts_line {line : Line} {rest : List UInt16} (h : line.Precedes rest) :
    lineStarts (line.units ++ rest) = 0 :: (lineStarts rest).map (· + line.units.length) := by
  refine List.ext_getElem? fun m => ?_
  cases m with
  | zero => exact lineStarts_zero (List.append_ne_nil_of_left_ne_nil h.nonempty _)
  | succ m =>
    rw [List.getElem?_cons_succ, List.getElem?_map, line.units_eq, List.append_assoc,
      lineStarts_append_inline line.textUnits_inline, lineStarts_endUnits h, Option.map_map,
      List.length_append]
    refine congrArg (Option.map · _) (funext fun start => ?_)
    simp only [Function.comp_apply]
    omega

/-! ## Texts -/

def unitsOf (lines : List Line) : List UInt16 := lines.flatMap Line.units

theorem unitsOf_cons (line : Line) (rest : List Line) :
    unitsOf (line :: rest) = line.units ++ unitsOf rest := rfl

theorem writtenLines_append (a b : List Line) :
    writtenLines (a ++ b) = writtenLines a ++ writtenLines b :=
  List.flatMap_append

theorem unitsOf_append (a b : List Line) : unitsOf (a ++ b) = unitsOf a ++ unitsOf b :=
  List.flatMap_append

theorem unitsOf_eq (lines : List Line) :
    unitsOf lines = (writtenLines lines).flatMap CodeUnit.ofChar := by
  rw [writtenLines, List.flatMap_assoc]
  rfl

theorem Delimited.units_ne_nil {line : Line} {rest : List Line} (h : Delimited (line :: rest)) :
    line.units ≠ [] := by
  cases h with
  | last line hend => exact Line.units_ne_nil hend
  | cons line next rest hend => exact Line.units_ne_nil fun hnone => absurd hnone hend

theorem Delimited.written_ne_nil {line : Line} {rest : List Line}
    (h : Delimited (line :: rest)) : line.written ≠ [] := by
  intro hnil
  apply h.units_ne_nil
  rw [Line.units, hnil, List.flatMap_nil]

theorem Delimited.precedes {line : Line} {rest : List Line} (h : Delimited (line :: rest)) :
    line.Precedes (unitsOf rest) := by
  refine ⟨h.units_ne_nil, ?_, ?_⟩
  · intro hnone
    cases h with
    | last => rfl
    | cons line next rest hend => exact absurd hnone hend
  · intro hcr hhead
    cases h with
    | last => cases hhead
    | cons line next rest hend hapart hrest =>
      rw [unitsOf_cons, List.head?_append_of_ne_nil _ hrest.units_ne_nil] at hhead
      exact hapart ⟨hcr, Line.empty_of_head hhead⟩

theorem Delimited.tail {line : Line} {rest : List Line} (h : Delimited (line :: rest)) :
    Delimited rest := by
  cases h with
  | last => exact .nil
  | cons line next rest _ _ hrest => exact hrest

/-- A text has as many lines as it was put together from. -/
theorem Delimited.lineStarts_length {lines : List Line} (h : Delimited lines) :
    (lineStarts (unitsOf lines)).length = lines.length := by
  induction lines with
  | nil => rfl
  | cons line rest ih =>
    rw [unitsOf_cons, lineStarts_line h.precedes, List.length_cons, List.length_map,
      List.length_cons]
    exact congrArg (· + 1) (ih h.tail)

theorem Delimited.drop {lines : List Line} (h : Delimited lines) (n : Nat) :
    Delimited (lines.drop n) := by
  induction n generalizing lines with
  | zero => exact h
  | succ n ih =>
    cases lines with
    | nil => exact .nil
    | cons line rest => exact ih h.tail

theorem take_unitsOf (lines : List Line) (n : Nat) :
    (unitsOf lines).take (unitsOf (lines.take n)).length = unitsOf (lines.take n) := by
  have hparts := unitsOf_append (lines.take n) (lines.drop n)
  rw [List.take_append_drop] at hparts
  rw [hparts, List.take_left]

theorem drop_unitsOf (lines : List Line) (n : Nat) :
    (unitsOf lines).drop (unitsOf (lines.take n)).length = unitsOf (lines.drop n) := by
  have hparts := unitsOf_append (lines.take n) (lines.drop n)
  rw [List.take_append_drop] at hparts
  rw [hparts, List.drop_left]

theorem Delimited.lineStarts_getElem? {lines : List Line} (h : Delimited lines) {n : Nat}
    (hn : n < lines.length) :
    (lineStarts (unitsOf lines))[n]? = some (unitsOf (lines.take n)).length := by
  induction lines generalizing n with
  | nil => cases hn
  | cons first rest ih =>
    rw [unitsOf_cons, lineStarts_line h.precedes]
    cases n with
    | zero => rfl
    | succ n =>
      rw [List.getElem?_cons_succ, List.getElem?_map, ih h.tail (Nat.lt_of_succ_lt_succ hn),
        List.take_succ_cons, unitsOf_cons, List.length_append, Nat.add_comm]
      rfl

theorem Delimited.exists_start {lines : List Line} (h : Delimited lines) {i : Nat} {line : Line}
    (hi : lines[i]? = some line) : ∃ start rest, (lineStarts (unitsOf lines))[i]? = some start ∧
      (unitsOf lines).drop start = line.units ++ rest ∧ line.Precedes rest := by
  obtain ⟨hlt, hline⟩ := List.getElem?_eq_some_iff.1 hi
  have hdrop := h.drop i
  rw [List.drop_eq_getElem_cons hlt, hline] at hdrop
  refine ⟨_, unitsOf (lines.drop (i + 1)), h.lineStarts_getElem? hlt, ?_, hdrop.precedes⟩
  rw [drop_unitsOf, List.drop_eq_getElem_cons hlt, hline, unitsOf_cons]

/-! ## Taking a text apart -/

theorem Delimited.cons_end {lines : List Line} (h : Delimited lines) (ending : LineEnd)
    (hapart : ending = .cr → ∀ line ∈ lines.head?, ¬ (line.text = [] ∧ line.ending = some .lf)) :
    Delimited (⟨[], some ending, by simp⟩ :: lines) := by
  cases lines with
  | nil =>
    apply Delimited.last
    intro hnone
    cases hnone
  | cons line rest =>
    apply Delimited.cons _ _ _ (by simp) _ h
    rintro ⟨hcr, hline⟩
    exact hapart (Option.some.inj hcr) line rfl hline

theorem Delimited.cons_char {line : Line} {rest : List Line} (h : Delimited (line :: rest))
    {c : Char} (hc : c ≠ '\n' ∧ c ≠ '\r') :
    Delimited (⟨c :: line.text, line.ending, by simpa [hc] using line.inline⟩ :: rest) := by
  cases h with
  | last line hend => exact .last _ (by simp)
  | cons line next rest hend hapart hrest => exact .cons _ _ _ hend hapart hrest

/-- Every text is made of lines that can be told apart. -/
theorem exists_delimited (text : List Char) :
    ∃ lines, Delimited lines ∧ writtenLines lines = text := by
  induction text with
  | nil => exact ⟨[], .nil, rfl⟩
  | cons c text ih =>
    obtain ⟨lines, hlines, rfl⟩ := ih
    by_cases hn : c = '\n'
    · subst hn
      exact ⟨_, hlines.cons_end .lf (by simp), rfl⟩
    by_cases hr : c = '\r'
    · subst hr
      by_cases hfeed : ∃ line ∈ lines.head?, line.text = [] ∧ line.ending = some .lf
      · -- the two become one end
        obtain ⟨line, hhead, htext, hend⟩ := hfeed
        obtain ⟨rest, rfl⟩ := List.head?_eq_some_iff.1 hhead
        refine ⟨_, hlines.tail.cons_end .crlf (by simp), ?_⟩
        simp [writtenLines, Line.written, Line.endChars, LineEnd.chars, htext, hend]
      · refine ⟨_, hlines.cons_end .cr (fun _ line hl hline => hfeed ⟨line, hl, hline⟩), rfl⟩
    · cases lines with
      | nil => exact ⟨[⟨[c], none, by simp [hn, hr]⟩], .last _ (by simp), rfl⟩
      | cons line rest => exact ⟨_, hlines.cons_char ⟨hn, hr⟩, rfl⟩

end TextSeek

import TextSeek.Text.CodeUnit

/-!
# Lines

A line is ended by a line feed, by a carriage return, or by the two in this
order. So a line ends at every line feed and at every carriage return that no
line feed follows, and it starts behind such an end.

`lineStarts` is the list of all line starts of a text; the index keeps some
of them.

**Results.**
* `lineEnds_append`: line ends of two texts add up, unless the cut splits a
  carriage return from its line feed.
-/
namespace TextSeek

/-- A line ends at `unit` when `next` is the unit behind it. -/
def endsLine (unit : UInt16) (next : Option UInt16) : Bool :=
  unit == lineFeed || (unit == carriageReturn && next != some lineFeed)

/-- A line starts at `unit` when `previous` is the unit before it (`begins_line`); the
unit at the very front starts one exactly if `atFront` says so. -/
def startsLine (atFront : Bool) (previous : Option UInt16) (unit : UInt16) : Bool :=
  match previous with
  | none => atFront
  | some p => endsLine p (some unit)

/-- The offsets of the units at which a line starts. -/
def lineStarts (units : List UInt16) : List Nat := go 0 none units
where
  /-- Goes on at `offset`, behind the unit `previous`. -/
  go (offset : Nat) (previous : Option UInt16) : List UInt16 → List Nat
    | [] => []
    | unit :: rest =>
      if startsLine true previous unit then offset :: go (offset + 1) (some unit) rest
      else go (offset + 1) (some unit) rest

/-- The number of line ends in a text that `after` follows. -/
def lineEnds (units : List UInt16) (after : Option UInt16) : Nat :=
  match units with
  | [] => 0
  | unit :: rest =>
    (if endsLine unit (rest.head?.or after) then 1 else 0) + lineEnds rest after

theorem lineEnds_append (a b : List UInt16) (after : Option UInt16) :
    lineEnds (a ++ b) after = lineEnds a (b.head?.or after) + lineEnds b after := by
  induction a with
  | nil => simp [lineEnds]
  | cons unit rest ih =>
    simp only [List.cons_append, lineEnds, ih, List.head?_append, Option.or_assoc, Nat.add_assoc]

end TextSeek

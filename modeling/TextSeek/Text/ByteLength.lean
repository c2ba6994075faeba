import TextSeek.Text.Encoding

/-!
# Encoded lengths of code units

The byte length of a text is the sum over its code units: a high surrogate
counts for its whole pair and a low surrogate for nothing, so the sum needs no
look at neighbours.

**Results.**
* `encodedLength_append`: lengths add up over concatenation.
-/
namespace TextSeek.Encoding

/-- The bytes that a unit takes (`byte_len`). -/
def byteLength (encoding : Encoding) (unit : UInt16) : Nat :=
  match encoding with
  | utf8 =>
    if unit < 0x80 then 1
    else if unit < 0x800 then 2
    else if CodeUnit.isHighSurrogate unit then 4
    else if CodeUnit.isLowSurrogate unit then 0
    else 3
  | utf16le | utf16be =>
    if CodeUnit.isHighSurrogate unit then 4
    else if CodeUnit.isLowSurrogate unit then 0
    else 2
  | latin1 | ascii => 1

/-- The bytes that a run of units takes (`encoded_len`). -/
def encodedLength (encoding : Encoding) (units : List UInt16) : Nat :=
  units.foldl (fun total unit => total + encoding.byteLength unit) 0

theorem foldl_byteLength (encoding : Encoding) (units : List UInt16) (start : Nat) :
    units.foldl (fun total unit => total + encoding.byteLength unit) start =
      start + encoding.encodedLength units := by
  unfold encodedLength
  induction units generalizing start with
  | nil => rfl
  | cons unit rest ih =>
    simp only [List.foldl_cons, Nat.zero_add]
    rw [ih, ih (encoding.byteLength unit), Nat.add_assoc]

@[simp] theorem encodedLength_nil (encoding : Encoding) : encoding.encodedLength [] = 0 := rfl

@[simp] theorem encodedLength_cons (encoding : Encoding) (unit : UInt16) (rest : List UInt16) :
    encoding.encodedLength (unit :: rest) =
      encoding.byteLength unit + encoding.encodedLength rest := by
  simpa [encodedLength] using foldl_byteLength encoding rest (encoding.byteLength unit)

theorem encodedLength_append (encoding : Encoding) (a b : List UInt16) :
    encoding.encodedLength (a ++ b) = encoding.encodedLength a + encoding.encodedLength b := by
  induction a with
  | nil => simp
  | cons unit rest ih => simp [ih, Nat.add_assoc]

/-- All units in order, as runs of one byte length: the first unit of each run
and the length. -/
def lengthRuns (encoding : Encoding) : List (Nat × Nat) :=
  let extend := fun (runs : List (Nat × Nat)) (unit : Nat) =>
    let length := encoding.byteLength unit.toUInt16
    match runs with
    | (_, last) :: _ => if length = last then runs else (unit, length) :: runs
    | [] => [(unit, length)]
  ((List.range 0x10000).foldl extend []).reverse

end TextSeek.Encoding

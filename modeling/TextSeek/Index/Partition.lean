import TextSeek.Stream.Decoder
import TextSeek.Text.ByteLength

/-!
# Cutting a text into partitions

An indexing run works on one `Partition` of the text at a time. A carriage
return at the end of a partition is held back and starts the next one, so a
line end is never divided; the decoder never divides a surrogate pair.

**Results.**
* `partitions`: all partitions of a text, or the error that stops the decoding.
* `Seam.call_fits`: the calls of the decoder are within words.
* `cutPartitions_of_finished`: when the input is decoded to its end, at most
  one partition is left.
-/
namespace TextSeek

/-- A piece of the text. -/
structure Partition where
  units : List UInt16
  /-- The bytes that they take. -/
  bytes : Nat
  /-- The first unit starts a line. -/
  startsLine : Bool
  deriving DecidableEq, Repr

/-- What lies before the next partition. -/
structure Seam where
  /-- The unit held back. -/
  held : Option UInt16 := none
  /-- The last unit of the partition before. -/
  last : Option UInt16 := none

def Seam.startsLine (seam : Seam) : Bool :=
  seam.last.all fun unit => unit == lineFeed || unit == carriageReturn

/-- Makes a partition of the held unit and the units `found`, which take
`bytes` bytes. Unless the text ends here, a carriage return at the end is held
back if anything stands before it. -/
def Seam.cut (seam : Seam) (encoding : Encoding) (found : List UInt16) (bytes : Nat)
    (atEnd : Bool) : Partition × Seam :=
  let units := seam.held.toList ++ found
  let bytes := encoding.encodedLength seam.held.toList + bytes
  if !atEnd && 1 < units.length && units.getLast? == some carriageReturn then
    let kept := units.dropLast
    ({ units := kept, bytes := bytes - encoding.byteLength carriageReturn,
       startsLine := seam.startsLine },
     { held := some carriageReturn, last := kept.getLast? })
  else
    ({ units, bytes, startsLine := seam.startsLine }, { held := none, last := units.getLast? })

/-- A partition is filled up behind the unit that is held back. So if its units
can be counted by a word, the length that is asked for is one. -/
theorem Seam.call_fits (seam : Seam) {limit : Nat} (h : limit < UInt64.size) :
    (Decoder.Call.mk seam.held.toList.length (max (limit - seam.held.toList.length) 2)).Fits := by
  simp only [UInt64.size] at h
  cases hheld : seam.held <;> simp only [Decoder.Call.Fits, UInt64.size, Option.toList,
    List.length_nil, List.length_cons] <;> omega

/-- Cuts partitions of up to `limit` units behind `done`, whose last partition
comes first. -/
def cutPartitions (d : Decoder) (limit : Nat) (seam : Seam) (done : List Partition) :
    Except AccessError (List Partition) :=
  let filled := d.fill (max (limit - seam.held.toList.length) 2)
  match _hf : filled.failure with
  | some error => .error error
  | none =>
    if seam.held.isNone && filled.units.isEmpty then .ok done.reverse
    else
      let (partition, next) := seam.cut d.encoding filled.units
        (filled.decoder.position - d.position) filled.decoder.isFinished
      if _he : filled.decoder.isFinished then .ok (partition :: done).reverse
      else cutPartitions filled.decoder limit next (partition :: done)
termination_by d.left
decreasing_by exact Decoder.fill_left_lt (Nat.le_max_right _ _) _hf (by simpa using _he)

/-- The partitions of the text that a decoder stands in front of. -/
def partitions (d : Decoder) (limit : Nat) : Except AccessError (List Partition) :=
  cutPartitions d limit {} []

theorem cutPartitions_of_finished {d : Decoder} {limit : Nat} {seam : Seam}
    {done : List Partition}
    (hf : (d.fill (max (limit - seam.held.toList.length) 2)).failure = none)
    (he : (d.fill (max (limit - seam.held.toList.length) 2)).decoder.isFinished = true) :
    ∃ tail, cutPartitions d limit seam done = .ok (done.reverse ++ tail) ∧ tail.length ≤ 1 := by
  rw [cutPartitions]
  simp only
  split
  · next error h => rw [hf] at h; cases h
  · split
    · exact ⟨[], by simp⟩
    · simp only [he]
      exact ⟨[_], by simp [List.reverse_cons]; rfl⟩

end TextSeek

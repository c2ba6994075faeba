import TextSeek.Stream.Decoder
import TextSeek.Stream.Source
import TextSeek.Text.ByteLength

/-!
# Reading text from a place in a file

A `TextReader` starts at a byte offset and knows, after every operation, the
file position of the next unit it will give. It reads units, characters and
lines, skips units and lines, and gives the text as UTF-8 bytes whatever the
encoding of the file.

Every operation returns its outcome and the reader afterwards; a failed
operation leaves a reader that can be used again.

**Results.**
* `nextUnit_size_lt`, `readChar_size_lt`: an operation that gives something
  leaves less to read, so that loops over them end.
* `peekUnit_position`: a look ahead does not move the reader.
-/
namespace TextSeek

/-- A reader of the text from some place in a file on. -/
structure TextReader where
  decoder : Decoder
  /-- The most units decoded at a time. -/
  chunk : Nat
  /-- The file offset of the next unit. -/
  position : Nat
  /-- The units decoded but not given yet. -/
  pending : List UInt16 := []
  /-- The bytes of a character that the last read of bytes had no room for. -/
  undelivered : List UInt8 := []

namespace TextReader

/-- The fewest units decoded at a time; a surrogate pair fits in. -/
def minChunk : Nat := 2

def start (stream : ByteStream) (encoding : Encoding) (offset buffer : Nat) : TextReader where
  decoder := .start stream encoding offset buffer
  chunk := max (buffer / encoding.minUnitBytes) minChunk
  position := offset

/-- Opens a reader at `offset`. -/
def openAt (source : Source) (encoding : Encoding) (offset buffer : Nat) :
    Except AccessError TextReader :=
  match source.openAt offset with
  | .error error => .error (.io error)
  | .ok stream => .ok (start stream encoding offset buffer)

def encoding (r : TextReader) : Encoding := r.decoder.encoding

/-- The input has ended inside a character. -/
def endedMidCharacter (r : TextReader) : Bool := r.decoder.isDangling

/-- A bound on what is left to read. -/
def size (r : TextReader) : Nat := r.pending.length + r.decoder.left

/-! ## Units -/

/-- Decodes units if none is pending (`ensure_units`); says whether there are any. -/
def ensureUnits (r : TextReader) : Except AccessError Bool × TextReader :=
  if r.pending.isEmpty then
    let filled := r.decoder.fill r.chunk
    let next := { r with decoder := filled.decoder, pending := filled.units }
    match filled.failure with
    | some error => (.error error, next)
    | none => (.ok !next.pending.isEmpty, next)
  else (.ok true, r)

/-- The next unit, which stays the next one (`peek_unit`). -/
def peekUnit (r : TextReader) : Except AccessError (Option UInt16) × TextReader :=
  match r.ensureUnits with
  | (.error error, next) => (.error error, next)
  | (.ok _, next) => (.ok next.pending.head?, next)

/-- The next unit (`next_unit`). -/
def nextUnit (r : TextReader) : Except AccessError (Option UInt16) × TextReader :=
  match r.ensureUnits with
  | (.error error, next) => (.error error, next)
  | (.ok _, next) =>
    match next.pending with
    | [] => (.ok none, next)
    | unit :: rest =>
      (.ok (some unit),
        { next with pending := rest,
                    position := next.position + next.encoding.byteLength unit })

theorem ensureUnits_size (r : TextReader) : r.ensureUnits.2.size ≤ r.size := by
  unfold ensureUnits
  split
  · have := r.decoder.fill_left r.chunk
    simp only
    split <;> simp only [size] <;> omega
  · exact Nat.le_refl _

theorem peekUnit_size (r : TextReader) : r.peekUnit.2.size ≤ r.size := by
  have := r.ensureUnits_size
  unfold peekUnit
  split <;> simp_all

theorem nextUnit_size (r : TextReader) : r.nextUnit.2.size ≤ r.size := by
  have h := r.ensureUnits_size
  unfold nextUnit
  split
  · simp_all
  · next he =>
    rw [he] at h
    split
    · exact h
    · next hp =>
      simp only [size, hp, List.length_cons] at h ⊢
      omega

theorem nextUnit_size_lt {r next : TextReader} {unit : UInt16}
    (h : r.nextUnit = (.ok (some unit), next)) : next.size < r.size := by
  have hs := r.ensureUnits_size
  unfold nextUnit at h
  split at h
  · cases h
  · next he =>
    rw [he] at hs
    split at h
    · cases h
    · next hp =>
      cases h
      simp only [size, hp, List.length_cons] at hs ⊢
      omega

theorem ensureUnits_position (r : TextReader) : r.ensureUnits.2.position = r.position := by
  unfold ensureUnits
  split
  · simp only
    split <;> rfl
  · rfl

theorem peekUnit_position (r : TextReader) : r.peekUnit.2.position = r.position := by
  have := r.ensureUnits_position
  unfold peekUnit
  split <;> simp_all

/-- All units that are left, behind `found`, whose last one comes first; and
the error that stops the reading, if there is one. -/
def readUnitsFrom (r : TextReader) (found : List UInt16) : List UInt16 × Option AccessError :=
  match _h : r.nextUnit with
  | (.error error, _) => (found.reverse, some error)
  | (.ok none, _) => (found.reverse, none)
  | (.ok (some unit), next) => next.readUnitsFrom (unit :: found)
termination_by r.size
decreasing_by exact nextUnit_size_lt _h

/-- Everything that a reader still gives. -/
def readUnits (r : TextReader) : List UInt16 × Option AccessError := r.readUnitsFrom []

/-! ## Skipping -/

/-- Skips `wanted` units after `skipped`; stops at the end of the input. -/
def skipUnitsFrom (r : TextReader) (wanted skipped : Nat) : Except AccessError Nat × TextReader :=
  if wanted = 0 then (.ok skipped, r)
  else
    match r.ensureUnits with
    | (.error error, next) => (.error error, next)
    | (.ok _, next) =>
      if _h : next.pending = [] then (.ok skipped, next)
      else
        let taken := min next.pending.length wanted
        let passed := next.pending.take taken
        { next with pending := next.pending.drop taken,
                    position := next.position + next.encoding.encodedLength passed
          }.skipUnitsFrom (wanted - taken) (skipped + taken)
termination_by wanted
decreasing_by
  have := List.length_pos_iff.2 _h
  omega

/-- Skips up to `count` units (`skip_units`); gives how many there were. -/
def skipUnits (r : TextReader) (count : Nat) : Except AccessError Nat × TextReader :=
  r.skipUnitsFrom count 0

/-- Takes the line feed that belongs to a carriage return just read. -/
def finishLineEnd (r : TextReader) : Except AccessError Bool × TextReader :=
  match r.peekUnit with
  | (.error error, next) => (.error error, next)
  | (.ok unit, next) =>
    if unit == some lineFeed then
      match next.nextUnit with
      | (.error error, last) => (.error error, last)
      | (.ok _, last) => (.ok true, last)
    else (.ok false, next)

theorem finishLineEnd_size (r : TextReader) : r.finishLineEnd.2.size ≤ r.size := by
  have h := r.peekUnit_size
  unfold finishLineEnd
  split
  · simp_all
  · next he =>
    rw [he] at h
    split
    · have hn := nextUnit_size ‹TextReader›
      split
      all_goals
        next hl =>
        rw [hl] at hn
        exact Nat.le_trans hn h
    · exact h

/-- Skips `wanted` line ends after `found`; stops at the end of the input. -/
def skipLinesFrom (r : TextReader) (wanted found : Nat) : Except AccessError Nat × TextReader :=
  if wanted = 0 then (.ok found, r)
  else
    match _h : r.nextUnit with
    | (.error error, next) => (.error error, next)
    | (.ok none, next) => (.ok found, next)
    | (.ok (some unit), next) =>
      if unit == lineFeed then next.skipLinesFrom (wanted - 1) (found + 1)
      else if unit == carriageReturn then
        match _hc : next.finishLineEnd with
        | (.error error, last) => (.error error, last)
        | (.ok _, last) => last.skipLinesFrom (wanted - 1) (found + 1)
      else next.skipLinesFrom wanted found
termination_by r.size
decreasing_by
  · exact nextUnit_size_lt _h
  · have := next.finishLineEnd_size
    rw [_hc] at this
    exact Nat.lt_of_le_of_lt this (nextUnit_size_lt _h)
  · exact nextUnit_size_lt _h

/-- Skips up to `count` line ends (`skip_lines`); gives how many there were. -/
def skipLines (r : TextReader) (count : Nat) : Except AccessError Nat × TextReader :=
  r.skipLinesFrom count 0

/-! ## Characters and lines -/

/-- The next character (`read_char`). Half a surrogate pair reads as U+FFFD. -/
def readChar (r : TextReader) : Except AccessError (Option Char) × TextReader :=
  match r.nextUnit with
  | (.error error, next) => (.error error, next)
  | (.ok none, next) => (.ok none, next)
  | (.ok (some unit), next) =>
    if CodeUnit.isHighSurrogate unit then
      match next.peekUnit with
      | (.error error, ahead) => (.error error, ahead)
      | (.ok none, ahead) => (.ok (some CodeUnit.replacement), ahead)
      | (.ok (some low), ahead) =>
        if CodeUnit.isLowSurrogate low then
          match ahead.nextUnit with
          | (.error error, last) => (.error error, last)
          | (.ok _, last) => (.ok (some (CodeUnit.pairToChar unit low)), last)
        else (.ok (some CodeUnit.replacement), ahead)
    else (.ok (some (CodeUnit.toChar unit)), next)

theorem readChar_size_lt {r next : TextReader} {c : Char}
    (h : r.readChar = (.ok (some c), next)) : next.size < r.size := by
  unfold readChar at h
  split at h
  · cases h
  · cases h
  · next unit mid hu =>
    have hlt := nextUnit_size_lt hu
    split at h
    · have hp := mid.peekUnit_size
      split at h
      · cases h
      · next he =>
        rw [he] at hp
        cases h
        exact Nat.lt_of_le_of_lt hp hlt
      · next low ahead he =>
        rw [he] at hp
        split at h
        · have hn := ahead.nextUnit_size
          split at h
          · cases h
          · next hl =>
            rw [hl] at hn
            obtain ⟨-, rfl⟩ := Prod.mk.inj h
            exact Nat.lt_of_le_of_lt (Nat.le_trans hn hp) hlt
        · cases h
          exact Nat.lt_of_le_of_lt hp hlt
    · cases h
      exact hlt

structure LineRead where
  /-- The characters read, with those that end the line. -/
  text : List Char
  /-- What cut the line short, if it is an error. -/
  failure : Option AccessError
  /-- The reader afterwards. -/
  reader : TextReader

/-- Reads the rest of a line behind `found`, whose last character comes
first. -/
def readLineFrom (r : TextReader) (found : List Char) : LineRead :=
  match _h : r.readChar with
  | (.error error, next) => ⟨found.reverse, some error, next⟩
  | (.ok none, next) => ⟨found.reverse, none, next⟩
  | (.ok (some c), next) =>
    if c == '\n' then ⟨(c :: found).reverse, none, next⟩
    else if c == '\r' then
      match next.finishLineEnd with
      | (.error error, last) => ⟨(c :: found).reverse, some error, last⟩
      | (.ok true, last) => ⟨('\n' :: c :: found).reverse, none, last⟩
      | (.ok false, last) => ⟨(c :: found).reverse, none, last⟩
    else next.readLineFrom (c :: found)
termination_by r.size
decreasing_by exact readChar_size_lt _h

/-- Reads the rest of the line, with its end (`read_line`). -/
def readLine (r : TextReader) : LineRead := r.readLineFrom []

/-! ## Bytes -/

/-- Reads UTF-8 bytes until `room` is used up, behind `found`, whose last byte
comes first. A character that does not fit is kept for the next read. An error
gives up what was read. -/
def readFrom (r : TextReader) (room : Nat) (found : List UInt8) :
    Except AccessError (List UInt8) × TextReader :=
  if room = 0 then (.ok found.reverse, r)
  else if _hu : r.undelivered = [] then
    match _h : r.readChar with
    | (.error error, next) => (.error error, next)
    | (.ok none, next) => (.ok found.reverse, next)
    | (.ok (some c), next) =>
      { next with undelivered := String.utf8EncodeChar c }.readFrom room found
  else
    let taken := min r.undelivered.length room
    { r with undelivered := r.undelivered.drop taken }.readFrom (room - taken)
      ((r.undelivered.take taken).reverse ++ found)
termination_by room + r.size
decreasing_by
  · have := readChar_size_lt _h
    simp only [size] at this ⊢
    omega
  · have := List.length_pos_iff.2 _hu
    simp only [size]
    omega

/-- Reads up to `space` bytes of the text in UTF-8. -/
def read (r : TextReader) (space : Nat) : Except AccessError (List UInt8) × TextReader :=
  r.readFrom space []

/-- Reads all characters that are left, behind `found`, whose last character
comes first. -/
def readCharsFrom (r : TextReader) (found : List Char) :
    Except AccessError (List Char) × TextReader :=
  match _h : r.readChar with
  | (.error error, next) => (.error error, next)
  | (.ok none, next) => (.ok found.reverse, next)
  | (.ok (some c), next) => next.readCharsFrom (c :: found)
termination_by r.size
decreasing_by exact readChar_size_lt _h

def readToEnd (r : TextReader) : Except AccessError (List UInt8) × TextReader :=
  match { r with undelivered := [] }.readCharsFrom [] with
  | (.error error, next) => (.error error, next)
  | (.ok chars, next) => (.ok (r.undelivered ++ chars.flatMap String.utf8EncodeChar), next)

/-! ## Files that change -/

/-- The reader after its file has got the bytes `content`. Bytes that it has
read already stay as they were. -/
def withContent (r : TextReader) (content : List UInt8) : TextReader :=
  { r with decoder := { r.decoder with stream := r.decoder.stream.withContent content } }

end TextReader
end TextSeek

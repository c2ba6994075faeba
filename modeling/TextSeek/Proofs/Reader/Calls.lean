import TextSeek.Proofs.Reader.Delivery

/-!
# Any calls on a reader

A reader is called any number of times, on a stream that may bring its bytes in any
pieces and may fail. Whatever the calls answer, the reader stands in the text behind the
units that they have taken (`Balances`), and each answer tells of what its call has taken
(`ReaderCall.Takes`). So a call that fails leaves no gap, and what it has not taken is
still there for the next one.

A read of bytes is the exception. It counts what it has put together as taken, and if
it fails it hands nothing out.

Results:
* `start_follows`: any calls, one after the other.
* `read_error`: what is lost in a read that fails.
* `not_read_error_keeps`: a read that fails can lose something.
-/
namespace TextSeek

inductive ReaderCall where
  | peekUnit
  | nextUnit
  | skipUnits (count : Nat)
  | skipLines (count : Nat)
  | readChar
  | readLine
  | read (space : Nat)

/-- A reader that was opened at the byte `offset`, from which on the file holds `content`, has
given the units `given`: its decoder is ahead of it by the bytes of the units held, its
position is that of the next unit, and no unit of the text is left out or comes twice. -/
structure TextReader.Balances (r : TextReader) (content : List UInt8) (encoding : Encoding)
    (offset : Nat) (given : List UInt16) : Prop where
  held : r.position + encoding.encodedLength r.pending = r.decoder.position
  position_eq : r.position = offset + encoding.encodedLength given
  front : given ++ r.pending <+: (encoding.decodeAll content).units

namespace ReaderCall

def after (r : TextReader) : ReaderCall → TextReader
  | peekUnit => r.peekUnit.2
  | nextUnit => r.nextUnit.2
  | skipUnits count => (r.skipUnits count).2
  | skipLines count => (r.skipLines count).2
  | readChar => r.readChar.2
  | readLine => r.readLine.reader
  | read space => (r.read space).2

/-- What the answer to a call tells of the units `taken` by it. -/
def Takes (r : TextReader) (content : List UInt8) (encoding : Encoding) (offset : Nat)
    (given taken : List UInt16) : ReaderCall → Prop
  | peekUnit => taken = [] ∧ ∀ unit, r.peekUnit.1 = .ok (some unit) →
      given ++ [unit] <+: (encoding.decodeAll content).units
  | nextUnit => taken = answered r.nextUnit.1
  | skipUnits count => taken.length ≤ count ∧
      ∀ skipped, (r.skipUnits count).1 = .ok skipped → skipped = taken.length
  | skipLines count => lineEnds taken none ≤ count ∧
      ∀ skipped, (r.skipLines count).1 = .ok skipped → skipped = lineEnds taken none
  | readChar => CodeUnit.toChars taken = answered r.readChar.1
  -- also of a line that is cut short
  | readLine => r.readLine.text = CodeUnit.toChars taken ∧
      (Paired given → encoding.encode? r.readLine.text = some
        ((content.drop (r.position - offset)).take (r.readLine.reader.position - r.position)))
  | read space => ∀ output, (r.read space).1 = .ok output →
      output ++ (r.read space).2.undelivered =
        r.undelivered ++ utf8Bytes (CodeUnit.toChars taken)

end ReaderCall

namespace TextReader

variable {r : TextReader} {content : List UInt8} {encoding : Encoding} {offset : Nat}
  {given : List UInt16}

theorem Stands.balances (h : r.Stands content encoding offset given) :
    r.Balances content encoding offset given :=
  ⟨h.held, h.position_eq, h.front⟩

/-! ## One call -/

/-- A call takes some units off the front of what is left, and answers with them. -/
theorem Stands.takes (h : r.Stands content encoding offset given) (call : ReaderCall) :
    ∃ taken, call.Takes r content encoding offset given taken ∧
      (call.after r).Stands content encoding offset (given ++ taken) := by
  cases call with
  | peekUnit =>
    have hs := peekUnit_stands h
    refine ⟨[], ⟨rfl, ?_⟩, hs.stay⟩
    intro unit hpeek
    obtain ⟨rest, hp⟩ := List.head?_eq_some_iff.1 (peekUnit_ok (Prod.ext hpeek rfl)).symm
    have hfront := hs.front
    rw [hp, List.append_cons] at hfront
    exact (List.prefix_append _ _).trans hfront
  | nextUnit => exact ⟨_, rfl, nextUnit_stands h⟩
  | skipUnits count =>
    obtain ⟨taken, hs, hle, hcount⟩ := skipUnits_stands h count
    simp only [Nat.zero_add] at hcount
    exact ⟨taken, ⟨hle, hcount⟩, hs⟩
  | skipLines count =>
    obtain ⟨taken, hs, hle, hcount⟩ := skipLines_stands h count
    simp only [Nat.zero_add] at hcount
    exact ⟨taken, ⟨hle, hcount⟩, hs⟩
  | readChar =>
    obtain ⟨taken, hs, hchars, -⟩ := readChar_stands h (Prod.eta r.readChar).symm
    have hanswer := hchars []
    rw [List.append_nil] at hanswer
    exact ⟨taken, hanswer.trans (List.append_nil _), hs⟩
  | readLine =>
    obtain ⟨taken, hs, htext, hbytes⟩ := readLine_stands h
    exact ⟨taken, ⟨htext, hbytes⟩, hs⟩
  | read space =>
    cases hread : (r.read space).1 with
    | error error =>
      obtain ⟨taken, -, hs, -⟩ := readFrom_error_stands h (Prod.ext hread rfl)
      refine ⟨taken, ?_, hs⟩
      intro output hok
      rw [hread] at hok
      cases hok
    | ok output =>
      obtain ⟨taken, hs, hbytes⟩ := readFrom_ok_stands h (Prod.ext hread rfl)
      refine ⟨taken, ?_, hs⟩
      intro output' hok
      rw [hread] at hok
      cases hok
      exact hbytes

/-! ## Calls one after the other -/

def afterAll (r : TextReader) (calls : List ReaderCall) : TextReader :=
  calls.foldl ReaderCall.after r

/-- The reader `r`, which has given the units `given`, goes on through the text: between any two
of the calls it stands behind what was given, and each call takes what it tells of. -/
def Follows (content : List UInt8) (encoding : Encoding) (offset : Nat) :
    TextReader → List UInt16 → List ReaderCall → Prop
  | r, given, [] => r.Balances content encoding offset given
  | r, given, call :: later => r.Balances content encoding offset given ∧
      ∃ taken, call.Takes r content encoding offset given taken ∧
        Follows content encoding offset (call.after r) (given ++ taken) later

theorem Stands.follows (h : r.Stands content encoding offset given) (calls : List ReaderCall) :
    Follows content encoding offset r given calls := by
  induction calls generalizing r given with
  | nil => exact h.balances
  | cons call later ih =>
    obtain ⟨taken, htakes, hs⟩ := h.takes call
    exact ⟨h.balances, taken, htakes, ih hs⟩

theorem Stands.afterAll (h : r.Stands content encoding offset given) (calls : List ReaderCall) :
    ∃ given, (r.afterAll calls).Stands content encoding offset given := by
  induction calls generalizing r given with
  | nil => exact ⟨given, h⟩
  | cons call later ih =>
    obtain ⟨taken, -, hs⟩ := h.takes call
    exact ih hs

/-- Whatever the reads of the stream bring and whatever is called, a reader gives the text from
where it was opened on, unit for unit, and knows its place. -/
theorem start_follows (stream : ByteStream) (encoding : Encoding) (offset buffer : Nat)
    (calls : List ReaderCall) :
    Follows stream.rest encoding offset (start stream encoding offset buffer) [] calls :=
  (start_stands stream encoding offset buffer).follows calls

/-! ## Reads that fail -/

/-- After any calls, a read of bytes that fails has lost the bytes `lost`: those that were kept
for it, and those of the characters that it has passed. A read of just as many bytes hands
them out. If there were none, the reader has not moved, and so it is wherever there is room
for one byte only; between two characters it has not moved only if there were none. -/
theorem read_error (stream : ByteStream) (encoding : Encoding) (offset buffer : Nat)
    (calls : List ReaderCall) {space : Nat} {error : AccessError} {next : TextReader}
    (h : ((start stream encoding offset buffer).afterAll calls).read space =
      (.error error, next)) :
    let r := (start stream encoding offset buffer).afterAll calls
    ∃ given taken lost, r.Balances stream.rest encoding offset given ∧
      next.Balances stream.rest encoding offset (given ++ taken) ∧ next.undelivered = [] ∧
      lost = r.undelivered ++ utf8Bytes (CodeUnit.toChars taken) ∧ lost.length < space ∧
      (r.read lost.length).1 = .ok lost ∧
      (lost = [] → next.position = r.position ∧ next.undelivered = r.undelivered) ∧
      (Paired given → next.position = r.position → next.undelivered = r.undelivered →
        lost = []) := by
  intro r
  obtain ⟨given, hs⟩ := (start_stands stream encoding offset buffer).afterAll calls
  obtain ⟨taken, lost, hnext, hkept, hwhole, hlost, hlt, hfits⟩ := readFrom_error_stands hs h
  refine ⟨given, taken, lost, hs.balances, hnext.balances, hkept, hlost, hlt, hfits, ?_, ?_⟩
  · intro hnone
    rw [hnone, eq_comm, List.append_eq_nil_iff] at hlost
    have htaken := CodeUnit.toChars_eq_nil (utf8Bytes_eq_nil hlost.2)
    rw [htaken, List.append_nil] at hnext
    exact ⟨hnext.position_eq.trans hs.position_eq.symm, hkept.trans hlost.1.symm⟩
  · intro hg hplace hbytes
    have hlength : encoding.encodedLength taken = 0 := by
      have hnew := hnext.position_eq
      rw [hplace, hs.position_eq, Encoding.encodedLength_append] at hnew
      omega
    have htaken : taken = [] := by
      by_contra hne
      have hpos := (hwhole hg).encodedLength_pos encoding hne
      omega
    rw [hlost, htaken, ← hbytes, hkept]
    rfl

theorem read_letter :
    ((start { rest := [0x61, 0xFF] } .utf8 0 0).read 2).1 = .error (.malformed .utf8 1) ∧
      ((start { rest := [0x61, 0xFF] } .utf8 0 0).read 2).2.position = 1 := by
  decide +kernel

/-- A letter in front of a byte that is malformed. -/
theorem read_error_letter :
    let r := start { rest := [0x61, 0xFF] } .utf8 0 0
    (r.read 2).1 = .error (.malformed .utf8 1) ∧ (r.read 2).2.position = 1 ∧
      ∃ lost, lost ≠ [] ∧ lost.length < 2 ∧ (r.read lost.length).1 = .ok lost := by
  intro r
  obtain ⟨herror, hplace⟩ := read_letter
  obtain ⟨given, taken, lost, -, -, -, -, hlt, hfits, hstay, -⟩ :=
    read_error { rest := [0x61, 0xFF] } .utf8 0 0 [] (Prod.ext herror rfl)
  refine ⟨herror, hplace, lost, ?_, hlt, hfits⟩
  intro hnone
  exact absurd (hplace.symm.trans (hstay hnone).1) (by decide)

/-- It is not so that a read that fails leaves the reader where it was. -/
theorem not_read_error_keeps :
    ¬ ∀ (stream : ByteStream) (encoding : Encoding) (offset buffer : Nat)
        (calls : List ReaderCall) (space : Nat) (error : AccessError) (next : TextReader),
      ((start stream encoding offset buffer).afterAll calls).read space = (.error error, next) →
      next.position = ((start stream encoding offset buffer).afterAll calls).position ∧
        next.undelivered = ((start stream encoding offset buffer).afterAll calls).undelivered := by
  intro hkeeps
  obtain ⟨herror, hplace⟩ := read_letter
  have hstart := (hkeeps { rest := [0x61, 0xFF] } .utf8 0 0 [] 2 _ _ (Prod.ext herror rfl)).1
  exact absurd (hplace.symm.trans hstart) (by decide)

end TextReader
end TextSeek

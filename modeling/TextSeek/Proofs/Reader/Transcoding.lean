import Mathlib.Algebra.GroupWithZero.Nat
import TextSeek.Proofs.Reader.Delivery
import TextSeek.Proofs.Reader.LineReading

/-!
# Reading a text as UTF-8

Where nothing stands in the way, reads of bytes hand out the UTF-8 bytes of the text, each
of them as many as there is room for, whatever the encoding of the file. A character may be
spread over several reads; the reader has passed it from the first of its bytes on, and
keeps the others (`Delivers`). Where a read ends with a character, the reader stands in front of
the next one, and nothing is kept.

Results:
* `Delivers.readFrom`: one read.
* `reads_transcode`: any reads, one after the other.
-/
namespace TextSeek

/-- Bytes cut into pieces of the given sizes, as far as they go. -/
def piecesOf (bytes : List UInt8) : List Nat → List (List UInt8)
  | [] => []
  | size :: sizes => bytes.take size :: piecesOf (bytes.drop size) sizes

theorem flatten_piecesOf (bytes : List UInt8) (sizes : List Nat) :
    (piecesOf bytes sizes).flatten = bytes.take sizes.sum := by
  induction sizes generalizing bytes with
  | nil => rfl
  | cons size sizes ih => rw [piecesOf, List.flatten_cons, ih, List.sum_cons, List.take_add]

theorem getElem?_piecesOf (bytes : List UInt8) (sizes : List Nat) (i : Nat) :
    (piecesOf bytes sizes)[i]? =
      sizes[i]?.map fun size => (bytes.drop (sizes.take i).sum).take size := by
  induction sizes generalizing bytes i with
  | nil => rfl
  | cons size sizes ih =>
    cases i with
    | zero => rfl
    | succ i =>
      rw [piecesOf, List.getElem?_cons_succ, List.getElem?_cons_succ, ih, List.take_succ_cons,
        List.sum_cons]
      simp only [List.drop_drop]

theorem utf8Bytes_append (a b : List Char) : utf8Bytes (a ++ b) = utf8Bytes a ++ utf8Bytes b :=
  List.flatMap_append

namespace TextReader

variable {r next : TextReader} {encoding : Encoding} {text : WholeText}
  {chars passed rest : List Char} {count limit room : Nat}

def reads (r : TextReader) : List Nat → Except AccessError (List (List UInt8)) × TextReader
  | [] => (.ok [], r)
  | space :: spaces =>
    match r.read space with
    | (.error error, next) => (.error error, next)
    | (.ok piece, next) =>
      match next.reads spaces with
      | (.error error, last) => (.error error, last)
      | (.ok pieces, last) => (.ok (piece :: pieces), last)

/-- Since `r`, which shows the text `chars`, the first `count` of its UTF-8 bytes have been
handed out. The reader `next` has passed the characters `passed`, keeps what is left of the
bytes of the last of them, and the bytes of that one start in front of `limit`. -/
structure Delivers (r : TextReader) (encoding : Encoding) (text : WholeText) (chars : List Char)
    (next : TextReader) (count limit : Nat) (passed rest : List Char) : Prop where
  moves : r.Moves encoding text (passed.flatMap CodeUnit.ofChar).length next
  chars_eq : chars = passed ++ rest
  owed : next.undelivered ++ utf8Bytes rest = (utf8Bytes chars).drop count
  begun : ∀ front c, passed = front ++ [c] → (utf8Bytes front).length < limit

theorem Moves.keep {n : Nat} (h : r.Moves encoding text n next) (bytes : List UInt8) :
    r.Moves encoding text n { next with undelivered := bytes } :=
  ⟨⟨h.shows.steady, h.shows.encoding_eq, h.shows.chunk, h.shows.text_eq, h.shows.position_eq⟩,
    h.position_eq⟩

theorem Delivers.units_eq (h : r.Delivers encoding text chars next count limit passed rest)
    (hu : text.units = chars.flatMap CodeUnit.ofChar) :
    (text.behind encoding (passed.flatMap CodeUnit.ofChar).length).units =
      rest.flatMap CodeUnit.ofChar := by
  rw [WholeText.behind, hu, h.chars_eq, List.flatMap_append, List.drop_left]

theorem Delivers.refill (h : r.Delivers encoding text chars next count limit passed rest)
    (hc : text.ending = .complete) (hu : text.units = chars.flatMap CodeUnit.ofChar)
    (hkept : next.undelivered = []) (hlt : count < limit) :
    (rest = [] ∧ ∃ last, next.readChar = (.ok none, last) ∧
        r.Delivers encoding text chars last limit limit passed rest) ∨
      ∃ c more last, rest = c :: more ∧ next.readChar = (.ok (some c), last) ∧
        r.Delivers encoding text chars { last with undelivered := String.utf8EncodeChar c } count
          limit (passed ++ [c]) more := by
  obtain ⟨last, hread, hm⟩ := readChar_head h.moves.shows hc (h.units_eq hu)
  have hall := h.moves.trans hm
  cases hrest : rest with
  | nil =>
    rw [hrest] at hread hall
    refine .inl ⟨rfl, last, hread, hall, ?_, ?_, h.begun⟩
    · rw [h.chars_eq, hrest]
    · have howed := h.owed
      rw [hkept, hrest, eq_comm, List.nil_append] at howed
      rw [readChar_undelivered hread, hkept, List.nil_append, eq_comm]
      exact List.drop_eq_nil_of_le (Nat.le_trans (List.drop_eq_nil_iff.1 howed) (Nat.le_of_lt hlt))
  | cons c more =>
    rw [hrest] at hread hall
    refine .inr ⟨c, more, last, rfl, hread, ?_, ?_, ?_, ?_⟩
    · rw [List.flatMap_append, List.length_append]
      exact hall.keep _
    · rw [h.chars_eq, hrest, List.append_cons]
    · have howed := h.owed
      rw [hkept, hrest, List.nil_append] at howed
      exact howed
    · intro front c' hlast
      obtain ⟨rfl, -⟩ := List.append_inj' hlast rfl
      -- all bytes in front of the character have been handed out
      have howed := congrArg List.length h.owed
      have hpos := List.length_pos_iff.2 (String.utf8EncodeChar_ne_nil (c := c))
      simp only [h.chars_eq, hrest, hkept, utf8Bytes_append, utf8Bytes_cons, List.length_append,
        List.length_drop, List.length_nil] at howed
      omega

theorem Delivers.handOut (h : r.Delivers encoding text chars next count limit passed rest) {k : Nat}
    (hk : k ≤ next.undelivered.length) :
    next.undelivered.take k = ((utf8Bytes chars).drop count).take k ∧
      r.Delivers encoding text chars { next with undelivered := next.undelivered.drop k }
        (count + k) limit passed rest := by
  refine ⟨?_, h.moves.keep _, h.chars_eq, ?_, h.begun⟩
  · rw [← h.owed, List.take_append_of_le_length hk]
  · rw [← List.drop_drop, ← h.owed, List.drop_append_of_le_length hk]

/-- A read hands out the next bytes of the text, as many as there is room for. -/
theorem Delivers.readFrom
    (h : r.Delivers encoding text chars next count (count + room) passed rest)
    (hc : text.ending = .complete) (hu : text.units = chars.flatMap CodeUnit.ofChar)
    (found : List UInt8) :
    ∃ last passed rest, next.readFrom room found =
        (.ok (found.reverse ++ ((utf8Bytes chars).drop count).take room), last) ∧
      r.Delivers encoding text chars last (count + room) (count + room) passed rest := by
  generalize hlimit : count + room = limit at h ⊢
  fun_induction TextReader.readFrom next room found generalizing count passed rest with
  | case1 next found =>
    refine ⟨next, passed, rest, ?_, ?_⟩
    · rw [List.take_zero, List.append_nil]
    · rw [Nat.add_zero] at hlimit
      rw [hlimit] at h
      exact h
  | case2 next room found hroom hkept error last hread =>
    rcases h.refill hc hu hkept (by omega) with ⟨-, last, hr, -⟩ | ⟨c, more, last, -, hr, -⟩
    · rw [hread] at hr
      cases hr
    · rw [hread] at hr
      cases hr
  | case3 next room found hroom hkept last hread =>
    rcases h.refill hc hu hkept (by omega) with ⟨hrest, last, hr, hd⟩ | ⟨c, more, last, -, hr, -⟩
    · rw [hread] at hr
      cases hr
      refine ⟨last, passed, rest, ?_, hd⟩
      rw [← h.owed, hkept, hrest]
      simp [utf8Bytes]
    · rw [hread] at hr
      cases hr
  | case4 next room found hroom hkept c last hread ih =>
    rcases h.refill hc hu hkept (by omega) with ⟨-, last, hr, -⟩ | ⟨c, more, last, -, hr, hd⟩
    · rw [hread] at hr
      cases hr
    · rw [hread] at hr
      cases hr
      exact ih hlimit hd
  | case5 next room found hroom hkept k =>
    rename_i ih
    obtain ⟨hout, hd⟩ := h.handOut (Nat.min_le_left next.undelivered.length room)
    obtain ⟨last, passed', rest', hr, hlast⟩ := ih (by omega) hd
    refine ⟨last, passed', rest', ?_, hlast⟩
    have hparts := List.take_add (l := (utf8Bytes chars).drop count) (i := k) (j := room - k)
    rw [List.drop_drop, ← hout, Nat.add_sub_cancel' (Nat.min_le_right _ _)] at hparts
    rw [hr, hparts, List.reverse_append, List.reverse_reverse, List.append_assoc]

/-! ## Reads one after the other -/

theorem Shows.delivers (h : r.Shows encoding text) (hkept : r.undelivered = [])
    (chars : List Char) : r.Delivers encoding text chars r 0 0 [] chars where
  moves := .stay h rfl
  chars_eq := rfl
  owed := by rw [hkept, List.nil_append, List.drop_zero]
  begun front c hnil := by
    rw [eq_comm, List.append_eq_nil_iff] at hnil
    cases hnil.2

theorem Delivers.extend (h : r.Delivers encoding text chars next count count passed rest)
    (room : Nat) : r.Delivers encoding text chars next count (count + room) passed rest :=
  ⟨h.moves, h.chars_eq, h.owed, fun front c hlast => Nat.lt_add_right room (h.begun front c hlast)⟩

theorem Delivers.reads (h : r.Delivers encoding text chars next count count passed rest)
    (hc : text.ending = .complete) (hu : text.units = chars.flatMap CodeUnit.ofChar)
    (spaces : List Nat) :
    ∃ last passed rest, next.reads spaces =
        (.ok (piecesOf ((utf8Bytes chars).drop count) spaces), last) ∧
      r.Delivers encoding text chars last (count + spaces.sum) (count + spaces.sum) passed rest := by
  induction spaces generalizing next count passed rest with
  | nil => exact ⟨next, passed, rest, rfl, h⟩
  | cons space spaces ih =>
    obtain ⟨mid, passed', rest', hread, hd⟩ := (h.extend space).readFrom hc hu []
    obtain ⟨last, passed'', rest'', hreads, hlast⟩ := ih hd
    refine ⟨last, passed'', rest'', ?_, ?_⟩
    · rw [List.reverse_nil, List.nil_append] at hread
      rw [TextReader.reads, read, hread]
      simp only [hreads, piecesOf, List.drop_drop]
    · rw [List.sum_cons, ← Nat.add_assoc]
      exact hlast

/-- Where whole characters have been handed out, these are passed, and nothing is kept. -/
theorem Delivers.at_boundary (h : r.Delivers encoding text chars next count count passed rest)
    {front back : List Char} (hchars : chars = front ++ back)
    (hout : (utf8Bytes chars).take count = utf8Bytes front) :
    passed = front ∧ rest = back ∧ next.undelivered = [] := by
  have hleft : next.undelivered ++ utf8Bytes rest = utf8Bytes back := by
    have hwhole := List.take_append_drop count (utf8Bytes chars)
    rw [hout, ← h.owed] at hwhole
    rw [hchars, utf8Bytes_append, List.append_cancel_left_eq] at hwhole
    exact hwhole
  have hpassed : passed = front := by
    have hboth := h.chars_eq
    rw [hchars, List.append_eq_append_iff] at hboth
    rcases hboth with ⟨more, rfl, rfl⟩ | ⟨more, rfl, rfl⟩
    · rcases List.eq_nil_or_concat more with rfl | ⟨begun, c, rfl⟩
      · exact List.append_nil front
      · -- the last character passed has begun, and would have been handed out in part
        have hbegun := h.begun (front ++ begun) c (by simp)
        have hcount := congrArg List.length hout
        have hpos := List.length_pos_iff.2 (String.utf8EncodeChar_ne_nil (c := c))
        simp only [hchars, utf8Bytes_append, utf8Bytes_cons, List.length_append,
          List.length_take, List.concat_eq_append] at hbegun hcount
        omega
    · -- nothing is left out behind what has been passed
      rw [utf8Bytes_append, ← List.append_assoc, List.append_left_eq_self,
        List.append_eq_nil_iff] at hleft
      rw [utf8Bytes_eq_nil hleft.2, List.append_nil]
  have hrest : rest = back := by
    have hboth := h.chars_eq
    rw [hchars, hpassed] at hboth
    exact (List.append_cancel_left hboth).symm
  rw [hrest, List.append_left_eq_self] at hleft
  exact ⟨hpassed, hrest, hleft⟩

/-- A reader that keeps nothing, and in front of which the text `chars` stands, is read in any
pieces. Each read hands out as many bytes as there is room for, or as are left, and together
they hand out the UTF-8 bytes of the text. Wherever they end with a character, the reader
stands in front of the next one, and reads on there by characters or by lines. -/
theorem reads_transcode (h : r.Shows encoding text) (hc : text.ending = .complete)
    (hu : text.units = chars.flatMap CodeUnit.ofChar) (hkept : r.undelivered = [])
    (spaces : List Nat) :
    ∃ pieces last, r.reads spaces = (.ok pieces, last) ∧
      (∀ i, pieces[i]?.map List.length = spaces[i]?.map fun space =>
        min space ((utf8Bytes chars).length - (spaces.take i).sum)) ∧
      pieces.flatten = (utf8Bytes chars).take spaces.sum ∧
      ∀ front back, chars = front ++ back → pieces.flatten = utf8Bytes front →
        last.undelivered = [] ∧
        last.position = r.position + encoding.encodedLength (front.flatMap CodeUnit.ofChar) ∧
        (∃ next, last.readChar = (.ok back.head?, next)) ∧
        ∀ lines, Delimited lines → writtenLines lines = back →
          ∃ next, last.readLine = ⟨writtenLines (lines.take 1), none, next⟩ := by
  obtain ⟨last, passed, rest, hreads, hd⟩ := (h.delivers hkept chars).reads hc hu spaces
  rw [List.drop_zero] at hreads
  rw [Nat.zero_add] at hd
  refine ⟨_, last, hreads, ?_, flatten_piecesOf _ _, ?_⟩
  · intro i
    rw [getElem?_piecesOf, Option.map_map]
    refine congrArg (Option.map · _) (funext fun space => ?_)
    simp only [Function.comp_apply, List.length_take, List.length_drop]
  · intro front back hchars hout
    rw [flatten_piecesOf] at hout
    obtain ⟨rfl, rfl, hnone⟩ := hd.at_boundary hchars hout
    have hunits := hd.units_eq hu
    refine ⟨hnone, ?_, ?_, ?_⟩
    · rw [hd.moves.position_eq, hu, hchars, List.flatMap_append, List.take_left]
    · obtain ⟨next, hread, -⟩ := readChar_head hd.moves.shows hc hunits
      exact ⟨next, hread⟩
    · rintro lines hlines rfl
      rw [← unitsOf_eq] at hunits
      obtain ⟨next, hread, -⟩ := readLine_first hd.moves.shows hc hlines hunits
      exact ⟨next, hread⟩

/-- A letter of two bytes, and a character of four that is spread over three reads. The file is
UTF-16, and comes byte by byte. -/
theorem reads_transcode_pair :
    let stream : ByteStream :=
      { rest := [0x00, 0xE9, 0xD8, 0x3D, 0xDE, 0x00, 0x00, 0x0A, 0x00, 0x62]
        pieceLimit := (fun _ => some 1), faults := [(1, .interrupted)] }
    ∃ pieces last, (start stream .utf16be 7 0).reads [3, 0, 1, 2] = (.ok pieces, last) ∧
      pieces.flatten = [0xC3, 0xA9, 0xF0, 0x9F, 0x98, 0x80] ∧ last.position = 13 ∧
      (∃ next, last.readChar = (.ok (some '\n'), next)) ∧
      ∃ next, last.readLine = ⟨['\n'], none, next⟩ := by
  intro stream
  have hsteady : stream.Steady := by
    intro k _
    by_cases hk : k = 1
    · subst hk
      exact .inr rfl
    · exact .inl (by simp [stream, List.lookup_cons, beq_false_of_ne hk])
  have hunits : (Encoding.utf16be.decodeAll stream.rest).units =
      ['é', '😀', '\n', 'b'].flatMap CodeUnit.ofChar := by decide +kernel
  have hlines : Delimited [⟨[], some .lf, by simp⟩, ⟨['b'], none, by simp⟩] :=
    .cons _ _ _ (by decide) (by decide) <| .last _ (by decide)
  obtain ⟨pieces, last, hreads, -, hout, hplace⟩ :=
    reads_transcode (start_shows hsteady .utf16be 7 0) (by decide +kernel) hunits rfl [3, 0, 1, 2]
  obtain ⟨-, hpos, hchar, hline⟩ := hplace ['é', '😀'] ['\n', 'b'] rfl (by rw [hout]; decide)
  exact ⟨pieces, last, hreads, by rw [hout]; decide, hpos, hchar, hline _ hlines rfl⟩

end TextReader
end TextSeek

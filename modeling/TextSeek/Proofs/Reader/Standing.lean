import TextSeek.Proofs.Reader.Reading
import TextSeek.Proofs.Stream.Schedule
import TextSeek.Proofs.Text.Passages

/-!
# Reading whatever the reads bring

A reader that was opened somewhere gives the units of the text from there on, one after
the other, and holds those that it has decoded and not given yet. This is so between any
two calls (`Stands`): the reads of its stream may bring pieces of any size, may fail, and
may report the end early, and the calls before may have failed. What a call takes off the
front is what it tells of; a call that fails takes what it has given already, and leaves
the rest to the next one.

Results:
* `nextUnit_stands`, `skipUnits_stands`, `skipLines_stands`, `readChar_stands`,
  `readLine_stands`: what one call takes.
* `Stands.written`: the bytes that were passed are those of the characters that were read.
-/
namespace TextSeek

/-- A reader that was opened at the byte `offset`, from which on the file holds the bytes
`content`, has given the units `given`. -/
structure TextReader.Stands (r : TextReader) (content : List UInt8) (encoding : Encoding)
    (offset : Nat) (given : List UInt16) : Prop where
  chunk : minChunk ≤ r.chunk
  decoded : ∃ used, r.decoder.Stands content encoding offset used ∧
    (encoding.decodeAll used).units = given ++ r.pending
  position_eq : r.position = offset + encoding.encodedLength given

/-- What a call has given: nothing at the end of the input, or if it fails. -/
def answered {α : Type} : Except AccessError (Option α) → List α
  | .ok (some answer) => [answer]
  | .ok none | .error _ => []

namespace TextReader

variable {r next : TextReader} {content : List UInt8} {encoding : Encoding} {offset : Nat}
  {given more : List UInt16}

theorem start_stands (stream : ByteStream) (encoding : Encoding) (offset buffer : Nat) :
    (start stream encoding offset buffer).Stands stream.rest encoding offset [] where
  chunk := Nat.le_max_right _ _
  decoded := by
    refine ⟨[], Decoder.start_stands stream encoding offset buffer, ?_⟩
    rw [Encoding.decodeAll_nil]
    rfl
  position_eq := rfl

/-! ## What is known of a reader -/

theorem Stands.stay (h : r.Stands content encoding offset given) :
    r.Stands content encoding offset (given ++ []) := by
  rw [List.append_nil]
  exact h

theorem Stands.encoding_eq (h : r.Stands content encoding offset given) :
    r.encoding = encoding := by
  obtain ⟨used, hd, -⟩ := h.decoded
  exact hd.encoding_eq

theorem Stands.held (h : r.Stands content encoding offset given) :
    r.position + encoding.encodedLength r.pending = r.decoder.position := by
  obtain ⟨used, hd, hu⟩ := h.decoded
  have hlen := encoding.decodeAll_encodedLength used
  rw [hu, Encoding.encodedLength_append, Encoding.consumed_of_complete hd.complete] at hlen
  rw [h.position_eq, hd.position_eq, Nat.add_assoc, hlen]

theorem Stands.front (h : r.Stands content encoding offset given) :
    given ++ r.pending <+: (encoding.decodeAll content).units := by
  obtain ⟨used, hd, hu⟩ := h.decoded
  rw [hd.content_eq, List.append_assoc, Encoding.decodeAll_append_of_complete hd.complete,
    WholeText.units_prepend, hu]
  exact List.prefix_append _ _

theorem Stands.paired (h : r.Stands content encoding offset given) : Paired (given ++ r.pending) := by
  obtain ⟨used, -, hu⟩ := h.decoded
  rw [← hu]
  exact encoding.decodeAll_paired used

/-- Behind whole characters, the bytes that were passed are those of the characters that the
units taken are read as. -/
theorem Stands.written (h : r.Stands content encoding offset given)
    (h' : next.Stands content encoding offset (given ++ more)) (hg : Paired given)
    (hm : Paired more) :
    encoding.encode? (CodeUnit.toChars more) =
      some ((content.drop (r.position - offset)).take (next.position - r.position)) := by
  obtain ⟨used, hd, hu⟩ := h'.decoded
  have hlen := encoding.decodeAll_encodedLength used
  rw [hu, Encoding.consumed_of_complete hd.complete] at hlen
  simp only [Encoding.encodedLength_append] at hlen
  have hstart : r.position - offset = encoding.encodedLength given := by
    rw [h.position_eq, Nat.add_sub_cancel_left]
  have hwidth : next.position - r.position = encoding.encodedLength more := by
    rw [h.position_eq, h'.position_eq, Encoding.encodedLength_append, ← Nat.add_assoc,
      Nat.add_sub_cancel_left]
  rw [Encoding.encode_passage hd.complete hu hg hm, hstart, hwidth, hd.content_eq,
    List.append_assoc, List.drop_append_of_le_length (by omega),
    List.take_append_of_le_length (by rw [List.length_drop]; omega)]

/-- Units held by the reader are given. -/
theorem Stands.give (h : r.Stands content encoding offset given) {front back : List UInt16}
    (hp : r.pending = front ++ back) :
    { r with
      pending := back
      position := r.position + r.encoding.encodedLength front }.Stands content encoding offset
        (given ++ front) where
  chunk := h.chunk
  decoded := by
    obtain ⟨used, hd, hu⟩ := h.decoded
    exact ⟨used, hd, by rw [hu, hp, List.append_assoc]⟩
  position_eq := by
    simp only [h.encoding_eq, h.position_eq, Encoding.encodedLength_append, Nat.add_assoc]

/-! ## Units -/

theorem ensureUnits_stands (h : r.Stands content encoding offset given) :
    r.ensureUnits.2.Stands content encoding offset given := by
  unfold ensureUnits
  by_cases hp : r.pending = []
  · rw [if_pos (by simp [hp])]
    obtain ⟨used, hd, hu⟩ := h.decoded
    obtain ⟨passed, hc, hunits, hstands⟩ := Decoder.fillLoop_stands hd r.chunk []
    have hfilled : { r with
        decoder := (r.decoder.fill r.chunk).decoder
        pending := (r.decoder.fill r.chunk).units }.Stands content encoding offset given := by
      refine ⟨h.chunk, ⟨used ++ passed, hstands, ?_⟩, h.position_eq⟩
      rw [Encoding.decodeAll_append_of_complete hd.complete, WholeText.units_prepend, hu, hp,
        List.append_nil]
      exact congrArg (given ++ ·) hunits.symm
    simp only
    split
    · exact hfilled
    · exact hfilled
  · rw [if_neg (by simpa using hp)]
    exact h

/-- Nothing is decoded as long as units are held. -/
theorem ensureUnits_of_pending (hp : r.pending ≠ []) : r.ensureUnits = (.ok true, r) := by
  rw [ensureUnits, if_neg (by simpa using hp)]

theorem peekUnit_stands (h : r.Stands content encoding offset given) :
    r.peekUnit.2.Stands content encoding offset given := by
  have hn := ensureUnits_stands h
  unfold peekUnit
  split
  · next he => rw [he] at hn; exact hn
  · next he => rw [he] at hn; exact hn

/-- A look ahead shows the first of the units held. -/
theorem peekUnit_ok {outcome : Option UInt16} (hp : r.peekUnit = (.ok outcome, next)) :
    outcome = next.pending.head? := by
  unfold peekUnit at hp
  split at hp
  · cases hp
  · cases hp; rfl

theorem peekUnit_of_pending {unit : UInt16} {rest : List UInt16} (hp : r.pending = unit :: rest) :
    r.peekUnit = (.ok (some unit), r) := by
  rw [peekUnit, ensureUnits_of_pending (by simp [hp])]
  simp only [hp, List.head?_cons]

theorem nextUnit_of_pending {unit : UInt16} {rest : List UInt16} (hp : r.pending = unit :: rest) :
    r.nextUnit = (.ok (some unit),
      { r with pending := rest, position := r.position + r.encoding.byteLength unit }) := by
  rw [nextUnit, ensureUnits_of_pending (by simp [hp])]
  simp only [hp]

theorem nextUnit_stands (h : r.Stands content encoding offset given) :
    r.nextUnit.2.Stands content encoding offset (given ++ answered r.nextUnit.1) := by
  have hstands := ensureUnits_stands h
  unfold nextUnit
  split
  · next error next he =>
    rw [he] at hstands
    rw [answered, List.append_nil]
    exact hstands
  · next found next he =>
    have hn : next.Stands content encoding offset given := by
      rw [he] at hstands
      exact hstands
    split
    · rw [answered, List.append_nil]
      exact hn
    · next unit rest hp =>
      rw [← List.singleton_append] at hp
      have hgive := hn.give hp
      rw [Encoding.encodedLength_cons, Encoding.encodedLength_nil, Nat.add_zero] at hgive
      exact hgive

/-! ## Skipping -/

/-- A call that was to skip `wanted` more units, or more line ends, and had skipped `found` before,
has taken no more of them, `number` being how many there are in what is taken. If it succeeds, it
has counted them. -/
def Skips (number : List UInt16 → Nat) (content : List UInt8) (encoding : Encoding) (offset : Nat)
    (given : List UInt16) (wanted found : Nat) (result : Except AccessError Nat × TextReader) :
    Prop :=
  ∃ taken, result.2.Stands content encoding offset (given ++ taken) ∧ number taken ≤ wanted ∧
    ∀ passed, result.1 = .ok passed → passed = found + number taken

theorem Skips.behind {number : List UInt16 → Nat} {wanted found k : Nat}
    {result : Except AccessError Nat × TextReader} (hk : k ≤ wanted)
    (h : Skips number content encoding offset (given ++ more) (wanted - k) (found + k) result)
    (hnumber : ∀ taken, result.2.Stands content encoding offset (given ++ more ++ taken) →
      number (more ++ taken) = k + number taken) :
    Skips number content encoding offset given wanted found result := by
  obtain ⟨taken, hs, hle, hcount⟩ := h
  have hall := hnumber taken hs
  refine ⟨more ++ taken, ?_, ?_, ?_⟩
  · rw [← List.append_assoc]
    exact hs
  · omega
  · intro passed hpassed
    rw [hcount passed hpassed, hall, Nat.add_assoc]

/-- As many units are taken as are counted, and no more than wanted. -/
theorem skipUnitsFrom_stands (h : r.Stands content encoding offset given) (wanted skipped : Nat) :
    Skips List.length content encoding offset given wanted skipped
      (r.skipUnitsFrom wanted skipped) := by
  fun_induction skipUnitsFrom r wanted skipped generalizing given with
  | case1 r skipped =>
    refine ⟨[], h.stay, Nat.zero_le _, ?_⟩
    rintro passed ⟨⟩
    rfl
  | case2 r wanted skipped hw error next he =>
    have hn := ensureUnits_stands h
    rw [he] at hn
    refine ⟨[], hn.stay, Nat.zero_le _, ?_⟩
    rintro passed ⟨⟩
  | case3 r wanted skipped hw found next he hp =>
    have hn := ensureUnits_stands h
    rw [he] at hn
    refine ⟨[], hn.stay, Nat.zero_le _, ?_⟩
    rintro passed ⟨⟩
    rfl
  | case4 r wanted skipped hw found next he hp count front =>
    rename_i ih
    have hn : next.Stands content encoding offset given := by
      have hstands := ensureUnits_stands h
      rw [he] at hstands
      exact hstands
    have hfront : front.length = count := by
      rw [List.length_take]
      omega
    apply (ih (hn.give (List.take_append_drop count next.pending).symm)).behind (by omega)
    intro taken _
    rw [List.length_append, hfront]

theorem skipUnits_stands (h : r.Stands content encoding offset given) (count : Nat) :
    Skips List.length content encoding offset given count 0 (r.skipUnits count) :=
  skipUnitsFrom_stands h count 0

def feedOf : Except AccessError Bool → List UInt16
  | .ok true => [lineFeed]
  | .ok false | .error _ => []

theorem feedOf_paired (outcome : Except AccessError Bool) : Paired (feedOf outcome) := by
  match outcome with
  | .ok true => exact .one rfl rfl .nil
  | .ok false | .error _ => exact .nil

theorem finishLineEnd_stands (h : r.Stands content encoding offset given) :
    r.finishLineEnd.2.Stands content encoding offset (given ++ feedOf r.finishLineEnd.1) := by
  have hstands := peekUnit_stands h
  unfold finishLineEnd
  split
  · next error next he =>
    rw [he] at hstands
    rw [feedOf, List.append_nil]
    exact hstands
  · next outcome next he =>
    have hn : next.Stands content encoding offset given := by
      rw [he] at hstands
      exact hstands
    split
    · next hfeed =>
      have hhead := peekUnit_ok he
      rw [eq_of_beq hfeed, eq_comm, List.head?_eq_some_iff] at hhead
      obtain ⟨rest, hp⟩ := hhead
      have hlast := nextUnit_stands hn
      rw [nextUnit_of_pending hp] at hlast
      simp only [nextUnit_of_pending hp]
      exact hlast
    · rw [feedOf, List.append_nil]
      exact hn

structure Exhausted (r : TextReader) : Prop where
  pending_eq : r.pending = []
  finished : r.decoder.isFinished = true

theorem Exhausted.nextUnit_eq (h : r.Exhausted) : r.nextUnit = (.ok none, r) := by
  have hensure : r.ensureUnits = (.ok false, r) := by
    obtain ⟨decoder, chunk, position, pending, undelivered⟩ := r
    obtain rfl : pending = [] := h.pending_eq
    have hfill := Decoder.fill_of_finished (d := decoder) h.finished chunk
    simp only [ensureUnits, List.isEmpty_nil, if_true, hfill, Bool.not_true]
  simp only [nextUnit, hensure, h.pending_eq]

theorem Exhausted.skipLinesFrom_eq (h : r.Exhausted) (wanted found : Nat) :
    r.skipLinesFrom wanted found = (.ok found, r) := by
  by_cases hw : wanted = 0
  · rw [hw, skipLinesFrom, if_pos rfl]
  · rw [skipLinesFrom_of_ne hw, h.nextUnit_eq]

/-- If a look ahead finds no unit, none will come. -/
theorem peekUnit_none (hc : minChunk ≤ r.chunk) (h : r.peekUnit = (.ok none, next)) :
    next.Exhausted := by
  have hhead := peekUnit_ok h
  rw [eq_comm, List.head?_eq_none_iff] at hhead
  refine ⟨hhead, ?_⟩
  unfold peekUnit at h
  split at h
  · cases h
  next he =>
    obtain ⟨-, rfl⟩ := Prod.mk.inj h
    unfold ensureUnits at he
    by_cases hp : r.pending = []
    · rw [if_pos (by simp [hp])] at he
      simp only at he
      split at he
      · cases he
      · next hf =>
        cases he
        exact Decoder.fill_finished hc hf hhead
    · rw [if_neg (by simpa using hp)] at he
      cases he
      exact absurd hhead hp

/-- Where no line feed was found, something else comes next, or nothing. -/
theorem finishLineEnd_false (hc : minChunk ≤ r.chunk) (h : r.finishLineEnd = (.ok false, next)) :
    next.Exhausted ∨ ∃ unit, next.pending.head? = some unit ∧ unit ≠ lineFeed := by
  unfold finishLineEnd at h
  split at h
  · cases h
  next outcome ahead he =>
    split at h
    · split at h <;> cases h
    next hfeed =>
      cases h
      cases outcome with
      | none => exact .inl (peekUnit_none hc he)
      | some unit =>
        refine .inr ⟨unit, (peekUnit_ok he).symm, ?_⟩
        rintro rfl
        exact hfeed (beq_self_eq_true _)

theorem Stands.head_eq (h : r.Stands content encoding offset given)
    (h' : next.Stands content encoding offset (given ++ more)) {first unit : UInt16}
    (hp : r.pending.head? = some first) (hm : more.head? = some unit) : first = unit := by
  obtain ⟨rest, hp⟩ := List.head?_eq_some_iff.1 hp
  obtain ⟨rest', rfl⟩ := List.head?_eq_some_iff.1 hm
  obtain ⟨tail, htail⟩ := h.front
  obtain ⟨tail', htail'⟩ := h'.front
  rw [← htail', hp] at htail
  simp only [List.append_assoc, List.append_cancel_left_eq, List.cons_append] at htail
  exact (List.cons.inj htail).1

/-! ## Line ends -/

/-- What is counted are the line ends taken. -/
theorem skipLinesFrom_stands (h : r.Stands content encoding offset given) (wanted found : Nat) :
    Skips (lineEnds · none) content encoding offset given wanted found
      (r.skipLinesFrom wanted found) := by
  fun_induction skipLinesFrom r wanted found generalizing given with
  | case1 r found =>
    refine ⟨[], h.stay, Nat.zero_le _, ?_⟩
    rintro passed ⟨⟩
    rfl
  | case2 r wanted found hw error next hn =>
    have hs := nextUnit_stands h
    rw [hn] at hs
    refine ⟨[], hs, Nat.zero_le _, ?_⟩
    rintro passed ⟨⟩
  | case3 r wanted found hw next hn =>
    have hs := nextUnit_stands h
    rw [hn] at hs
    refine ⟨[], hs, Nat.zero_le _, ?_⟩
    rintro passed ⟨⟩
    rfl
  | case4 r wanted found hw unit next hn hfeed ih =>
    have hs := nextUnit_stands h
    rw [hn, eq_of_beq hfeed] at hs
    apply (ih hs).behind (Nat.pos_of_ne_zero hw)
    intro taken _
    exact lineEnds_cons_feed taken
  | case5 r wanted found hw unit next hn hfeed hreturn error last hf =>
    have hs := nextUnit_stands h
    rw [hn, eq_of_beq hreturn] at hs
    have hlast := finishLineEnd_stands hs
    rw [hf, feedOf, List.append_nil] at hlast
    refine ⟨[carriageReturn], hlast, Nat.pos_of_ne_zero hw, ?_⟩
    rintro passed ⟨⟩
  | case6 r wanted found hw unit next hn hfeed hreturn both last hf ih =>
    have hs := nextUnit_stands h
    rw [hn, eq_of_beq hreturn] at hs
    have hlast := finishLineEnd_stands hs
    rw [hf] at hlast
    cases both with
    | true =>
      rw [List.append_assoc] at hlast
      apply (ih hlast).behind (Nat.pos_of_ne_zero hw)
      intro taken _
      exact lineEnds_cons_pair taken
    | false =>
      rw [feedOf, List.append_nil] at hlast
      rcases finishLineEnd_false hs.chunk hf with hdone | ⟨first, hhead, hne⟩
      · rw [hdone.skipLinesFrom_eq]
        refine ⟨[carriageReturn], hlast, Nat.pos_of_ne_zero hw, ?_⟩
        rintro passed ⟨⟩
        rfl
      · apply (ih hlast).behind (Nat.pos_of_ne_zero hw)
        intro taken hend
        apply lineEnds_cons_return
        -- no line feed can have been taken behind the carriage return
        intro htaken
        exact hne (hlast.head_eq hend hhead htaken)
  | case7 r wanted found hw unit next hn hfeed hreturn ih =>
    have hs := nextUnit_stands h
    rw [hn] at hs
    simp only [beq_iff_eq] at hfeed hreturn
    apply (ih hs).behind (Nat.zero_le wanted)
    intro taken _
    rw [Nat.zero_add]
    exact lineEnds_cons_inside hfeed hreturn taken

theorem skipLines_stands (h : r.Stands content encoding offset given) (count : Nat) :
    Skips (lineEnds · none) content encoding offset given count 0 (r.skipLines count) :=
  skipLinesFrom_stands h count 0

/-! ## Characters and lines -/

/-- The units of the character are taken. Both halves of a pair are there at once. -/
theorem readChar_stands (h : r.Stands content encoding offset given)
    {outcome : Except AccessError (Option Char)} (hr : r.readChar = (outcome, next)) :
    ∃ taken, next.Stands content encoding offset (given ++ taken) ∧
      (∀ more, CodeUnit.toChars (taken ++ more) = answered outcome ++ CodeUnit.toChars more) ∧
      (Paired given → Paired taken) := by
  have hstands := nextUnit_stands h
  unfold readChar at hr
  split at hr
  · next error last hn =>
    rw [hn] at hstands
    cases hr
    exact ⟨[], hstands, fun _ => rfl, fun _ => .nil⟩
  · next last hn =>
    rw [hn] at hstands
    cases hr
    exact ⟨[], hstands, fun _ => rfl, fun _ => .nil⟩
  next unit ahead hn =>
  have hs : ahead.Stands content encoding offset (given ++ [unit]) := by
    rw [hn] at hstands
    exact hstands
  have hpaired := hs.paired
  rw [List.append_assoc] at hpaired
  by_cases hhigh : CodeUnit.isHighSurrogate unit = true
  · obtain ⟨low, rest, hp, hlow⟩ := hpaired.low_of_high hhigh
    have hlast := nextUnit_stands hs
    rw [nextUnit_of_pending hp, List.append_assoc] at hlast
    simp only [hhigh, if_true, peekUnit_of_pending hp, nextUnit_of_pending hp, hlow] at hr
    cases hr
    exact ⟨[unit, low], hlast, fun more => CodeUnit.toChars_pair hhigh hlow more,
      fun _ => .pair hhigh hlow .nil⟩
  · rw [if_neg hhigh] at hr
    cases hr
    rw [Bool.not_eq_true] at hhigh
    refine ⟨[unit], hs, fun more => CodeUnit.toChars_unit hhigh more, ?_⟩
    intro hg
    exact .one hhigh ((hg.behind hpaired).head_not_low unit rfl) .nil

/-- The characters behind `found` are those of the units taken, which are whole characters if
those before them are. -/
theorem readLineFrom_stands (h : r.Stands content encoding offset given) (found : List Char) :
    ∃ taken, (r.readLineFrom found).reader.Stands content encoding offset (given ++ taken) ∧
      (r.readLineFrom found).text = found.reverse ++ CodeUnit.toChars taken ∧
      (Paired given → Paired taken) := by
  fun_induction readLineFrom r found generalizing given with
  | case1 r found error next hread | case2 r found next hread =>
    obtain ⟨taken, hs, hchars, hwhole⟩ := readChar_stands h hread
    have hnone := hchars []
    rw [List.append_nil] at hnone
    refine ⟨taken, hs, ?_, hwhole⟩
    rw [hnone]
    exact (List.append_nil _).symm
  | case3 r found c next hread hfeed =>
    obtain ⟨taken, hs, hchars, hwhole⟩ := readChar_stands h hread
    have hone := hchars []
    rw [List.append_nil] at hone
    refine ⟨taken, hs, ?_, hwhole⟩
    rw [hone, List.reverse_cons]
    rfl
  | case4 r found c next hread hfeed hreturn error last hf
  | case6 r found c next hread hfeed hreturn last hf =>
    obtain ⟨taken, hs, hchars, hwhole⟩ := readChar_stands h hread
    have hlast := finishLineEnd_stands hs
    rw [hf, List.append_assoc] at hlast
    refine ⟨_, hlast, ?_, fun hg => (hwhole hg).append (feedOf_paired _)⟩
    rw [hchars, List.reverse_cons]
    rfl
  | case5 r found c next hread hfeed hreturn last hf =>
    obtain ⟨taken, hs, hchars, hwhole⟩ := readChar_stands h hread
    have hlast := finishLineEnd_stands hs
    rw [hf, List.append_assoc] at hlast
    refine ⟨_, hlast, ?_, fun hg => (hwhole hg).append (feedOf_paired _)⟩
    rw [hchars, List.reverse_cons, List.reverse_cons, List.append_assoc]
    rfl
  | case7 r found c next hread hfeed hreturn ih =>
    obtain ⟨taken, hs, hchars, hwhole⟩ := readChar_stands h hread
    obtain ⟨more, hmore, htext, hwhole'⟩ := ih hs
    rw [List.append_assoc] at hmore
    refine ⟨_, hmore, ?_, ?_⟩
    · rw [htext, hchars, List.reverse_cons, List.append_assoc]
      rfl
    · intro hg
      exact (hwhole hg).append (hwhole' (hg.append (hwhole hg)))

/-- What is read are the characters of the units taken, also if the line is cut short. From
the start of a character on, it is what the bytes that were passed encode. -/
theorem readLine_stands (h : r.Stands content encoding offset given) :
    ∃ taken, r.readLine.reader.Stands content encoding offset (given ++ taken) ∧
      r.readLine.text = CodeUnit.toChars taken ∧
      (Paired given → encoding.encode? r.readLine.text = some
        ((content.drop (r.position - offset)).take (r.readLine.reader.position - r.position))) := by
  obtain ⟨taken, hs, htext, hwhole⟩ := readLineFrom_stands h []
  refine ⟨taken, hs, htext, ?_⟩
  intro hg
  have hwritten := h.written hs hg (hwhole hg)
  rwa [← List.nil_append (CodeUnit.toChars taken), ← List.reverse_nil, ← htext] at hwritten

end TextReader
end TextSeek

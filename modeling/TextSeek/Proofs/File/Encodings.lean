import TextSeek.Proofs.File.Built
import TextSeek.Proofs.File.LineText
import TextSeek.Proofs.File.Locality
import TextSeek.Proofs.Index.ByteOrder

/-!
# One text in several encodings

Files of one text answer alike, whatever their encodings. Their indexes differ, since a
partition is granted entries by its bytes, and entries hold bytes. What is counted are units
and lines, though, and a lookup ends at a unit. So the files have as many characters and lines,
the same lines, and find each target at a byte from which they go on to read the same text.

A target may be the second half of a pair. It has no byte of its own, and is found at the one
behind its pair: a lookup still gives it as the next unit, and a reader opened at the byte goes
on with the character behind it (`characterFrom`).

Results:
* `Matches.readerAtByte_behind`: what is read from the byte at which a target was found.
* `Matches.resolves`: a target, its byte, and the text from there on.
* `encodings_agree`: the indexes and the answers of files of one text.
-/
namespace TextSeek

/-- The first unit from `start` on that can be read from its byte on. -/
def characterFrom (units : List UInt16) (start : Nat) : Nat :=
  if units[start]?.any CodeUnit.isLowSurrogate then start + 1 else start

theorem characterFrom_cases (units : List UInt16) (start : Nat) :
    (∃ low, units[start]? = some low ∧ CodeUnit.isLowSurrogate low = true ∧
      characterFrom units start = start + 1) ∨
    (∀ unit, units[start]? = some unit → CodeUnit.isLowSurrogate unit = false) ∧
      characterFrom units start = start := by
  unfold characterFrom
  cases hu : units[start]? with
  | none => exact .inr ⟨fun unit h => (nomatch h), rfl⟩
  | some unit =>
    cases hlow : CodeUnit.isLowSurrogate unit with
    | true => exact .inl ⟨unit, rfl, hlow, if_pos hlow⟩
    | false =>
      refine .inr ⟨?_, if_neg (by simp [hlow])⟩
      rintro _ ⟨⟩
      exact hlow

theorem characterFrom_le {units : List UInt16} {start : Nat} (h : start ≤ units.length) :
    characterFrom units start ≤ units.length := by
  obtain ⟨low, hu, -, hfrom⟩ | ⟨-, hfrom⟩ := characterFrom_cases units start
  · rw [hfrom]
    exact (List.getElem?_eq_some_iff.1 hu).1
  · rw [hfrom]
    exact h

/-- Behind the second half of a pair stands no other one. -/
theorem Paired.characterFrom_not_low {units : List UInt16} (h : Paired units) {start : Nat}
    {unit : UInt16} (hu : units[characterFrom units start]? = some unit) :
    CodeUnit.isLowSurrogate unit = false := by
  obtain ⟨low, hstart, hlow, hfrom⟩ | ⟨hnot, hfrom⟩ := characterFrom_cases units start
  · rw [hfrom] at hu
    obtain ⟨hlt, hget⟩ := List.getElem?_eq_some_iff.1 hu
    rw [← List.take_append_drop (start + 1) units, List.drop_eq_getElem_cons hlt, hget] at h
    rw [← Bool.not_eq_true]
    intro hunit
    -- the unit in front would have to be the first half of its pair
    obtain ⟨high, hlast, hhigh⟩ := h.exists_high hunit
    rw [List.getLast?_take, if_neg (Nat.succ_ne_zero start), Nat.add_sub_cancel, hstart,
      Option.some_or, Option.some.injEq] at hlast
    rw [hlast, CodeUnit.isLowSurrogate_eq_false_of_high hhigh] at hlow
    cases hlow
  · rw [hfrom] at hu
    exact hnot unit hu

namespace IndexedFile

variable {f g : IndexedFile} {content content' : List UInt8} {target : Target} {start : Nat}

/-! ## One file -/

/-- The second half of a pair is said to stand where the next character does. -/
theorem byteOf_characterFrom (f : IndexedFile) (content : List UInt8) (start : Nat) :
    f.byteOf content (characterFrom (f.decoded content).units start) = f.byteOf content start := by
  obtain ⟨low, hstart, hlow, hfrom⟩ | ⟨-, hfrom⟩ :=
    characterFrom_cases (f.decoded content).units start
  · obtain ⟨hlt, hget⟩ := List.getElem?_eq_some_iff.1 hstart
    have hbytes : f.encoding.byteLength low = 0 :=
      Encoding.byteLength_of_low (List.mem_of_getElem? hstart) hlow
    rw [hfrom, byteOf_add, List.drop_eq_getElem_cons hlt, hget, List.take_succ_cons,
      List.take_zero, Encoding.encodedLength_cons, hbytes]
    rfl
  · rw [hfrom]

/-- From the byte of a unit on, or of the end of the text, a file holds the characters that
come next. -/
theorem decodeAll_characterFrom (f : IndexedFile) (content : List UInt8)
    (hle : start ≤ (f.decoded content).units.length) :
    f.encoding.decodeAll (content.drop (f.byteOf content start)) =
      (f.decoded content).behind f.encoding
        (characterFrom (f.decoded content).units start) := by
  have hdrop := f.encoding.decodeAll_drop (content.drop f.index.dataStart) _
    (characterFrom_le hle) fun unit hu => (f.decoded_paired content).characterFrom_not_low hu
  rw [List.drop_drop] at hdrop
  rw [← byteOf_characterFrom]
  exact hdrop

theorem Matches.readerAtByte_behind (hf : f.Matches content)
    (hl : content.length < Source.offsetLimit)
    (hle : start ≤ (f.decoded content).units.length) (buffer : Nat) :
    ∃ r, f.readerAtByte (.ofFile content) (f.byteOf content start) buffer = .ok r ∧
      r.position = f.byteOf content start ∧
      r.readUnits = ((f.decoded content).units.drop
        (characterFrom (f.decoded content).units start), none) := by
  have hlength := hf.byteOf_le_length start
  obtain ⟨r, hopen, hshows, hpos⟩ := openAt_ofFile (Nat.lt_of_le_of_lt hlength hl) content
    f.encoding buffer
  rw [f.decodeAll_characterFrom content hle] at hshows
  refine ⟨r, ?_, hpos, hf.readUnits_eq hshows⟩
  rw [readerAtByte, if_neg (by rw [hf.size_eq]; omega), hopen]

/-- A file of the text `units` finds a target, which starts at the unit `start`, at the byte
`position`. A reader at the target gives the text from that unit on, and a reader at the byte
gives it from the next character on. -/
structure Resolves (f : IndexedFile) (content : List UInt8) (units : List UInt16)
    (target : Target) (start position : Nat) : Prop where
  positionOf_eq : f.positionOf (.ofFile content) target = .ok position
  readerAt_eq : ∀ buffer, ∃ r, f.readerAt (.ofFile content) target buffer = .ok r ∧
    r.position = position ∧ r.readUnits = (units.drop start, none)
  readerAtByte_eq : ∀ buffer, ∃ r, f.readerAtByte (.ofFile content) position buffer = .ok r ∧
    r.position = position ∧ r.readUnits = (units.drop (characterFrom units start), none)

theorem Matches.resolves (hf : f.Matches content) (hl : content.length < Source.offsetLimit)
    (hs : target.start? (f.decoded content).units = some start) :
    f.Resolves content (f.decoded content).units target start (f.byteOf content start) where
  positionOf_eq := hf.positionOf_eq hs
  readerAt_eq := hf.readerAt_eq hs
  readerAtByte_eq := hf.readerAtByte_behind hl (Nat.le_of_lt (Target.start?_lt hs))

/-! ## Two files -/

/-- Two files that were indexed hold the same text. -/
structure SameText (f : IndexedFile) (content : List UInt8) (g : IndexedFile)
    (content' : List UInt8) : Prop where
  left : f.Matches content
  right : g.Matches content'
  units_eq : (f.decoded content).units = (g.decoded content').units

theorem SameText.count_eq (h : f.SameText content g content') (target : Target) :
    f.count target = g.count target := by
  rw [h.left.count_eq, h.right.count_eq, h.units_eq]

theorem SameText.lineText_eq (h : f.SameText content g content') (n : Nat) :
    f.lineText (.ofFile content) n = g.lineText (.ofFile content') n := by
  obtain ⟨lines, hlines, hu, -⟩ := h.left.exists_lines
  rw [h.left.lineText_lines hlines hu]
  rw [h.units_eq] at hu
  exact (h.right.lineText_lines hlines hu n).symm

/-- A file is indexed as the text that it was written from. -/
theorem build_written {config : Config} (path : String) (hv : config.fault? = none)
    (hh : config.headerSkip = 0) {encoding : Encoding} {text : List Char} {bytes : List UInt8}
    (hw : encoding.encode? text = some bytes) (hl : bytes.length ≤ Source.offsetLimit) :
    ∃ f, build path encoding config (.ok (.file bytes)) = .ok f ∧ f.Matches bytes ∧
      (f.decoded bytes).units = text.flatMap CodeUnit.ofChar := by
  have hdecoded := Encoding.decodeAll_of_encode hw
  obtain ⟨f, hb, hf, rfl, hstart⟩ := build_matches path encoding hv (hh ▸ Nat.zero_le _) hl
    (by rw [hh, List.drop_zero, hdecoded])
  exact ⟨f, hb, hf, by rw [decoded, hstart, hh, List.drop_zero, hdecoded]⟩

/-- A text, and a configuration without a header. The text can be written in UTF-8 and in
either order of UTF-16, and in the two orders it has one index. In any two encodings that can
write it, its files have as many characters and as many lines, answer with the same lines, and
find each target at bytes from which they read the same text to its end. -/
theorem encodings_agree {config : Config} (path : String) (text : List Char)
    (hv : config.fault? = none) (hh : config.headerSkip = 0) :
    (∀ encoding ∈ [Encoding.utf8, .utf16le, .utf16be],
      ∃ bytes, encoding.encode? text = some bytes) ∧
    (∀ little big source source', Encoding.utf16le.encode? text = some little →
      Encoding.utf16be.encode? text = some big → source.Brings little 0 →
      source'.Brings big 0 →
      ∃ index, buildIndex config .utf16le source = .ok index ∧
        buildIndex config .utf16be source' = .ok index) ∧
    ∀ encoding encoding' bytes bytes', encoding.encode? text = some bytes →
      encoding'.encode? text = some bytes' → bytes.length < Source.offsetLimit →
      bytes'.length < Source.offsetLimit →
      ∃ f g, build path encoding config (.ok (.file bytes)) = .ok f ∧
        build path encoding' config (.ok (.file bytes')) = .ok g ∧
        (∀ target, f.count target = g.count target) ∧
        (∀ n, f.lineText (.ofFile bytes) n = g.lineText (.ofFile bytes') n) ∧
        ∀ target, target.number < f.count target → ∃ start position position',
          target.start? (text.flatMap CodeUnit.ofChar) = some start ∧
          f.Resolves bytes (text.flatMap CodeUnit.ofChar) target start position ∧
          g.Resolves bytes' (text.flatMap CodeUnit.ofChar) target start position' := by
  refine ⟨?_, ?_, ?_⟩
  · intro encoding hmem
    rw [Encoding.exists_encode_iff]
    intro c _
    simp only [List.mem_cons, List.not_mem_nil, or_false] at hmem
    rcases hmem with rfl | rfl | rfl <;> rfl
  · intro little big source source' hle hbe hs hs'
    exact buildIndexBy_utf16 Budget.share hv hh hle hbe hs hs'
  · intro encoding encoding' bytes bytes' hw hw' hl hl'
    obtain ⟨f, hf, hmatches, hunits⟩ := build_written path hv hh hw (Nat.le_of_lt hl)
    obtain ⟨g, hg, hmatches', hunits'⟩ := build_written path hv hh hw' (Nat.le_of_lt hl')
    have hsame : f.SameText bytes g bytes' := ⟨hmatches, hmatches', hunits.trans hunits'.symm⟩
    refine ⟨f, g, hf, hg, hsame.count_eq, hsame.lineText_eq, ?_⟩
    intro target hnumber
    rw [hmatches.count_eq] at hnumber
    obtain ⟨start, hs⟩ := Target.start?_isSome hnumber
    have hresolves := hmatches.resolves hl hs
    rw [hsame.units_eq] at hs
    have hresolves' := hmatches'.resolves hl' hs
    rw [hunits] at hresolves
    rw [hunits'] at hs hresolves'
    exact ⟨start, _, _, hs, hresolves, hresolves'⟩

/-- A pair, and a line end of two units: one index for either order of UTF-16, and two files
in which the second half of the pair is a target. -/
theorem encodings_agree_pair :
    let little := [0x61, 0x00, 0x3D, 0xD8, 0x00, 0xDE, 0x0D, 0x00, 0x0A, 0x00, 0x62, 0x00]
    let big := [0x00, 0x61, 0xD8, 0x3D, 0xDE, 0x00, 0x00, 0x0D, 0x00, 0x0A, 0x00, 0x62]
    let utf8 := [0x61, 0xF0, 0x9F, 0x98, 0x80, 0x0D, 0x0A, 0x62]
    (∃ index, buildIndex {} .utf16le (.ofFile little) = .ok index ∧
      buildIndex {} .utf16be (.ofMap big) = .ok index) ∧
    ∃ f g, build "notes.txt" .utf8 {} (.ok (.file utf8)) = .ok f ∧
      build "notes.txt" .utf16be {} (.ok (.file big)) = .ok g ∧
      (∀ n, f.lineText (.ofFile utf8) n = g.lineText (.ofFile big) n) ∧
      ∃ position position',
        f.Resolves utf8 [0x61, 0xD83D, 0xDE00, 0x0D, 0x0A, 0x62] (.character 2) 2 position ∧
        g.Resolves big [0x61, 0xD83D, 0xDE00, 0x0D, 0x0A, 0x62] (.character 2) 2 position' := by
  intro little big utf8
  have hvalid : ({} : Config).fault? = none := by decide
  have hlittle : Encoding.utf16le.encode? ['a', '😀', '\r', '\n', 'b'] = some little := by decide
  have hbig : Encoding.utf16be.encode? ['a', '😀', '\r', '\n', 'b'] = some big := by decide
  have hutf8 : Encoding.utf8.encode? ['a', '😀', '\r', '\n', 'b'] = some utf8 := by decide
  have hunits : ['a', '😀', '\r', '\n', 'b'].flatMap CodeUnit.ofChar =
      [0x61, 0xD83D, 0xDE00, 0x0D, 0x0A, 0x62] := by decide
  have hl : utf8.length < Source.offsetLimit := by decide
  obtain ⟨-, hindex, hfiles⟩ :=
    encodings_agree "notes.txt" ['a', '😀', '\r', '\n', 'b'] hvalid rfl
  obtain ⟨f, g, hf, hg, -, hlines, hfind⟩ :=
    hfiles .utf8 .utf16be utf8 big hutf8 hbig hl (by decide)
  have hcount : f.count (.character 2) = 6 := by
    obtain ⟨f', hf', hmatches, hdecoded⟩ :=
      build_written "notes.txt" hvalid rfl hutf8 (Nat.le_of_lt hl)
    obtain rfl : f = f' := Except.ok.inj (hf.symm.trans hf')
    rw [hmatches.count_eq, hdecoded, hunits]
    rfl
  obtain ⟨start, position, position', hs, hresolves, hresolves'⟩ :=
    hfind (.character 2) (by rw [hcount]; decide)
  rw [hunits] at hs hresolves hresolves'
  cases hs
  exact ⟨hindex little big _ _ hlittle hbig (Source.ofFile_brings (by decide) 0)
    (Source.ofMap_brings big 0), f, g, hf, hg, hlines, position, position', hresolves, hresolves'⟩

end IndexedFile
end TextSeek

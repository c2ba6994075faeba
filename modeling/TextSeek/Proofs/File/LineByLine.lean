import TextSeek.Proofs.File.Built
import TextSeek.Proofs.File.LineText
import TextSeek.Proofs.Text.Passages

/-!
# Reading a file line by line

The reader of an unchanged file finds the ends of lines by itself, character by character,
and the index has found them in the units of whole windows. Both cut the text into the same
lines: read from one line on, each call gives the next line with its end, between the bytes
at which the index says that it and the line behind it start.

Results:
* `Splits.encode_lines`: the bytes of some lines.
* `Splits.readerAt_line`: where a reader stands when it has read some lines.
* `lines_read`: all lines from one of them on.
-/
namespace TextSeek.IndexedFile

variable {f : IndexedFile} {content : List UInt8} {lines : List Line} {r : TextReader}

/-- The file was indexed when it had the bytes `content`, which are made of `lines`. -/
structure Splits (f : IndexedFile) (content : List UInt8) (lines : List Line) : Prop where
  matched : f.Matches content
  delimited : Delimited lines
  units_eq : (f.decoded content).units = unitsOf lines
  written : f.encoding.encode? (writtenLines lines) = some (content.drop f.index.dataStart)

/-- The byte behind the first `n` lines. -/
def byteBehind (f : IndexedFile) (lines : List Line) (n : Nat) : Nat :=
  f.index.dataStart + f.encoding.encodedLength (unitsOf (lines.take n))

theorem byteBehind_add (f : IndexedFile) (lines : List Line) (n count : Nat) :
    f.byteBehind lines (n + count) =
      f.byteBehind lines n + f.encoding.encodedLength (unitsOf ((lines.drop n).take count)) := by
  rw [byteBehind, List.take_add, unitsOf_append, Encoding.encodedLength_append, ← Nat.add_assoc]
  rfl

theorem Splits.totalLines_eq (h : f.Splits content lines) : f.index.totalLines = lines.length := by
  rw [h.matched.describes.totalLines_eq, h.units_eq, h.delimited.lineStarts_length]

theorem Splits.byteBehind_eq (h : f.Splits content lines) (n : Nat) :
    f.byteOf content (unitsOf (lines.take n)).length = f.byteBehind lines n := by
  rw [byteOf, h.units_eq, take_unitsOf]
  rfl

theorem Matches.dataEnd_eq (hf : f.Matches content) : f.index.dataEnd = content.length := by
  have hall := f.encoding.decodeAll_encodedLength (content.drop f.index.dataStart)
  rw [Encoding.consumed_of_complete hf.complete, List.length_drop] at hall
  have hle := hf.start_le
  rw [hf.describes.dataEnd_eq, decoded, hall]
  omega

theorem Splits.byteBehind_end (h : f.Splits content lines) {n : Nat} (hn : lines.length ≤ n) :
    f.byteBehind lines n = f.index.dataEnd := by
  rw [byteBehind, List.take_of_length_le hn, h.matched.describes.dataEnd_eq, h.units_eq]

theorem Splits.encode_lines (h : f.Splits content lines) (n count : Nat) :
    f.encoding.encode? (writtenLines ((lines.drop n).take count)) =
      some ((content.drop (f.byteBehind lines n)).take
        (f.byteBehind lines (n + count) - f.byteBehind lines n)) := by
  have hparts : writtenLines (lines.take n) ++ writtenLines ((lines.drop n).take count) ++
      writtenLines (lines.drop (n + count)) = writtenLines lines := by
    rw [← writtenLines_append, ← List.take_add, ← writtenLines_append, List.take_append_drop]
  have hbytes := h.written
  rw [← hparts] at hbytes
  rw [Encoding.encode_between hbytes, ← unitsOf_eq, ← unitsOf_eq, List.drop_drop, byteBehind_add,
    Nat.add_sub_cancel_left]
  rfl

theorem Splits.start?_eq (h : f.Splits content lines) {n : Nat} (hn : n < lines.length) :
    (Target.line n).start? (f.decoded content).units =
      some (unitsOf (lines.take n)).length := by
  rw [h.units_eq]
  exact h.delimited.lineStarts_getElem? hn

/-- A reader that was opened at a line stands, when some lines have been read, behind as many
more, and reads the next one. -/
theorem Splits.readerAt_line (h : f.Splits content lines) {n : Nat} (hn : n < lines.length)
    (buffer : Nat) : ∃ r, f.readerAt (.ofFile content) (.line n) buffer = .ok r ∧
      ∀ count, (r.afterLines count).position = f.byteBehind lines (n + count) ∧
        (r.afterLines count).readLine =
          ⟨writtenLines ((lines.drop (n + count)).take 1), none, r.afterLines (count + 1)⟩ := by
  have hs := h.start?_eq hn
  have hrange := (f.checkRange_iff (.line n)).2 (by
    rw [h.matched.count_eq]
    exact Target.number_lt hs)
  obtain ⟨r, hseek, hshows, hpos⟩ := h.matched.seek_shows hs buffer
  have hunits : ((f.decoded content).behind f.encoding (unitsOf (lines.take n)).length).units =
      unitsOf (lines.drop n) :=
    TextReader.behind_lines h.units_eq n
  have hdelimited := h.delimited.drop n
  refine ⟨r, by simp only [readerAt, hrange, bind, Except.bind, hseek], ?_⟩
  intro count
  have hmoves := TextReader.afterLines_moves hshows h.matched.complete hdelimited hunits count
  have hread := TextReader.readLine_afterLines hshows h.matched.complete hdelimited hunits count
  rw [List.drop_drop] at hread
  refine ⟨?_, hread⟩
  rw [hmoves.position_eq, hunits, take_unitsOf, hpos, h.byteBehind_eq, byteBehind_add]

/-! ## All lines -/

theorem build_splits {config : Config} {path : String} {encoding : Encoding}
    (hl : content.length ≤ Source.offsetLimit)
    (hb : build path encoding config (.ok (.file content)) = .ok f) :
    f.encoding = encoding ∧ ∃ lines, f.Splits content lines := by
  obtain ⟨hf, hencoding, -⟩ := build_matched hl hb
  obtain ⟨lines, hlines, hu, hw⟩ := hf.exists_lines
  exact ⟨hencoding, lines, hf, hlines, hu, hw⟩

/-- The byte at which the index says that a line starts, or that the text ends. -/
def lineBound (f : IndexedFile) (file : Source) (n : Nat) : Except AccessError Nat :=
  if n < f.index.totalLines then f.positionOf file (.line n) else .ok f.index.dataEnd

theorem Splits.lineBound_eq (h : f.Splits content lines) (n : Nat) :
    f.lineBound (.ofFile content) n = .ok (f.byteBehind lines n) := by
  unfold lineBound
  by_cases hn : n < lines.length
  · rw [if_pos (by rw [h.totalLines_eq]; exact hn), h.matched.positionOf_eq (h.start?_eq hn),
      h.byteBehind_eq]
  · rw [if_neg (by rw [h.totalLines_eq]; exact hn), h.byteBehind_end (Nat.le_of_not_lt hn)]

theorem writtenLines_range (lines : List Line) (n count : Nat) :
    ((List.range count).flatMap fun i => writtenLines ((lines.drop (n + i)).take 1)) =
      writtenLines ((lines.drop n).take count) := by
  induction count with
  | zero => rfl
  | succ count ih =>
    rw [List.range_succ, List.flatMap_append, ih, List.flatMap_singleton, List.take_add,
      List.drop_drop, writtenLines_append]

/-- From any line of an unchanged file on, the calls that read a line give the lines one after the
other, as many as are left, and then nothing. Each line is given with its end, as it is written
between the bytes at which it starts and ends, and together they are the text that is left. -/
theorem lines_read {config : Config} {path : String} {encoding : Encoding}
    (hl : content.length ≤ Source.offsetLimit)
    (hb : build path encoding config (.ok (.file content)) = .ok f) {n : Nat}
    (hn : n < f.index.totalLines) (buffer : Nat) :
    let file := Source.ofFile content
    ∃ r start, f.readerAt file (.line n) buffer = .ok r ∧
      f.positionOf file (.line n) = .ok start ∧
      (∀ i, n + i < f.index.totalLines → ∃ text front back,
        (r.afterLines i).readLine = ⟨text, none, r.afterLines (i + 1)⟩ ∧ text ≠ [] ∧
        f.positionOf file (.line (n + i)) = .ok front ∧ (r.afterLines i).position = front ∧
        f.lineBound file (n + i + 1) = .ok back ∧ (r.afterLines (i + 1)).position = back ∧
        encoding.encode? text = some ((content.drop front).take (back - front))) ∧
      (∀ i, f.index.totalLines ≤ n + i →
        (r.afterLines i).readLine = ⟨[], none, r.afterLines (i + 1)⟩ ∧
        (r.afterLines (i + 1)).position = f.index.dataEnd) ∧
      encoding.encode? ((List.range (f.index.totalLines - n)).flatMap
        fun i => (r.afterLines i).readLine.text) = some (content.drop start) := by
  intro file
  obtain ⟨rfl, lines, h⟩ := build_splits hl hb
  have htotal := h.totalLines_eq
  obtain ⟨r, hr, hlines⟩ := h.readerAt_line (htotal ▸ hn) buffer
  refine ⟨r, f.byteBehind lines n, hr, ?_, ?_, ?_, ?_⟩
  · rw [← h.lineBound_eq, lineBound, if_pos hn]
  · intro i hi
    refine ⟨_, f.byteBehind lines (n + i), f.byteBehind lines (n + i + 1), (hlines i).2, ?_, ?_,
      (hlines i).1, h.lineBound_eq _, (hlines (i + 1)).1, h.encode_lines (n + i) 1⟩
    · have hdelimited := h.delimited.drop (n + i)
      rw [List.drop_eq_getElem_cons (htotal ▸ hi)] at hdelimited ⊢
      rw [List.take_succ_cons, List.take_zero, writtenLines, List.flatMap_singleton]
      exact hdelimited.written_ne_nil
    · rw [← h.lineBound_eq, lineBound, if_pos hi]
  · intro i hi
    rw [htotal] at hi
    refine ⟨?_, ?_⟩
    · rw [(hlines i).2, List.drop_of_length_le hi]
      rfl
    · rw [(hlines (i + 1)).1, h.byteBehind_end (by omega)]
  · have htexts : (fun i => (r.afterLines i).readLine.text) =
        fun i => writtenLines ((lines.drop (n + i)).take 1) := by
      funext i
      rw [(hlines i).2]
    rw [htexts, writtenLines_range, h.encode_lines, h.byteBehind_end (by omega),
      h.matched.dataEnd_eq, List.take_of_length_le (by rw [List.length_drop])]

/-- A pair of line end characters, an empty line that ends with a carriage return, one that ends
with a line feed, and a last line without an end. -/
theorem lines_read_mixed :
    ∃ f, build "notes.txt" .utf8 { maxLineEntries := 1, partitionUnits := 2, readerBuffer := 0 }
        (.ok (.file [0x61, 0x0D, 0x0A, 0x0D, 0x62, 0x0A, 0x0A, 0xC3, 0xA9])) = .ok f ∧
      let file := Source.ofFile [0x61, 0x0D, 0x0A, 0x0D, 0x62, 0x0A, 0x0A, 0xC3, 0xA9]
      f.index.totalLines = 5 ∧ ∃ r, f.readerAt file (.line 1) 0 = .ok r ∧
        ((List.range 4).flatMap fun i => (r.afterLines i).readLine.text) =
          ['\r', 'b', '\n', '\n', 'é'] ∧
        (r.afterLines 4).readLine.text = [] := by
  have hvalid : ({ maxLineEntries := 1, partitionUnits := 2, readerBuffer := 0 } :
      Config).fault? = none := by decide
  let text : WholeText := ⟨[0x61, 0x0D, 0x0A, 0x0D, 0x62, 0x0A, 0x0A, 0xE9], 9, .complete⟩
  have hdecode : Encoding.utf8.decodeAll [0x61, 0x0D, 0x0A, 0x0D, 0x62, 0x0A, 0x0A, 0xC3, 0xA9] =
      text := by decide +kernel
  have hsecond : (Target.line 1).start? text.units = some 3 := by decide
  obtain ⟨f, hb, -, -, hcount, hdecoded, hbyte⟩ :=
    build_plain "notes.txt" hvalid rfl (by decide) hdecode rfl
  have htotal : f.index.totalLines = 5 := hcount (.line 0)
  rw [← hdecoded] at hsecond
  have hplace := (build_matched (by decide) hb).1.positionOf_eq hsecond
  rw [hbyte] at hplace
  have hline : 1 < f.index.totalLines := by
    rw [htotal]
    decide
  obtain ⟨r, start, hr, hstart, -, hend, htexts⟩ := lines_read (by decide) hb hline 0
  obtain rfl : _ = start := Except.ok.inj (hplace.symm.trans hstart)
  rw [htotal] at htexts hend
  have hwritten : Encoding.utf8.encode? ['\r', 'b', '\n', '\n', 'é'] =
      some [0x0D, 0x62, 0x0A, 0x0A, 0xC3, 0xA9] := by decide +kernel
  exact ⟨f, hb, htotal, r, hr, Encoding.encode_inj htexts hwritten, by rw [(hend 4 (by decide)).1]⟩

end TextSeek.IndexedFile

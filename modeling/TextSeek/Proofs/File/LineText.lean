import TextSeek.Proofs.File.Lookup
import TextSeek.Proofs.Reader.LineReading
import TextSeek.Proofs.Text.RoundTrip

/-!
# The lines of a file

A file that was put together from lines has these lines, whichever ends they have:
their number and their texts do not tell which ones were chosen. The encoding, the
sizes of partitions and buffers, and which lines are indexed do not show either.

Results:
* `trimLineEnds_written`: the end of a line is cut off, and nothing else.
* `Matches.lineText_eq`, `Matches.lineText_lines`: the lines of an unchanged file.
* `lines_of_delimited`: all lines of a file that was put together from them.
-/
namespace TextSeek.IndexedFile

theorem trimLineEnds_written (line : Line) : trimLineEnds line.written = line.text := by
  have hends : ∀ c ∈ line.endChars.reverse, (c == '\n' || c == '\r') = true := by
    rw [Line.endChars]
    cases line.ending with
    | none => simp
    | some ending => cases ending <;> simp [LineEnd.chars]
  have htext : line.text.reverse.dropWhile (fun c => c == '\n' || c == '\r') =
      line.text.reverse := by
    cases hlast : line.text.reverse with
    | nil => rfl
    | cons c front =>
      obtain ⟨hn, hr⟩ := line.inline c (List.mem_reverse.1 (hlast ▸ List.mem_cons_self))
      exact List.dropWhile_cons_of_neg (by simp [hn, hr])
  rw [trimLineEnds, Line.written, List.reverse_append, List.dropWhile_append_of_pos hends, htext,
    List.reverse_reverse]

variable {f : IndexedFile} {content : List UInt8}

theorem Matches.lineText_eq (hf : f.Matches content) {i start : Nat} {line : Line}
    {rest : List UInt16} (hs : (lineStarts (f.decoded content).units)[i]? = some start)
    (hu : (f.decoded content).units.drop start = line.units ++ rest) (hp : line.Precedes rest) :
    f.lineText (.ofFile content) i = .ok line.text := by
  have htarget : (Target.line i).start? (f.decoded content).units = some start := hs
  have hrange := (f.checkRange_iff (.line i)).2 (by
    rw [hf.count_eq]
    exact Target.number_lt htarget)
  obtain ⟨r, hseek, hshows, -⟩ := hf.seek_shows htarget f.config.readerBuffer
  obtain ⟨next, hline, -⟩ := TextReader.readLine_shows hshows hf.complete hp hu
  simp only [lineText, readerAt, hrange, hseek, bind, Except.bind, hline, pure, Except.pure,
    trimLineEnds_written]

theorem Matches.exists_lines (hf : f.Matches content) :
    ∃ lines, Delimited lines ∧ (f.decoded content).units = unitsOf lines ∧
      f.encoding.encode? (writtenLines lines) = some (content.drop f.index.dataStart) := by
  obtain ⟨text, hw⟩ := Encoding.exists_encode_of_complete hf.complete
  obtain ⟨lines, hlines, rfl⟩ := exists_delimited text
  refine ⟨lines, hlines, ?_, hw⟩
  rw [decoded, Encoding.decodeAll_of_encode hw, unitsOf_eq]

/-- Asked for its lines, an unchanged file answers with those that it is made of. -/
theorem Matches.lineText_lines (hf : f.Matches content) {lines : List Line}
    (hlines : Delimited lines) (hu : (f.decoded content).units = unitsOf lines) (n : Nat) :
    f.lineText (.ofFile content) n =
      match lines[n]? with
      | some line => .ok line.text
      | none => .error (.outOfRange .line n lines.length) := by
  cases hn : lines[n]? with
  | some line =>
    obtain ⟨start, rest, hs, hdrop, hp⟩ := hlines.exists_start hn
    rw [← hu] at hs hdrop
    exact hf.lineText_eq hs hdrop hp
  | none =>
    have htotal : (Target.line n).total (f.decoded content).units = lines.length := by
      rw [hu]
      exact hlines.lineStarts_length
    have hover : (Target.line n).total (f.decoded content).units ≤ (Target.line n).number := by
      rw [htotal]
      exact List.getElem?_eq_none_iff.1 hn
    have hrange := hf.outOfRange hover
    rw [htotal] at hrange
    simp only [lineText, readerAt, hrange, bind, Except.bind]
    rfl

/-- A file put together from lines has these lines, whichever ends were chosen for
them. -/
theorem lines_of_delimited {config : Config} (path : String) {encoding : Encoding}
    {lines : List Line} (hlines : Delimited lines) (hv : config.fault? = none)
    (hh : config.headerSkip = 0)
    (hw : encoding.encode? (writtenLines lines) = some content)
    (hl : content.length ≤ Source.offsetLimit) :
    ∃ f, build path encoding config (.ok (.file content)) = .ok f ∧
      f.index.totalLines = lines.length ∧
      ∀ i line, lines[i]? = some line → f.lineText (.ofFile content) i = .ok line.text := by
  have hdecoded := Encoding.decodeAll_of_encode hw
  have hc : (encoding.decodeAll (content.drop config.headerSkip)).ending = .complete := by
    rw [hh, List.drop_zero, hdecoded]
  obtain ⟨f, hbuild, hf, rfl, hstart⟩ :=
    build_matches path encoding hv (hh ▸ Nat.zero_le _) hl hc
  have hunits : (f.decoded content).units = unitsOf lines := by
    rw [decoded, hstart, hh, List.drop_zero, hdecoded, unitsOf_eq]
  refine ⟨f, hbuild, ?_, ?_⟩
  · rw [hf.describes.totalLines_eq, hunits, hlines.lineStarts_length]
  · intro i line hi
    obtain ⟨start, rest, hs, hdrop, hp⟩ := hlines.exists_start hi
    rw [← hunits] at hs hdrop
    exact hf.lineText_eq hs hdrop hp

/-- All ends at once: a carriage return in front of an empty line that has one, too, a
pair, a line feed, and no end. -/
theorem lines_of_delimited_mixed :
    ∃ f, build "notes.txt" .latin1 { maxLineEntries := 1, partitionUnits := 2, readerBuffer := 0 }
        (.ok (.file [0x61, 0x0D, 0x0D, 0xE9, 0x0D, 0x0A, 0x0A, 0x62])) = .ok f ∧
      let file := Source.ofFile [0x61, 0x0D, 0x0D, 0xE9, 0x0D, 0x0A, 0x0A, 0x62]
      f.index.totalLines = 5 ∧ f.lineText file 0 = .ok ['a'] ∧ f.lineText file 1 = .ok [] ∧
        f.lineText file 2 = .ok ['é'] ∧ f.lineText file 3 = .ok [] ∧
        f.lineText file 4 = .ok ['b'] := by
  let lines : List Line := [⟨['a'], some .cr, by simp⟩, ⟨[], some .cr, by simp⟩,
    ⟨['é'], some .crlf, by simp⟩, ⟨[], some .lf, by simp⟩, ⟨['b'], none, by simp⟩]
  have hlines : Delimited lines :=
    .cons _ _ _ (by decide) (by decide) <| .cons _ _ _ (by decide) (by decide) <|
      .cons _ _ _ (by decide) (by decide) <| .cons _ _ _ (by decide) (by decide) <|
        .last _ (by decide)
  have hvalid : ({ maxLineEntries := 1, partitionUnits := 2, readerBuffer := 0 } :
      Config).fault? = none := by decide
  have hwritten : Encoding.latin1.encode? (writtenLines lines) =
      some [0x61, 0x0D, 0x0D, 0xE9, 0x0D, 0x0A, 0x0A, 0x62] := by decide
  obtain ⟨f, hbuild, hcount, htexts⟩ := lines_of_delimited "notes.txt" hlines hvalid rfl hwritten
    (by decide)
  exact ⟨f, hbuild, hcount, htexts 0 _ rfl, htexts 1 _ rfl, htexts 2 _ rfl, htexts 3 _ rfl,
    htexts 4 _ rfl⟩

end TextSeek.IndexedFile

import TextSeek.Proofs.File.Built
import TextSeek.Proofs.File.LineText
import TextSeek.Proofs.Index.Translation

/-!
# Files with a header

A header in front of a text is never decoded. A file with one answers as the text
would in a file of its own, with every byte moved by the length of the header.

Results:
* `Behind.byteOf_eq`, `Behind.positionOf_eq`, `Behind.lineText_eq`: where the text
  stands, and what is answered.
* `header_moves`: the index and the answers of a file with a header.
-/
namespace TextSeek.IndexedFile

/-- One file is the other one behind a header. -/
structure Behind (f plain : IndexedFile) (header data : List UInt8) : Prop where
  matched : f.Matches (header ++ data)
  matched_plain : plain.Matches data
  encoding_eq : f.encoding = plain.encoding
  start_eq : f.index.dataStart = header.length
  plain_start : plain.index.dataStart = 0

namespace Behind

variable {f plain : IndexedFile} {header data : List UInt8} (h : f.Behind plain header data)
include h

theorem decoded_eq : f.decoded (header ++ data) = plain.decoded data := by
  rw [decoded, decoded, h.start_eq, h.plain_start, h.encoding_eq, List.drop_left, List.drop_zero]

theorem byteOf_eq (start : Nat) :
    f.byteOf (header ++ data) start = plain.byteOf data start + header.length := by
  rw [byteOf, byteOf, h.decoded_eq, h.start_eq, h.plain_start, h.encoding_eq, Nat.zero_add,
    Nat.add_comm]

theorem count_eq (target : Target) : f.count target = plain.count target := by
  rw [h.matched.count_eq, h.matched_plain.count_eq, h.decoded_eq]

theorem checkRange_eq (target : Target) : f.checkRange target = plain.checkRange target := by
  rw [checkRange, checkRange, h.count_eq]

theorem positionOf_eq (target : Target) : f.positionOf (.ofFile (header ++ data)) target =
    (plain.positionOf (.ofFile data) target).map (· + header.length) := by
  by_cases hn : target.number < target.total (plain.decoded data).units
  · obtain ⟨start, hs⟩ := Target.start?_isSome hn
    rw [h.matched_plain.positionOf_eq hs]
    rw [← h.decoded_eq] at hs
    rw [h.matched.positionOf_eq hs, h.byteOf_eq]
    rfl
  · have hrange := h.matched_plain.outOfRange (Nat.le_of_not_lt hn)
    simp only [positionOf, h.checkRange_eq, hrange, bind, Except.bind, Except.map]

theorem readerAt_eq (target : Target) (buffer : Nat) :
    (f.readerAt (.ofFile (header ++ data)) target buffer).map TextReader.position =
      (plain.readerAt (.ofFile data) target buffer).map (·.position + header.length) := by
  by_cases hn : target.number < target.total (plain.decoded data).units
  · obtain ⟨start, hs⟩ := Target.start?_isSome hn
    obtain ⟨r, hr, hpos, -⟩ := h.matched_plain.readerAt_eq hs buffer
    rw [← h.decoded_eq] at hs
    obtain ⟨r', hr', hpos', -⟩ := h.matched.readerAt_eq hs buffer
    rw [hr, hr', Except.map, Except.map, hpos, hpos', h.byteOf_eq]
  · have hrange := h.matched_plain.outOfRange (Nat.le_of_not_lt hn)
    simp only [readerAt, h.checkRange_eq, hrange, bind, Except.bind, Except.map]

theorem lineText_eq (n : Nat) :
    f.lineText (.ofFile (header ++ data)) n = plain.lineText (.ofFile data) n := by
  obtain ⟨lines, hlines, hu, -⟩ := h.matched_plain.exists_lines
  rw [h.matched_plain.lineText_lines hlines hu]
  rw [← h.decoded_eq] at hu
  exact h.matched.lineText_lines hlines hu n

end Behind

/-- The indexes of a file and of its text are the same one, moved along. -/
theorem build_behind {config : Config} (path : String) {encoding : Encoding}
    {header data : List UInt8} (hl : (header ++ data).length ≤ Source.offsetLimit)
    {plain : IndexedFile}
    (hb : build path encoding (config.withHeaderSkip 0) (.ok (.file data)) = .ok plain) :
    ∃ f, build path encoding (config.withHeaderSkip header.length)
        (.ok (.file (header ++ data))) = .ok f ∧
      f.Behind plain header data ∧ f.index = plain.index.shift header.length := by
  have hle : header.length ≤ (header ++ data).length := by
    rw [List.length_append]
    exact Nat.le_add_right _ _
  have hl' : data.length ≤ Source.offsetLimit := by
    rw [List.length_append] at hl
    omega
  obtain ⟨hv, -, hc⟩ := build_inv hl' hb
  obtain ⟨hplain, henc, hstart⟩ := build_matched hl' hb
  have hc' : (encoding.decodeAll ((header ++ data).drop header.length)).ending = .complete := by
    rw [List.drop_left]
    exact hc
  have hv' : (config.withHeaderSkip header.length).fault? = none := hv
  obtain ⟨f, hbuild, hf, henc', hstart'⟩ := build_matches path encoding hv' hle hl hc'
  refine ⟨f, hbuild, ⟨hf, hplain, henc'.trans henc.symm, hstart', hstart⟩, ?_⟩
  obtain ⟨source, hs, hrun⟩ := build_index hl' hb
  obtain ⟨source', hs', hrun'⟩ := build_index hl hbuild
  have hshift := buildIndexBy_shift Budget.share encoding (show config.fault? = none from hv) hs hs'
  rw [show buildIndexBy Budget.share (config.withHeaderSkip 0) encoding source = _ from hrun,
    show buildIndexBy Budget.share (config.withHeaderSkip header.length) encoding source' = _
      from hrun'] at hshift
  exact Except.ok.inj hshift

/-- A header that is skipped moves the text behind it and changes nothing else: an index
that is built, the place of a failure, and all answers are those for the text alone,
with every byte moved by the length of the header. -/
theorem header_moves {config : Config} (path : String) (encoding : Encoding)
    (header data : List UInt8) (hv : config.fault? = none) :
    (∀ source source' : Source, source.Brings data 0 →
      source'.Brings (header ++ data) header.length →
      buildIndex (config.withHeaderSkip header.length) encoding source' =
        shiftOutcome header.length (buildIndex (config.withHeaderSkip 0) encoding source)) ∧
    ((header ++ data).length ≤ Source.offsetLimit → ∀ plain,
      build path encoding (config.withHeaderSkip 0) (.ok (.file data)) = .ok plain →
      ∃ f, build path encoding (config.withHeaderSkip header.length)
          (.ok (.file (header ++ data))) = .ok f ∧
        f.index = plain.index.shift header.length ∧
        (∀ target, f.count target = plain.count target ∧
          (f.entries target).toList = (plain.entries target).toList.map (·.shift 0 header.length) ∧
          f.positionOf (.ofFile (header ++ data)) target =
            (plain.positionOf (.ofFile data) target).map (· + header.length) ∧
          ∀ buffer, (f.readerAt (.ofFile (header ++ data)) target buffer).map TextReader.position =
            (plain.readerAt (.ofFile data) target buffer).map (·.position + header.length)) ∧
        ∀ n, f.lineText (.ofFile (header ++ data)) n = plain.lineText (.ofFile data) n) := by
  refine ⟨fun _ _ => buildIndexBy_shift Budget.share encoding hv, ?_⟩
  intro hl plain hb
  obtain ⟨f, hbuild, h, hindex⟩ := build_behind path hl hb
  refine ⟨f, hbuild, hindex, ?_, h.lineText_eq⟩
  intro target
  refine ⟨h.count_eq target, ?_, h.positionOf_eq target, h.readerAt_eq target⟩
  cases target with
  | character n => simp [entries, hindex, TextIndex.shift, SparseIndex.shift, SparseIndex.toList]
  | line n => simp [entries, hindex, TextIndex.shift, SparseIndex.shift, SparseIndex.toList]

/-- A header that is no text in front of two lines, and in front of bytes that end inside
a character. -/
theorem header_moves_mark :
    (∃ plain f, build "notes.txt" .utf8 {} (.ok (.file [0x61, 0x0A, 0x62])) = .ok plain ∧
      build "notes.txt" .utf8 { headerSkip := 2 }
        (.ok (.file [0xFF, 0xFE, 0x61, 0x0A, 0x62])) = .ok f ∧
      f.index = plain.index.shift 2 ∧
      ∀ n, f.lineText (.ofFile [0xFF, 0xFE, 0x61, 0x0A, 0x62]) n =
        plain.lineText (.ofFile [0x61, 0x0A, 0x62]) n) ∧
    buildIndex { headerSkip := 2 } .utf8 (.ofMap [0xFF, 0xFE, 0x61, 0xC3]) =
      shiftOutcome 2 (buildIndex {} .utf8 (.ofFile [0x61, 0xC3])) := by
  have hvalid : ({} : Config).fault? = none := by decide
  have hc : (Encoding.utf8.decodeAll [0x61, 0x0A, 0x62]).ending = .complete := by decide +kernel
  have hl : [0x61, 0x0A, 0x62].length ≤ Source.offsetLimit := by decide
  obtain ⟨plain, hplain, -⟩ := build_plain "notes.txt" hvalid rfl hl rfl hc
  obtain ⟨f, hf, hindex, -, hlines⟩ := (header_moves "notes.txt" .utf8 [0xFF, 0xFE]
    [0x61, 0x0A, 0x62] hvalid).2 (by decide) plain hplain
  exact ⟨⟨plain, f, hplain, hf, hindex, hlines⟩,
    (header_moves "notes.txt" .utf8 [0xFF, 0xFE] [0x61, 0xC3] hvalid).1 _ _
      (Source.ofFile_brings (by decide) 0) (Source.ofMap_brings _ 2)⟩

end TextSeek.IndexedFile

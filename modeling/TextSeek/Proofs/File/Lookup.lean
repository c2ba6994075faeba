import TextSeek.File.IndexedFile
import TextSeek.Proofs.Index.Search
import TextSeek.Proofs.Index.Soundness
import TextSeek.Proofs.Reader.Reading

/-!
# Lookups in an unchanged file

A lookup starts at some indexed place that is not behind its target, or at the
start of the text, and reads on. Every such place (`anchor`) is that of a
character or a line of the text, and what is left to be skipped from there is
the rest of the way, so the answer does not depend on which places are indexed.

Results:
* `skipTo_shows`: a reader gets from one place to another one.
* `seek_shows`: a lookup gets to its target.
* `lookup_unchanged`: what all lookups answer.
-/
namespace TextSeek

namespace Target

def total (text : List UInt16) : Target → Nat
  | character _ => text.length
  | line _ => (lineStarts text).length

/-- The unit at which the target starts. -/
def start? (text : List UInt16) : Target → Option Nat
  | character n => if n < text.length then some n else none
  | line n => (lineStarts text)[n]?

/-- The unit in front of which a reader stands when it has passed everything before
the target. Characters can be passed up to the end of the text. -/
def reached? (text : List UInt16) : Target → Option Nat
  | character n => if n ≤ text.length then some n else none
  | line n => (lineStarts text)[n]?

def renumber : Target → Nat → Target
  | character _, n => character n
  | line _, n => line n

variable {target : Target} {text : List UInt16} {start : Nat}

@[simp] theorem renumber_number : target.renumber target.number = target := by
  cases target <;> rfl

@[simp] theorem number_renumber (n : Nat) : (target.renumber n).number = n := by
  cases target <;> rfl

theorem start?_lt (h : target.start? text = some start) : start < text.length := by
  cases target with
  | character n =>
    simp only [start?, Option.ite_none_right_eq_some, Option.some.injEq] at h
    omega
  | line n => exact lineStarts_lt h

theorem reached?_of_start? (h : target.start? text = some start) :
    target.reached? text = some start := by
  cases target with
  | character n =>
    simp only [start?, Option.ite_none_right_eq_some] at h
    exact (if_pos (Nat.le_of_lt h.1)).trans h.2
  | line n => exact h

theorem number_lt (h : target.start? text = some start) : target.number < target.total text := by
  cases target with
  | character n =>
    simp only [start?, Option.ite_none_right_eq_some] at h
    exact h.1
  | line n => exact (List.getElem?_eq_some_iff.1 h).1

theorem start?_isSome (h : target.number < target.total text) :
    ∃ start, target.start? text = some start := by
  cases target with
  | character n => exact ⟨n, if_pos h⟩
  | line n => exact ⟨_, List.getElem?_eq_getElem h⟩

theorem start?_drop {m first : Nat} (hm : (target.renumber m).start? text = some first)
    (hle : m ≤ target.number) (h : target.start? text = some start) :
    ∃ rest, start = first + rest ∧
      (target.renumber (target.number - m)).start? (text.drop first) = some rest := by
  cases target with
  | character n =>
    simp only [renumber, start?, number, Option.ite_none_right_eq_some, Option.some.injEq] at *
    obtain ⟨hlt, rfl⟩ := h
    obtain ⟨-, rfl⟩ := hm
    refine ⟨n - m, by omega, ?_, rfl⟩
    rw [List.length_drop]
    omega
  | line n =>
    simp only [renumber, start?, number] at *
    have hdrop := lineStarts_drop hm (n - m)
    rw [show m + (n - m) = n by omega, h, eq_comm, Option.map_eq_some_iff] at hdrop
    obtain ⟨rest, hrest, rfl⟩ := hdrop
    exact ⟨rest, Nat.add_comm _ _, hrest⟩

theorem start?_zero (h : text ≠ []) : (target.renumber 0).start? text = some 0 := by
  cases target with
  | character n => exact if_pos (List.length_pos_iff.2 h)
  | line n => exact lineStarts_zero h

end Target

namespace IndexedFile

variable {encoding : Encoding} {text : WholeText} {r : TextReader}

theorem skipTo_shows {target : Target} {wanted start : Nat} (h : r.Shows encoding text)
    (hs : (target.renumber wanted).reached? text.units = some start) :
    ∃ next, skipTo r target wanted = (.ok true, next) ∧ r.Moves encoding text start next := by
  cases target with
  | character n =>
    simp only [Target.renumber, Target.reached?, Option.ite_none_right_eq_some,
      Option.some.injEq] at hs
    obtain ⟨hle, rfl⟩ := hs
    obtain ⟨next, hn, hm⟩ := TextReader.skipUnits_shows h hle
    exact ⟨next, by simp [skipTo, hn], hm⟩
  | line n =>
    obtain ⟨next, hn, hm⟩ := TextReader.skipLines_shows h hs
    by_cases h0 : wanted = 0
    · subst h0
      exact ⟨next, by simp [skipTo, hn], hm⟩
    · -- text follows the last line end, for a line starts there
      have hlt := lineStarts_lt hs
      obtain ⟨unit, rest, hu⟩ := List.exists_cons_of_ne_nil
        (List.ne_nil_of_length_pos (l := text.units.drop start) (by rw [List.length_drop]; omega))
      obtain ⟨last, hl, hls, hpos⟩ := TextReader.peekUnit_cons hm.shows hu
      refine ⟨last, by simp [skipTo, hn, h0, hl], hls, ?_⟩
      rw [hpos, hm.position_eq]

/-! ## A file as it was indexed -/

def decoded (f : IndexedFile) (content : List UInt8) : WholeText :=
  f.encoding.decodeAll (content.drop f.index.dataStart)

/-- The byte at which a unit of the text stands. -/
def byteOf (f : IndexedFile) (content : List UInt8) (unit : Nat) : Nat :=
  f.index.dataStart + f.encoding.encodedLength ((f.decoded content).units.take unit)

/-- The file was indexed when it had the bytes `content`. -/
structure Matches (f : IndexedFile) (content : List UInt8) : Prop where
  describes : f.index.Describes f.encoding f.index.dataStart (f.decoded content).units
  complete : (f.decoded content).ending = .complete
  start_le : f.index.dataStart ≤ content.length
  size_eq : f.size = content.length
  limit : content.length ≤ Source.offsetLimit

variable {f : IndexedFile} {content : List UInt8} {target : Target} {start : Nat}

theorem Matches.count_eq (hf : f.Matches content) (target : Target) :
    f.count target = target.total (f.decoded content).units := by
  cases target with
  | character n => exact hf.describes.totalChars_eq
  | line n => exact hf.describes.totalLines_eq

theorem decoded_paired (f : IndexedFile) (content : List UInt8) :
    Paired (f.decoded content).units :=
  f.encoding.decodeAll_paired _

/-- The target can be read from its first unit on: no half of a pair stands
there. -/
def Readable (f : IndexedFile) (content : List UInt8) (start : Nat) : Prop :=
  ∃ unit, (f.decoded content).units[start]? = some unit ∧ CodeUnit.isLowSurrogate unit = false

theorem Matches.byteOf_lt (hf : f.Matches content) (hr : f.Readable content start) :
    f.byteOf content start < content.length := by
  obtain ⟨unit, hu, hlow⟩ := hr
  have hall := f.encoding.decodeAll_encodedLength (content.drop f.index.dataStart)
  rw [Encoding.consumed_of_complete hf.complete, List.length_drop] at hall
  obtain ⟨hlt, hget⟩ := List.getElem?_eq_some_iff.1 hu
  have hsplit := f.encoding.encodedLength_append ((f.decoded content).units.take start)
    ((f.decoded content).units.drop start)
  rw [List.take_append_drop, List.drop_eq_getElem_cons hlt, hget,
    Encoding.encodedLength_cons] at hsplit
  have hpos := f.encoding.byteLength_pos hlow
  have hle := hf.start_le
  unfold byteOf
  unfold decoded at hsplit ⊢
  omega

theorem decodeAll_byteOf (hr : f.Readable content start) :
    f.encoding.decodeAll (content.drop (f.byteOf content start)) =
      (f.decoded content).behind f.encoding start := by
  obtain ⟨unit, hu, hlow⟩ := hr
  have hdrop := f.encoding.decodeAll_drop (content.drop f.index.dataStart) start
    (Nat.le_of_lt (List.getElem?_eq_some_iff.1 hu).1) fun unit' hu' => by
      rw [show unit' = unit from Option.some.inj (hu'.symm.trans hu)]
      exact hlow
  rw [List.drop_drop] at hdrop
  exact hdrop

theorem openAt_ofFile {offset : Nat} (h : offset < Source.offsetLimit) (content : List UInt8)
    (encoding : Encoding) (buffer : Nat) :
    ∃ r, TextReader.openAt (.ofFile content) encoding offset buffer = .ok r ∧
      r.Shows encoding (encoding.decodeAll (content.drop offset)) ∧ r.position = offset := by
  have hopen : (Source.ofFile content).openAt offset =
      .ok { rest := content.drop offset, offset } := if_neg (Nat.not_le.2 h)
  have hsteady : ({ rest := content.drop offset, offset } : ByteStream).Steady :=
    Source.steady_of_faultless rfl
  exact ⟨_, by rw [TextReader.openAt, hopen], TextReader.start_shows hsteady encoding offset buffer,
    rfl⟩

theorem Matches.openAt_shows (hf : f.Matches content) (hr : f.Readable content start)
    (buffer : Nat) : ∃ r, TextReader.openAt (.ofFile content) f.encoding (f.byteOf content start)
        buffer = .ok r ∧ r.Shows f.encoding ((f.decoded content).behind f.encoding start) ∧
      r.position = f.byteOf content start := by
  rw [← decodeAll_byteOf hr]
  exact openAt_ofFile (Nat.lt_of_lt_of_le (hf.byteOf_lt hr) hf.limit) content f.encoding buffer

theorem Matches.entry_leads (hf : f.Matches content) {e : Entry}
    (he : e ∈ (f.entries target).toList) :
    ∃ first, (target.renumber e.ordinal).start? (f.decoded content).units = some first ∧
      f.Readable content first ∧ e.position = f.byteOf content first := by
  cases target with
  | character n =>
    obtain ⟨unit, hu, hlow, hpos⟩ := hf.describes.chars e he
    exact ⟨e.ordinal, if_pos (List.getElem?_eq_some_iff.1 hu).1, ⟨unit, hu, hlow⟩, hpos⟩
  | line n =>
    obtain ⟨first, hs, hpos⟩ := hf.describes.lines e he
    have hu := List.getElem?_eq_getElem (lineStarts_lt hs)
    exact ⟨first, hs, ⟨_, hu, (f.decoded_paired content).lineStart_not_low hs hu⟩, hpos⟩

/-- The place at which a lookup starts to read. -/
def anchor (f : IndexedFile) (target : Target) : Entry :=
  ((f.entries target).nearest? target.number).getD ⟨0, f.index.dataStart⟩

/-- A lookup starts in front of its target, or at it. -/
theorem anchor_le (f : IndexedFile) (target : Target) :
    (f.anchor target).ordinal ≤ target.number := by
  unfold anchor
  cases hn : (f.entries target).nearest? target.number with
  | some e => exact (SparseIndex.mem_of_nearest? hn).2
  | none => exact Nat.zero_le _

/-- What a lookup answers when its reader has skipped and stands at `next`. -/
def settle (target : Target) (next : TextReader) :
    Except AccessError Bool → Except AccessError TextReader
  | .ok true => .ok next
  | .ok false => .error (.truncated target.kind target.number next.position)
  | .error (.malformed encoding position) =>
    if next.endedMidCharacter then .error (.truncated target.kind target.number next.position)
    else .error (.malformed encoding position)
  | .error error => .error error

/-- A lookup opens a reader at its anchor, skips, and settles. -/
theorem seek_eq {file : Source} {buffer : Nat} {next : TextReader}
    {outcome : Except AccessError Bool}
    (hopen : TextReader.openAt file f.encoding (f.anchor target).position buffer = .ok r)
    (hskip : skipTo r target (target.number - (f.anchor target).ordinal) = (outcome, next)) :
    f.seek file target buffer = settle target next outcome := by
  unfold anchor at hopen hskip
  simp only [seek, hopen, bind, Except.bind, hskip]
  rfl

theorem Matches.anchor_leads (hf : f.Matches content)
    (hs : target.start? (f.decoded content).units = some start) :
    ∃ first, (target.renumber (f.anchor target).ordinal).start? (f.decoded content).units =
        some first ∧ f.Readable content first ∧
      (f.anchor target).position = f.byteOf content first := by
  unfold anchor
  cases hn : (f.entries target).nearest? target.number with
  | some e => exact hf.entry_leads (SparseIndex.mem_of_nearest? hn).1
  | none =>
    have hlt := Target.start?_lt hs
    have hne := List.ne_nil_of_length_pos (Nat.lt_of_le_of_lt (Nat.zero_le _) hlt)
    obtain ⟨unit, rest, hu⟩ := List.exists_cons_of_ne_nil hne
    refine ⟨0, Target.start?_zero hne, ⟨unit, by rw [hu]; rfl, ?_⟩, ?_⟩
    · exact (f.decoded_paired content).head_not_low unit (by rw [hu]; rfl)
    · simp [byteOf]

/-- A lookup gets to its target. -/
theorem Matches.seek_shows (hf : f.Matches content)
    (hs : target.start? (f.decoded content).units = some start) (buffer : Nat) :
    ∃ r, f.seek (.ofFile content) target buffer = .ok r ∧
      r.Shows f.encoding ((f.decoded content).behind f.encoding start) ∧
      r.position = f.byteOf content start := by
  obtain ⟨first, hfirst, hreadable, hpos⟩ := hf.anchor_leads hs
  obtain ⟨r, hopen, hshows, hr⟩ := hf.openAt_shows hreadable buffer
  obtain ⟨rest, rfl, hrest⟩ := Target.start?_drop hfirst (f.anchor_le target) hs
  obtain ⟨next, hskip, hmoves⟩ := skipTo_shows hshows (Target.reached?_of_start? hrest)
  rw [← hpos] at hopen
  refine ⟨next, seek_eq hopen hskip, ?_, ?_⟩
  · rw [← WholeText.behind_behind]
    exact hmoves.shows
  · rw [hmoves.position_eq, hr]
    simp only [byteOf, WholeText.behind, List.take_add, Encoding.encodedLength_append,
      Nat.add_assoc]

/-! ## Answers -/

theorem Matches.positionOf_eq (hf : f.Matches content)
    (hs : target.start? (f.decoded content).units = some start) :
    f.positionOf (.ofFile content) target = .ok (f.byteOf content start) := by
  have hrange := (f.checkRange_iff target).2 (by rw [hf.count_eq]; exact Target.number_lt hs)
  simp only [positionOf, hrange, bind, Except.bind]
  cases hp : (f.entries target).position? target.number with
  | some position =>
    obtain ⟨first, hfirst, -, hpos⟩ := hf.entry_leads (SparseIndex.mem_of_position? hp)
    rw [Target.renumber_number, hs, Option.some.injEq] at hfirst
    rw [hfirst, ← hpos]
    rfl
  | none =>
    obtain ⟨r, hr, -, hpos⟩ := hf.seek_shows hs f.config.readerBuffer
    simp only [hr, pure, Except.pure, hpos]

theorem Matches.readUnits_eq (hf : f.Matches content)
    (h : r.Shows f.encoding ((f.decoded content).behind f.encoding start)) :
    r.readUnits = ((f.decoded content).units.drop start, none) := by
  have hc : ((f.decoded content).behind f.encoding start).ending = .complete := hf.complete
  rw [TextReader.readUnits_shows h, if_pos hc]
  rfl

theorem Matches.readerAt_eq (hf : f.Matches content)
    (hs : target.start? (f.decoded content).units = some start) (buffer : Nat) :
    ∃ r, f.readerAt (.ofFile content) target buffer = .ok r ∧
      r.position = f.byteOf content start ∧
      r.readUnits = ((f.decoded content).units.drop start, none) := by
  have hrange := (f.checkRange_iff target).2 (by rw [hf.count_eq]; exact Target.number_lt hs)
  obtain ⟨r, hr, hshows, hpos⟩ := hf.seek_shows hs buffer
  exact ⟨r, by simp only [readerAt, hrange, bind, Except.bind, hr], hpos, hf.readUnits_eq hshows⟩

theorem Matches.readerAtByte_eq (hf : f.Matches content) (hr : f.Readable content start)
    (buffer : Nat) : ∃ r, f.readerAtByte (.ofFile content) (f.byteOf content start) buffer = .ok r ∧
      r.position = f.byteOf content start ∧
      r.readUnits = ((f.decoded content).units.drop start, none) := by
  obtain ⟨r, hopen, hshows, hpos⟩ := hf.openAt_shows hr buffer
  have hlt := hf.byteOf_lt hr
  refine ⟨r, ?_, hpos, hf.readUnits_eq hshows⟩
  rw [readerAtByte, if_neg (by rw [hf.size_eq]; omega), hopen]

theorem Matches.outOfRange (hf : f.Matches content)
    (h : target.total (f.decoded content).units ≤ target.number) :
    f.checkRange target = .error (.outOfRange target.kind target.number
      (target.total (f.decoded content).units)) := by
  rw [checkRange, hf.count_eq, if_neg (by omega)]

/-- A file that decodes behind its header is indexed. -/
theorem build_matches {config : Config} (path : String) (encoding : Encoding)
    (hv : config.fault? = none) (hh : config.headerSkip ≤ content.length)
    (hl : content.length ≤ Source.offsetLimit)
    (hc : (encoding.decodeAll (content.drop config.headerSkip)).ending = .complete) :
    ∃ f, build path encoding config (.ok (.file content)) = .ok f ∧ f.Matches content ∧
      f.encoding = encoding ∧ f.index.dataStart = config.headerSkip := by
  obtain ⟨source, hsource, hbrings⟩ := Source.choose_brings hl config.strategy config.headerSkip
  obtain ⟨index, hindex, hd⟩ := buildIndexBy_describes Budget.share encoding hv hbrings hh hc
  have hstart := hd.dataStart_eq
  refine ⟨{ path, encoding, config, index, size := content.length }, ?_, ?_, rfl, hstart⟩
  · rw [show buildIndexBy Budget.share config encoding source = buildIndex config encoding source
      from rfl] at hindex
    simp only [build, Config.validate, hv, hsource, hbrings.length_eq, liftIo_ok, hindex, bind,
      Except.bind, pure, Except.pure]
  · rw [← hstart] at hh hc hd
    exact ⟨hd, hc, hh, rfl, hl⟩

/-- In an unchanged file every character and every line is found at its byte, by
all ways of asking for it, and nothing else is. -/
theorem lookup_unchanged {config : Config} (path : String) (encoding : Encoding)
    (content : List UInt8) (hv : config.fault? = none)
    (hh : config.headerSkip ≤ content.length) (hl : content.length ≤ Source.offsetLimit)
    (hc : (encoding.decodeAll (content.drop config.headerSkip)).ending = .complete) :
    let text := (encoding.decodeAll (content.drop config.headerSkip)).units
    let byteOf := fun unit => config.headerSkip + encoding.encodedLength (text.take unit)
    let file := Source.ofFile content
    ∃ f, build path encoding config (.ok (.file content)) = .ok f ∧ ∀ target : Target,
      f.count target = target.total text ∧
      (target.number < target.total text → ∃ start, target.start? text = some start ∧
        f.positionOf file target = .ok (byteOf start) ∧
        (∀ buffer, ∃ r, f.readerAt file target buffer = .ok r ∧ r.position = byteOf start ∧
          r.readUnits = (text.drop start, none)) ∧
        (∀ unit, text[start]? = some unit → CodeUnit.isLowSurrogate unit = false →
          ∀ buffer, ∃ r, f.readerAtByte file (byteOf start) buffer = .ok r ∧
            r.position = byteOf start ∧ r.readUnits = (text.drop start, none))) ∧
      (target.total text ≤ target.number →
        f.positionOf file target =
            .error (.outOfRange target.kind target.number (target.total text)) ∧
          ∀ buffer, f.readerAt file target buffer =
            .error (.outOfRange target.kind target.number (target.total text))) := by
  intro text byteOf file
  obtain ⟨f, hbuild, hf, rfl, hstart⟩ := build_matches path encoding hv hh hl hc
  have htext : (f.decoded content).units = text := by
    simp only [decoded, hstart]
    rfl
  have hbyte (unit : Nat) : f.byteOf content unit = byteOf unit := by
    simp only [IndexedFile.byteOf, htext, hstart]
    rfl
  refine ⟨f, hbuild, ?_⟩
  intro target
  refine ⟨?_, ?_, ?_⟩
  · rw [hf.count_eq, htext]
  · intro h
    obtain ⟨start, hs⟩ := Target.start?_isSome h
    rw [← htext] at hs ⊢
    refine ⟨start, hs, ?_⟩
    rw [← hbyte start]
    exact ⟨hf.positionOf_eq hs, hf.readerAt_eq hs,
      fun unit hu hlow => hf.readerAtByte_eq ⟨unit, hu, hlow⟩⟩
  · intro h
    rw [← htext] at h ⊢
    have hrange := hf.outOfRange h
    exact ⟨by simp only [positionOf, hrange, bind, Except.bind],
      fun buffer => by simp only [readerAt, hrange, bind, Except.bind]⟩

/-- Two bytes of header, a pair, a line end of two units, and readers without a
buffer. -/
theorem lookup_unchanged_pair :
    ∃ f, build "notes.txt" .utf8 { headerSkip := 2, maxCharEntries := 1, readerBuffer := 0 }
        (.ok (.file [0x23, 0x21, 0xF0, 0x9F, 0x98, 0x80, 0x0D, 0x0A, 0x61])) = .ok f ∧
      let file := Source.ofFile [0x23, 0x21, 0xF0, 0x9F, 0x98, 0x80, 0x0D, 0x0A, 0x61]
      f.positionOf file (.character 3) = .ok 7 ∧ f.positionOf file (.line 1) = .ok 8 ∧
      f.positionOf file (.line 2) = .error (.outOfRange .line 2 2) := by
  have htext : Encoding.utf8.decodeAll [0xF0, 0x9F, 0x98, 0x80, 0x0D, 0x0A, 0x61] =
      ⟨[0xD83D, 0xDE00, 0x0D, 0x0A, 0x61], 7, .complete⟩ := by decide +kernel
  have hvalid : ({ headerSkip := 2, maxCharEntries := 1, readerBuffer := 0 } :
      Config).fault? = none := by decide
  obtain ⟨f, hf, h⟩ := lookup_unchanged "notes.txt" .utf8
    [0x23, 0x21, 0xF0, 0x9F, 0x98, 0x80, 0x0D, 0x0A, 0x61] hvalid (by decide) (by decide)
    (by simp only [List.drop_succ_cons, List.drop_zero, htext])
  simp only [List.drop_succ_cons, List.drop_zero, htext] at h
  refine ⟨f, hf, ?_, ?_, ((h (.line 2)).2.2 (by decide)).1⟩
  · obtain ⟨start, hs, hpos, -⟩ := (h (.character 3)).2.1 (by decide)
    cases hs
    exact hpos
  · obtain ⟨start, hs, hpos, -⟩ := (h (.line 1)).2.1 (by decide)
    cases hs
    exact hpos

end IndexedFile
end TextSeek

import TextSeek.Proofs.File.Built
import TextSeek.Proofs.Reader.RunningOut

/-!
# Lookups in a file with any content

A file may have changed in any way since it was indexed. A lookup decodes what the
file holds from its anchor on (`ahead`), and what it answers follows from that text
alone: it passes the units in front of the target (`stretch?`), or it fails where the
text ends (`lost`). The buffer, and the moment at which the end or a malformed byte is
noticed, do not show.

Results:
* `skipTo_stops`: a reader does not get to a place that is not there.
* `seek_found`, `seek_lost`: how a lookup ends.
* `lookup_buffers`: readers with different buffers agree with each other, and with the
  position that is answered without one.
-/
namespace TextSeek.IndexedFile

variable {encoding : Encoding} {text : WholeText} {r next : TextReader} {target : Target}

/-! ## Skipping -/

theorem skipTo_stops {wanted : Nat} (h : r.Shows encoding text) (hw : 0 < wanted)
    (hs : (target.renumber wanted).reached? text.units = none) :
    ∃ outcome next, skipTo r target wanted = (outcome, next) ∧
      r.Stops encoding text (fun found => found = false ∧ text.ending = .complete) outcome
        next := by
  cases target with
  | character n =>
    have hlt : text.units.length < wanted := by
      simpa [Target.renumber, Target.reached?] using hs
    obtain ⟨outcome, next, hskip, hr⟩ := TextReader.skipUnits_stops h hlt
    cases outcome with
    | ok skipped =>
      obtain ⟨hfew, hc⟩ := hr.of_ok
      have hne : (skipped == wanted) = false := beq_false_of_ne (Nat.ne_of_lt hfew)
      exact ⟨.ok false, next, by simp only [skipTo, hskip, hne], .ok hr.moves ⟨rfl, hc⟩⟩
    | error error => exact ⟨.error error, next, by simp only [skipTo, hskip], hr.failed⟩
  | line n =>
    obtain ⟨outcome, next, hskip, hr⟩ := TextReader.skipLines_stops h hs
    cases outcome with
    | error error => exact ⟨.error error, next, by simp only [skipTo, hskip], hr.failed⟩
    | ok skipped =>
      by_cases hall : skipped = wanted
      · -- all line ends are there, but no text behind the last of them
        subst hall
        have hnil : (text.behind encoding text.units.length).units = [] := List.drop_length
        obtain ⟨outcome, last, hp, hr'⟩ := TextReader.peekUnit_stops hr.moves.shows hnil
        have hend := hr'.behind hr.moves (Nat.le_refl _)
        cases outcome with
        | ok unit =>
          obtain ⟨rfl, hc⟩ := hr'.of_ok
          exact ⟨.ok false, last, by simp [skipTo, hskip, Nat.ne_of_gt hw, hp],
            .ok hend.moves ⟨rfl, hc⟩⟩
        | error error =>
          exact ⟨.error error, last, by simp [skipTo, hskip, Nat.ne_of_gt hw, hp], hend.failed⟩
      · have hne : (skipped != wanted) = true := bne_iff_ne.2 hall
        exact ⟨.ok false, next, by simp only [skipTo, hskip, hne, if_true],
          .ok hr.moves ⟨rfl, hr.of_ok.resolve_left hall⟩⟩

theorem skipTo_zero (r : TextReader) (target : Target) : skipTo r target 0 = (.ok true, r) := by
  cases target with
  | character n => simp [skipTo, TextReader.skipUnits, TextReader.skipUnitsFrom]
  | line n => simp [skipTo, TextReader.skipLines, TextReader.skipLinesFrom]

theorem settle_stops {outcome : Except AccessError Bool}
    (h : r.Stops encoding text (fun found => found = false ∧ text.ending = .complete) outcome
      next) :
    settle target next outcome = .error (if text.ending = .malformed
      then .malformed encoding next.position
      else .truncated target.kind target.number next.position) := by
  rcases h.ends with ⟨value, rfl, rfl, hc⟩ | ⟨hne, rfl, hcut⟩
  · rw [hc]
    rfl
  · simp only [settle, hcut]
    cases hend : text.ending with
    | complete => exact absurd hend hne
    | cutOff => rfl
    | malformed => rfl

/-! ## What is in front of a lookup -/

/-- The text behind the anchor of a lookup when the file has the bytes `later`. -/
def ahead (f : IndexedFile) (later : List UInt8) (target : Target) : WholeText :=
  f.encoding.decodeAll (later.drop (f.anchor target).position)

/-- The units in front of the target, if it is there. An anchor that is the target is
not looked at. -/
def stretch? (f : IndexedFile) (later : List UInt8) (target : Target) : Option Nat :=
  if target.number ≤ (f.anchor target).ordinal then some 0
  else (target.renumber (target.number - (f.anchor target).ordinal)).reached?
    (f.ahead later target).units

def aheadByte (f : IndexedFile) (later : List UInt8) (target : Target) (units : Nat) : Nat :=
  (f.anchor target).position +
    f.encoding.encodedLength ((f.ahead later target).units.take units)

/-- The failure of a lookup whose target is not there. -/
def lost (f : IndexedFile) (later : List UInt8) (target : Target) : AccessError :=
  let last := f.aheadByte later target (f.ahead later target).units.length
  if (f.ahead later target).ending = .malformed then .malformed f.encoding last
  else .truncated target.kind target.number last

variable {f : IndexedFile} {content later : List UInt8} {n : Nat}

/-- A lookup finds its target. -/
theorem seek_found (hopens : (f.anchor target).position < Source.offsetLimit)
    (hs : f.stretch? later target = some n) (buffer : Nat) :
    ∃ r, f.seek (.ofFile later) target buffer = .ok r ∧
      r.Shows f.encoding ((f.ahead later target).behind f.encoding n) ∧
      r.position = f.aheadByte later target n := by
  obtain ⟨r, hopen, hshows, hr⟩ := openAt_ofFile hopens later f.encoding buffer
  unfold stretch? at hs
  split at hs
  · next hle =>
    obtain rfl : 0 = n := Option.some.inj hs
    have hskip : skipTo r target (target.number - (f.anchor target).ordinal) = (.ok true, r) := by
      rw [Nat.sub_eq_zero_of_le hle]
      exact skipTo_zero r target
    refine ⟨r, seek_eq hopen hskip, ?_, hr⟩
    rw [WholeText.behind_zero]
    exact hshows
  · obtain ⟨next, hskip, hmoves⟩ := skipTo_shows hshows hs
    refine ⟨next, seek_eq hopen hskip, hmoves.shows, ?_⟩
    rw [hmoves.position_eq, hr]
    rfl

/-- A lookup whose target is not there fails where the text ends. -/
theorem seek_lost (hopens : (f.anchor target).position < Source.offsetLimit)
    (hs : f.stretch? later target = none) (buffer : Nat) :
    f.seek (.ofFile later) target buffer = .error (f.lost later target) := by
  obtain ⟨r, hopen, hshows, hr⟩ := openAt_ofFile hopens later f.encoding buffer
  unfold stretch? at hs
  split at hs
  · cases hs
  · next hlt =>
    obtain ⟨outcome, next, hskip, hstops⟩ := skipTo_stops hshows (by omega) hs
    have hnext : next.position = f.aheadByte later target (f.ahead later target).units.length := by
      rw [hstops.moves.position_eq, hr]
      rfl
    rw [seek_eq hopen hskip, settle_stops hstops, hnext]
    rfl

/-! ## Answers -/

theorem Matches.anchor_lt (hf : f.Matches content) (hn : target.number < f.count target) :
    (f.anchor target).position < Source.offsetLimit := by
  rw [hf.count_eq] at hn
  obtain ⟨start, hs⟩ := Target.start?_isSome hn
  obtain ⟨first, -, hreadable, hpos⟩ := hf.anchor_leads hs
  rw [hpos]
  exact Nat.lt_of_lt_of_le (hf.byteOf_lt hreadable) hf.limit

/-- A target with an entry is its own anchor. -/
theorem Ordered.anchor_eq (ho : f.Ordered) {position : Nat}
    (hp : (f.entries target).position? target.number = some position) :
    f.anchor target = ⟨target.number, position⟩ := by
  rw [anchor, (ho.ascends target).nearest?_of_position? hp]
  rfl

/-- Where there is room for one entry, every lookup starts at the first. -/
theorem Ordered.anchor_first (ho : f.Ordered) (hsize : (f.entries target).size ≤ 1)
    (hpos : 0 < f.count target) : f.anchor target = ⟨0, f.index.dataStart⟩ := by
  obtain ⟨e, hn, hnearest⟩ := (ho.ascends target).exists_isNearest (ho.first target hpos)
    (Nat.zero_le target.number)
  rw [anchor, hn]
  exact ho.eq_first hsize hpos hnearest.mem

theorem readerAt_of_lt (hn : target.number < f.count target) (file : Source) (buffer : Nat) :
    f.readerAt file target buffer = f.seek file target buffer := by
  simp only [readerAt, (f.checkRange_iff target).2 hn, bind, Except.bind]

/-- The position of a target that is there is answered, whether it is indexed or not. -/
theorem positionOf_found (ho : f.Ordered) (hn : target.number < f.count target)
    (hopens : (f.anchor target).position < Source.offsetLimit)
    (hs : f.stretch? later target = some n) :
    f.positionOf (.ofFile later) target = .ok (f.aheadByte later target n) := by
  cases hp : (f.entries target).position? target.number with
  | some position =>
    have hanchor := ho.anchor_eq hp
    rw [stretch?, hanchor, if_pos (Nat.le_refl _), Option.some.injEq] at hs
    rw [positionOf_of_indexed hn hp, ← hs, aheadByte, hanchor]
    rfl
  | none =>
    obtain ⟨r, hr, -, hpos⟩ := seek_found hopens hs f.config.readerBuffer
    simp only [positionOf, (f.checkRange_iff target).2 hn, hp, hr, hpos, bind, Except.bind, pure,
      Except.pure]

/-- Whatever the file holds by now, readers at a target agree however large their
buffers are: they stand at the same byte and give the same units up to the same end or
failure, or there is none of them for the same reason. Where there is a reader, its
byte is the answer to the question for the position, too. -/
theorem lookup_buffers {config : Config} {path : String} {encoding : Encoding}
    (hl : content.length ≤ Source.offsetLimit)
    (hb : build path encoding config (.ok (.file content)) = .ok f) (later : List UInt8)
    (hn : target.number < f.count target) (buffer buffer' : Nat) :
    let file := Source.ofFile later
    (∃ r r', f.readerAt file target buffer = .ok r ∧ f.readerAt file target buffer' = .ok r' ∧
      r.position = r'.position ∧ r.readUnits = r'.readUnits ∧
      f.positionOf file target = .ok r.position) ∨
    ∃ error, f.readerAt file target buffer = .error error ∧
      f.readerAt file target buffer' = .error error := by
  intro file
  obtain ⟨hf, -, -⟩ := build_matched hl hb
  have ho := build_ordered hl hb
  have hopens := hf.anchor_lt hn
  rw [readerAt_of_lt hn, readerAt_of_lt hn]
  cases hs : f.stretch? later target with
  | none => exact .inr ⟨_, seek_lost hopens hs buffer, seek_lost hopens hs buffer'⟩
  | some n =>
    obtain ⟨r, hr, hshows, hpos⟩ := seek_found hopens hs buffer
    obtain ⟨r', hr', hshows', hpos'⟩ := seek_found hopens hs buffer'
    refine .inl ⟨r, r', hr, hr', hpos.trans hpos'.symm, ?_, ?_⟩
    · rw [TextReader.readUnits_shows hshows, TextReader.readUnits_shows hshows', hpos, hpos']
    · rw [hpos]
      exact positionOf_found ho hn hopens hs

/-- A file that is overwritten with bytes of which the second is malformed, and readers
without a buffer and with a large one. -/
theorem lookup_buffers_overwritten :
    ∃ f, build "notes.txt" .utf8 { maxCharEntries := 1 } (.ok (.file [0x61, 0x62, 0x63])) = .ok f ∧
      f.readerAt (.ofFile [0x61, 0xFF, 0x63]) (.character 2) 0 = .error (.malformed .utf8 1) ∧
      f.readerAt (.ofFile [0x61, 0xFF, 0x63]) (.character 2) 64 = .error (.malformed .utf8 1) := by
  have htext : Encoding.utf8.decodeAll [0x61, 0x62, 0x63] =
      ⟨[0x61, 0x62, 0x63], 3, .complete⟩ := by decide +kernel
  have hlater : Encoding.utf8.decodeAll [0x61, 0xFF, 0x63] = ⟨[0x61], 1, .malformed⟩ := by
    decide +kernel
  have hvalid : ({ maxCharEntries := 1 } : Config).fault? = none := by decide
  have hl : [0x61, 0x62, 0x63].length ≤ Source.offsetLimit := by decide
  obtain ⟨f, hb, hencoding, hstart, hcount, -⟩ :=
    build_plain "notes.txt" hvalid rfl hl htext rfl
  have hn : (Target.character 2).number < f.count (.character 2) := by
    rw [hcount]
    decide
  have ho := build_ordered hl hb
  have hsize : (f.entries (.character 2)).size ≤ 1 := by
    have hle := ho.chars_size_le
    rw [(build_keeps hb).2.2] at hle
    exact hle
  have hanchor := ho.anchor_first hsize (Nat.zero_lt_of_lt hn)
  have hahead : f.ahead [0x61, 0xFF, 0x63] (.character 2) = ⟨[0x61], 1, .malformed⟩ := by
    rw [ahead, hanchor, hencoding, hstart, List.drop_zero, hlater]
  have hstretch : f.stretch? [0x61, 0xFF, 0x63] (.character 2) = none := by
    rw [stretch?, hanchor, hahead]
    rfl
  have hlost : f.lost [0x61, 0xFF, 0x63] (.character 2) = .malformed .utf8 1 := by
    simp only [lost, aheadByte, hahead, hanchor, hencoding, hstart]
    rfl
  have hopens := (build_matched hl hb).1.anchor_lt hn
  rcases lookup_buffers hl hb [0x61, 0xFF, 0x63] hn 0 64 with ⟨r, -, hr, -⟩ | ⟨error, he, he'⟩
  · rw [readerAt_of_lt hn, seek_lost hopens hstretch] at hr
    cases hr
  · have herror : error = .malformed .utf8 1 := by
      rw [readerAt_of_lt hn, seek_lost hopens hstretch, hlost] at he
      exact (Except.error.inj he).symm
    rw [← herror]
    exact ⟨f, hb, he, he'⟩

end TextSeek.IndexedFile

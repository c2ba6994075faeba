import TextSeek.Proofs.File.Seeking
import TextSeek.Proofs.Text.Cuts

/-!
# Lookups in a file that has been cut off

A file that loses its end after it was indexed still answers for the targets that
are indexed, and for those that are left. Any other target is reported as
truncated, at the last character boundary that is left; or at the indexed place
where the lookup starts, if the cut is in front of that.

Where a target is left is settled by one count of units (`Target.reach`), and a cut
of the bytes leaves that many units or not (`Encoding.Fits`).

Results:
* `skipTo_runsOut`: a reader does not get to a place that is not left.
* `Matches.seek_cut`: how a lookup ends.
* `lookup_truncated`: what all lookups answer.
-/
namespace TextSeek

namespace Target

variable {target : Target} {text : List UInt16} {start : Nat}

/-- The units that a cut has to leave so that a target is found which starts at
`start`: for a line its first one, too. -/
def reach : Target → Nat → Nat
  | character _, start => start
  | line _, start => start + 1

theorem le_reach (target : Target) (start : Nat) : start ≤ target.reach start := by
  cases target with
  | character n => exact Nat.le_refl _
  | line n => exact Nat.le_succ _

@[simp] theorem reach_renumber (target : Target) (m start : Nat) :
    (target.renumber m).reach start = target.reach start := by
  cases target <;> rfl

theorem reach_add (target : Target) (m start : Nat) :
    target.reach (m + start) = m + target.reach start := by
  cases target <;> rfl

theorem reach_le (h : target.start? text = some start) : target.reach start ≤ text.length := by
  have hlt := start?_lt h
  cases target with
  | character n => exact Nat.le_of_lt hlt
  | line n => exact hlt

theorem reach_pos (h : target.start? text = some start) (hn : 0 < target.number) :
    0 < target.reach start := by
  cases target with
  | character n =>
    simp only [start?, Option.ite_none_right_eq_some, Option.some.injEq] at h
    rw [← h.2]
    exact hn
  | line n => exact Nat.succ_pos _

theorem reached?_take (h : target.start? text = some start) (n : Nat) :
    target.reached? (text.take n) = if target.reach start ≤ n then some start else none := by
  cases target with
  | character m =>
    simp only [start?, Option.ite_none_right_eq_some, Option.some.injEq] at h
    obtain ⟨hlt, rfl⟩ := h
    show (if m ≤ (text.take n).length then some m else none) = if m ≤ n then some m else none
    rw [List.length_take]
    by_cases hn : m ≤ n
    · rw [if_pos (by omega), if_pos hn]
    · rw [if_neg (by omega), if_neg hn]
  | line m => exact lineStarts_take h n

end Target

namespace IndexedFile

variable {encoding : Encoding} {text : WholeText} {r : TextReader} {target : Target}

/-! ## Skipping -/

theorem skipTo_runsOut {wanted : Nat} (h : r.Shows encoding text) (hm : text.ending ≠ .malformed)
    (hw : 0 < wanted) (hs : (target.renumber wanted).reached? text.units = none) :
    ∃ outcome next, skipTo r target wanted = (outcome, next) ∧
      r.RanOut encoding text (· = false) outcome next := by
  obtain ⟨outcome, next, hskip, hstops⟩ := skipTo_stops h hw hs
  exact ⟨outcome, next, hskip, hstops.ranOut hm fun _ => And.left⟩

/-! ## The boundaries of a text -/

variable {f : IndexedFile} {content : List UInt8} {start first kept : Nat}

/-- A character starts at the byte, or the text ends there. -/
def Boundary (f : IndexedFile) (content : List UInt8) (byte : Nat) : Prop :=
  ∃ unit, unit ≤ (f.decoded content).units.length ∧
    (∀ u, (f.decoded content).units[unit]? = some u → CodeUnit.isLowSurrogate u = false) ∧
    byte = f.byteOf content unit

/-- The last boundary of the text within its first `kept` bytes. -/
structure LastBoundary (f : IndexedFile) (content : List UInt8) (kept byte : Nat) : Prop where
  boundary : f.Boundary content byte
  le : byte ≤ kept
  greatest : ∀ other, f.Boundary content other → other ≤ kept → other ≤ byte

theorem byteOf_add (f : IndexedFile) (content : List UInt8) (m n : Nat) :
    f.byteOf content (m + n) = f.byteOf content m +
      f.encoding.encodedLength (((f.decoded content).units.drop m).take n) := by
  rw [byteOf, List.take_add, Encoding.encodedLength_append, ← Nat.add_assoc]
  rfl

theorem byteOf_le (f : IndexedFile) (content : List UInt8) {m n : Nat} (h : m ≤ n) :
    f.byteOf content m ≤ f.byteOf content n :=
  Nat.add_le_add_left (Encoding.encodedLength_take_le _ _ h) _

theorem lastBoundary_of_fits {n : Nat} (hfirst : first ≤ (f.decoded content).units.length)
    (hle : f.byteOf content first ≤ kept)
    (h : f.encoding.Fits ((f.decoded content).units.drop first) (kept - f.byteOf content first) n) :
    f.LastBoundary content kept (f.byteOf content (first + n)) where
  boundary := by
    have hn := h.le
    rw [List.length_drop] at hn
    refine ⟨first + n, by omega, fun u hu => h.whole u ?_, rfl⟩
    rwa [List.getElem?_drop]
  le := by
    have := h.fits
    rw [byteOf_add]
    omega
  greatest := by
    rintro other ⟨unit, hunit, -, rfl⟩ hother
    refine f.byteOf_le content ?_
    by_cases hb : unit ≤ first
    · omega
    · have hsplit := f.byteOf_add content first (unit - first)
      rw [Nat.add_sub_cancel' (Nat.le_of_not_le hb)] at hsplit
      have := h.greatest (unit - first) (by rw [List.length_drop]; omega) (by omega)
      omega

/-- Some units behind a character are left exactly if they end within the bytes kept. -/
theorem le_iff_of_fits (hr : f.Readable content first) {k n : Nat}
    (h : f.encoding.Fits ((f.decoded content).units.drop first) (kept - f.byteOf content first) n)
    (hpos : 0 < k) (hle : k ≤ ((f.decoded content).units.drop first).length) :
    k ≤ n ↔ f.byteOf content (first + k) ≤ kept := by
  have hlength : 0 < f.encoding.encodedLength (((f.decoded content).units.drop first).take k) := by
    obtain ⟨unit, hu, hlow⟩ := hr
    obtain ⟨hlt, hget⟩ := List.getElem?_eq_some_iff.1 hu
    obtain ⟨k, rfl⟩ : ∃ j, k = j + 1 := ⟨k - 1, by omega⟩
    rw [List.drop_eq_getElem_cons hlt, hget, List.take_succ_cons, Encoding.encodedLength_cons]
    exact Nat.lt_of_lt_of_le (f.encoding.byteLength_pos hlow) (Nat.le_add_right _ _)
  rw [byteOf_add]
  constructor
  · intro hk
    have := f.encoding.encodedLength_take_le ((f.decoded content).units.drop first) hk
    have := h.fits
    omega
  · intro hk
    exact h.greatest k hle (by omega)

/-! ## Lookups -/

theorem Matches.openAt_cut (hf : f.Matches content) (hr : f.Readable content first)
    (kept buffer : Nat) :
    ∃ r text n, TextReader.openAt (.ofFile (content.take kept)) f.encoding
        (f.byteOf content first) buffer = .ok r ∧ r.Shows f.encoding text ∧
      r.position = f.byteOf content first ∧ text.ending ≠ .malformed ∧
      text.units = ((f.decoded content).units.drop first).take n ∧
      f.encoding.Fits ((f.decoded content).units.drop first) (kept - f.byteOf content first) n := by
  obtain ⟨r, hopen, hshows, hpos⟩ := openAt_ofFile
    (Nat.lt_of_lt_of_le (hf.byteOf_lt hr) hf.limit) (content.take kept) f.encoding buffer
  have hdecoded := decodeAll_byteOf hr
  have hc : (f.encoding.decodeAll (content.drop (f.byteOf content first))).ending = .complete := by
    rw [hdecoded]
    exact hf.complete
  obtain ⟨n, hfits, hunits, hne⟩ :=
    Encoding.decodeAll_take hc (kept - f.byteOf content first)
  rw [← List.drop_take] at hunits hne
  rw [hdecoded] at hfits hunits
  exact ⟨r, _, n, hopen, hshows, hpos, hne, hunits, hfits⟩

/-- How a lookup ends for a target that starts at `start`, after it has read on from
`origin`. -/
inductive CutOff (f : IndexedFile) (content : List UInt8) (kept : Nat) (target : Target)
    (start origin : Nat) : Except AccessError TextReader → Prop
  | found (r : TextReader) (h : f.byteOf content (target.reach start) ≤ kept)
    (hr : r.position = f.byteOf content start) : CutOff f content kept target start origin (.ok r)
  | missing (position : Nat) (h : kept < f.byteOf content (target.reach start))
    (hlast : origin ≤ kept → f.LastBoundary content kept position)
    (horigin : kept < origin → position = origin) :
    CutOff f content kept target start origin
      (.error (.truncated target.kind target.number position))

theorem Matches.seek_cut (hf : f.Matches content)
    (hs : target.start? (f.decoded content).units = some start)
    (hbehind : (f.anchor target).ordinal < target.number) (kept buffer : Nat) :
    f.CutOff content kept target start (f.anchor target).position
      (f.seek (.ofFile (content.take kept)) target buffer) := by
  obtain ⟨first, hfirst, hreadable, hpos⟩ := hf.anchor_leads hs
  obtain ⟨r, text, n, hopen, hshows, hr, hm, hunits, hfits⟩ := hf.openAt_cut hreadable kept buffer
  obtain ⟨rest, rfl, hrest⟩ := Target.start?_drop hfirst (f.anchor_le target) hs
  rw [← hpos] at hopen
  have hreached := Target.reached?_take hrest n
  rw [← hunits, Target.reach_renumber] at hreached
  have hmore : 0 < target.reach rest := by
    have hnumber : 0 < (target.renumber (target.number - (f.anchor target).ordinal)).number := by
      rw [Target.number_renumber]
      omega
    simpa using Target.reach_pos hrest hnumber
  have hin : target.reach rest ≤ ((f.decoded content).units.drop first).length := by
    simpa using Target.reach_le hrest
  have hleft := le_iff_of_fits hreadable hfits hmore hin
  rw [← Target.reach_add] at hleft
  by_cases hn : target.reach rest ≤ n
  · rw [if_pos hn] at hreached
    obtain ⟨next, hskip, hmoves⟩ := skipTo_shows hshows hreached
    have hnext : next.position = f.byteOf content (first + rest) := by
      rw [hmoves.position_eq, hr, hunits, List.take_take,
        Nat.min_eq_left (Nat.le_trans (target.le_reach rest) hn), byteOf_add]
    rw [seek_eq hopen hskip]
    exact .found next (hleft.1 hn) hnext
  · rw [if_neg hn] at hreached
    obtain ⟨outcome, next, hskip, hran⟩ :=
      skipTo_runsOut hshows hm (Nat.sub_pos_of_lt hbehind) hreached
    have hseek : f.seek (.ofFile (content.take kept)) target buffer =
        .error (.truncated target.kind target.number next.position) := by
      rw [seek_eq hopen hskip]
      rcases hran.ends with ⟨value, rfl, rfl⟩ | ⟨⟨position, rfl⟩, hend⟩
      · rfl
      · exact if_pos hend
    have hnext : next.position = f.byteOf content (first + n) := by
      rw [hran.moves.position_eq, hr, List.take_length, hunits, byteOf_add]
    rw [hseek, hnext]
    refine .missing _ (Nat.lt_of_not_le (mt hleft.2 hn)) ?_ ?_
    · intro hle
      rw [hpos] at hle
      exact lastBoundary_of_fits (Nat.le_of_lt (Target.start?_lt hfirst)) hle hfits
    · intro hlt
      have := hfits.fits
      rw [hpos, byteOf_add]
      omega

theorem Matches.seek_indexed (hf : f.Matches content)
    (hs : target.start? (f.decoded content).units = some start)
    (hat : (f.anchor target).ordinal = target.number) (kept buffer : Nat) :
    ∃ r, f.seek (.ofFile (content.take kept)) target buffer = .ok r ∧
      r.position = f.byteOf content start := by
  obtain ⟨first, hfirst, hreadable, hpos⟩ := hf.anchor_leads hs
  rw [hat, Target.renumber_number, hs, Option.some.injEq] at hfirst
  obtain ⟨r, -, -, hopen, -, hr, -⟩ := hf.openAt_cut hreadable kept buffer
  have hskip : skipTo r target (target.number - (f.anchor target).ordinal) = (.ok true, r) := by
    rw [hat, Nat.sub_self]
    exact skipTo_zero r target
  rw [← hpos] at hopen
  exact ⟨r, seek_eq hopen hskip, by rw [hr, hfirst]⟩

theorem Matches.readerAt_cut (hf : f.Matches content)
    (hs : target.start? (f.decoded content).units = some start) (kept buffer : Nat) :
    (∃ r, f.readerAt (.ofFile (content.take kept)) target buffer = .ok r ∧
        r.position = f.byteOf content start) ∨
      ∃ position, f.readerAt (.ofFile (content.take kept)) target buffer =
        .error (.truncated target.kind target.number position) := by
  have hn : target.number < f.count target := by
    rw [hf.count_eq]
    exact Target.number_lt hs
  rw [readerAt_of_lt hn]
  rcases Nat.lt_or_eq_of_le (f.anchor_le target) with hlt | hat
  · have hcut := hf.seek_cut hs hlt kept buffer
    generalize f.seek (.ofFile (content.take kept)) target buffer = answer at hcut
    cases hcut with
    | found r h hr => exact .inl ⟨r, rfl, hr⟩
    | missing position => exact .inr ⟨position, rfl⟩
  · exact .inl (hf.seek_indexed hs hat kept buffer)

/-- Every character and every line of a file that was indexed is still found after
the file has been cut off behind any number of bytes, if it is indexed or left;
otherwise it is reported as truncated, at the last boundary that is left or at the
nearest indexed place. -/
theorem lookup_truncated {config : Config} {path : String} {encoding : Encoding}
    (hl : content.length ≤ Source.offsetLimit)
    (hb : build path encoding config (.ok (.file content)) = .ok f) (kept : Nat)
    (target : Target) :
    let cut := Source.ofFile (content.take kept)
    f.encoding = encoding ∧ f.index.dataStart = config.headerSkip ∧
    (f.count target ≤ target.number → f.positionOf cut target =
      .error (.outOfRange target.kind target.number (f.count target))) ∧
    (target.number < f.count target →
      ∃ start, target.start? (f.decoded content).units = some start ∧
        f.positionOf (.ofFile content) target = .ok (f.byteOf content start) ∧
        (∀ e ∈ (f.entries target).toList, e.ordinal = target.number →
          e.position = f.byteOf content start ∧ f.positionOf cut target = .ok e.position) ∧
        ((∀ e ∈ (f.entries target).toList, e.ordinal ≠ target.number) →
          (f.byteOf content (target.reach start) ≤ kept →
            f.positionOf cut target = .ok (f.byteOf content start)) ∧
          (kept < f.byteOf content (target.reach start) → ∃ e position,
            (f.entries target).IsNearest target.number e ∧
            f.positionOf cut target =
              .error (.truncated target.kind target.number position) ∧
            (e.position ≤ kept → f.LastBoundary content kept position) ∧
            (kept < e.position → position = e.position))) ∧
        ∀ buffer, (∃ r, f.readerAt cut target buffer = .ok r ∧
            r.position = f.byteOf content start) ∨
          ∃ position, f.readerAt cut target buffer =
            .error (.truncated target.kind target.number position)) := by
  intro cut
  obtain ⟨hf, hencoding, hstart⟩ := build_matched hl hb
  have hordered := build_ordered hl hb
  refine ⟨hencoding, hstart, fun h => ?_, fun h => ?_⟩
  · have hrange := hf.outOfRange (hf.count_eq target ▸ h)
    rw [← hf.count_eq] at hrange
    simp only [positionOf, hrange, bind, Except.bind]
  have hrange := (f.checkRange_iff target).2 h
  obtain ⟨start, hs⟩ := Target.start?_isSome (hf.count_eq target ▸ h)
  refine ⟨start, hs, hf.positionOf_eq hs, ?_, fun hnone => ?_, hf.readerAt_cut hs kept⟩
  · intro e he hn
    obtain ⟨first, hfirst, -, hpos⟩ := hf.entry_leads he
    rw [hn, Target.renumber_number, hs, Option.some.injEq] at hfirst
    have hp := (hordered.ascends target).position?_of_mem he
    rw [hn] at hp
    exact ⟨by rw [hpos, hfirst], positionOf_of_indexed h hp cut⟩
  · have hp : (f.entries target).position? target.number = none := by
      refine Option.eq_none_iff_forall_ne_some.2 fun position hp => ?_
      exact hnone _ (SparseIndex.mem_of_position? hp) rfl
    obtain ⟨e, hn, hnearest⟩ := (hordered.ascends target).exists_isNearest
      (hordered.first target (Nat.zero_lt_of_lt h)) (Nat.zero_le target.number)
    have hanchor : f.anchor target = e := by rw [anchor, hn]; rfl
    have hlt : e.ordinal < target.number :=
      Nat.lt_of_le_of_ne hnearest.le (hnone e hnearest.mem)
    have hcut := hf.seek_cut hs (hanchor ▸ hlt) kept f.config.readerBuffer
    rw [hanchor] at hcut
    have hposition : f.positionOf cut target =
        (f.seek cut target f.config.readerBuffer).map TextReader.position := by
      simp only [positionOf, hrange, hp, bind, Except.bind]
      cases f.seek cut target f.config.readerBuffer <;> rfl
    rw [hposition]
    generalize f.seek cut target f.config.readerBuffer = answer at hcut
    cases hcut with
    | found r hle hr =>
      exact ⟨fun _ => by rw [Except.map, hr], fun hgt => absurd hle (Nat.not_le.2 hgt)⟩
    | missing position hgt hlast horigin =>
      exact ⟨fun hle => absurd hle (Nat.not_le.2 hgt),
        fun _ => ⟨e, position, hnearest, rfl, hlast, horigin⟩⟩

/-- A cut inside the three bytes of the character that starts the second line, of
which there is no entry. -/
theorem lookup_truncated_euro :
    ∃ f, build "notes.txt" .utf8 { maxCharEntries := 1, maxLineEntries := 1 }
        (.ok (.file [0x61, 0x0D, 0x0A, 0xE2, 0x82, 0xAC])) = .ok f ∧
      let cut := Source.ofFile [0x61, 0x0D, 0x0A, 0xE2, 0x82]
      f.positionOf cut (.character 3) = .ok 3 ∧
      f.positionOf cut (.line 1) = .error (.truncated .line 1 3) := by
  have htext : Encoding.utf8.decodeAll [0x61, 0x0D, 0x0A, 0xE2, 0x82, 0xAC] =
      ⟨[0x61, 0x0D, 0x0A, 0x20AC], 6, .complete⟩ := by decide +kernel
  have hvalid : ({ maxCharEntries := 1, maxLineEntries := 1 } : Config).fault? = none := by decide
  have hl : [0x61, 0x0D, 0x0A, 0xE2, 0x82, 0xAC].length ≤ Source.offsetLimit := by decide
  obtain ⟨f, hb, hf, hencoding, hstart⟩ := build_matches "notes.txt" .utf8 hvalid (Nat.zero_le _) hl
    (by rw [List.drop_zero, htext])
  have hdecoded : f.decoded [0x61, 0x0D, 0x0A, 0xE2, 0x82, 0xAC] =
      ⟨[0x61, 0x0D, 0x0A, 0x20AC], 6, .complete⟩ := by
    rw [decoded, hencoding, hstart, List.drop_zero, htext]
  have hbyte (unit : Nat) : f.byteOf [0x61, 0x0D, 0x0A, 0xE2, 0x82, 0xAC] unit =
      Encoding.utf8.encodedLength ([0x61, 0x0D, 0x0A, 0x20AC].take unit) := by
    rw [byteOf, hencoding, hstart, hdecoded, Nat.zero_add]
  have hconfig := (build_keeps hb).2.2
  have hordered := build_ordered hl hb
  have hcount (target : Target) : f.count target = target.total [0x61, 0x0D, 0x0A, 0x20AC] := by
    rw [hf.count_eq, hdecoded]
  -- there is room for the first entry only
  have honly (target : Target) (hpos : 0 < f.count target) :
      ∀ e ∈ (f.entries target).toList, e = ⟨0, 0⟩ := by
    intro e he
    have hc := hordered.chars_size_le
    have hl := hordered.lines_size_le
    rw [hconfig] at hc hl
    have hsize : (f.entries target).size ≤ 1 := by
      cases target with
      | character n => exact hc
      | line n => exact hl
    rw [hordered.eq_first hsize hpos he, hstart]
  refine ⟨f, hb, ?_, ?_⟩
  · have hin : 0 < f.count (.character 3) := by rw [hcount]; decide
    obtain ⟨start, hs, -, -, hrest, -⟩ := (lookup_truncated hl hb 5 (.character 3)).2.2.2 (by
      rw [hcount]; decide)
    rw [hdecoded] at hs
    obtain rfl : 3 = start := Option.some.inj hs
    have h := (hrest fun e he => by rw [honly _ hin e he]; decide).1
    rw [hbyte, hbyte] at h
    exact h (by decide)
  · have hin : 0 < f.count (.line 1) := by rw [hcount]; decide
    obtain ⟨start, hs, -, -, hrest, -⟩ := (lookup_truncated hl hb 5 (.line 1)).2.2.2 (by
      rw [hcount]; decide)
    rw [hdecoded] at hs
    obtain rfl : 3 = start := Option.some.inj hs
    obtain ⟨e, position, he, hanswer, hlast, -⟩ :=
      (hrest fun e he => by rw [honly _ hin e he]; decide).2 (by rw [hbyte]; decide)
    obtain ⟨⟨unit, hunit, -, rfl⟩, hle, hgreatest⟩ := hlast (by
      rw [honly _ hin e he.mem]; decide)
    -- of the boundaries 0, 1, 2, 3 and 6 it is the last one that is left
    have hboundary : f.Boundary [0x61, 0x0D, 0x0A, 0xE2, 0x82, 0xAC] 3 := by
      refine ⟨3, by rw [hdecoded]; decide, fun u hu => ?_, by rw [hbyte]; decide⟩
      rw [hdecoded] at hu
      rw [← Option.some.inj hu]
      decide
    have hge := hgreatest 3 hboundary (by decide)
    rw [hdecoded] at hunit
    rw [hbyte] at hle hge hanswer
    have hunit : unit ≤ 4 := hunit
    have hthree : Encoding.utf8.encodedLength ([0x61, 0x0D, 0x0A, 0x20AC].take unit) = 3 := by
      obtain rfl | rfl | rfl | rfl | rfl :
        unit = 3 ∨ unit = 0 ∨ unit = 1 ∨ unit = 2 ∨ unit = 4 := by omega
      · decide
      · exact absurd hge (by decide)
      · exact absurd hge (by decide)
      · exact absurd hge (by decide)
      · exact absurd hle (by decide)
    rw [hthree] at hanswer
    exact hanswer

end IndexedFile
end TextSeek

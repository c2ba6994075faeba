import TextSeek.Proofs.File.Truncation

/-!
# Lookups in a file whose front is unchanged

A reader decodes ahead of its target, so it looks at bytes that have nothing to do
with the answer. Whatever these have become, or if they are gone, the answer is the
same as long as the bytes up to the target are those that were indexed. In
particular, a file to which anything at all is appended goes on to answer as before.

Results:
* `Target.reached?_append`: more text hides no target.
* `Matches.stretch_kept`: the way to a target rests on the bytes in front of it.
* `lookup_stable`: what all lookups answer.
-/
namespace TextSeek

theorem Target.reached?_append {target : Target} {text : List UInt16} {start : Nat}
    (h : target.reached? text = some start) (more : List UInt16) :
    target.reached? (text ++ more) = some start := by
  cases target with
  | character n =>
    simp only [reached?, Option.ite_none_right_eq_some, Option.some.injEq] at h ⊢
    rw [List.length_append]
    exact ⟨by omega, h.2⟩
  | line n =>
    have hlt := (List.getElem?_eq_some_iff.1 h).1
    show (lineStarts (text ++ more))[n]? = some start
    rw [lineStarts_append, List.getElem?_append_left hlt]
    exact h

namespace IndexedFile

variable {f : IndexedFile} {content later : List UInt8} {target : Target} {start kept : Nat}

theorem decodeAll_of_agrees {encoding : Encoding} {bytes : List UInt8} {width : Nat}
    {front : List UInt16}
    (h : encoding.decodeAll (bytes.take width) = ⟨front, width, .complete⟩)
    (hagree : later.take width = bytes.take width) :
    ∃ more, (encoding.decodeAll later).units = front ++ more := by
  have happend := Encoding.decodeAll_append_of_complete
    (show (encoding.decodeAll (later.take width)).ending = .complete by rw [hagree, h])
    (later.drop width)
  rw [List.take_append_drop, hagree, h] at happend
  rw [happend]
  exact ⟨_, rfl⟩

theorem take_drop_of_take {a b : List UInt8} (h : a.take kept = b.take kept) {place width : Nat}
    (hle : place + width ≤ kept) : (a.drop place).take width = (b.drop place).take width := by
  have hfront : a.take (place + width) = b.take (place + width) := by
    rw [← Nat.min_eq_left hle, ← List.take_take, ← List.take_take, h]
  have hbehind := congrArg (List.drop place) hfront
  rwa [List.drop_take, List.drop_take, Nat.add_sub_cancel_left] at hbehind

/-- Where the bytes up to a target have stayed the same, a lookup finds it, and where it
was. -/
theorem Matches.stretch_kept (hf : f.Matches content)
    (hs : target.start? (f.decoded content).units = some start)
    (hagree : later.take kept = content.take kept)
    (hkept : f.byteOf content (target.reach start) ≤ kept) :
    ∃ n, f.stretch? later target = some n ∧
      f.aheadByte later target n = f.byteOf content start := by
  obtain ⟨first, hfirst, hreadable, hpos⟩ := hf.anchor_leads hs
  obtain ⟨rest, rfl, hrest⟩ := Target.start?_drop hfirst (f.anchor_le target) hs
  unfold stretch?
  split
  · next hge =>
    -- the target is its own anchor
    have hzero : rest = 0 := by
      rw [Nat.sub_eq_zero_of_le hge] at hrest
      have hne : (f.decoded content).units.drop first ≠ [] :=
        List.ne_nil_of_length_pos (Nat.lt_of_le_of_lt (Nat.zero_le _) (Target.start?_lt hrest))
      exact Option.some.inj (hrest.symm.trans (Target.start?_zero hne))
    refine ⟨0, rfl, ?_⟩
    rw [hzero, Nat.add_zero, ← hpos]
    rfl
  · have hdecoded := decodeAll_byteOf hreadable
    have hreach : target.reach rest ≤ ((f.decoded content).units.drop first).length := by
      simpa using Target.reach_le hrest
    rw [Target.reach_add, byteOf_add] at hkept
    have hc : (f.encoding.decodeAll (content.drop (f.byteOf content first))).ending = .complete := by
      rw [hdecoded]
      exact hf.complete
    obtain ⟨n, hn, hfront⟩ := Encoding.decodeAll_front (m := target.reach rest) hc (by
      rw [hdecoded]
      exact hreach)
    rw [hdecoded] at hfront
    obtain ⟨more, hahead⟩ := decodeAll_of_agrees hfront (take_drop_of_take hagree hkept)
    rw [← hpos] at hahead
    have hrestn : rest ≤ n := Nat.le_trans (target.le_reach rest) hn
    have hreached := Target.reached?_take hrest n
    rw [Target.reach_renumber, if_pos hn] at hreached
    refine ⟨rest, ?_, ?_⟩
    · rw [ahead, hahead]
      exact Target.reached?_append hreached more
    · have hlen : rest ≤ (((f.decoded content).units.drop first).take n).length := by
        rw [List.length_take]
        have := Nat.le_of_lt (Target.start?_lt hrest)
        omega
      rw [aheadByte, ahead, hahead, byteOf_add, hpos]
      simp only [WholeText.behind]
      rw [List.take_append_of_le_length hlen, List.take_take, Nat.min_eq_left hrestn]

/-! ## Answers -/

/-- Both ways of asking for a target lead to the byte, the one that answers with a reader
with any buffer. -/
structure Answers (f : IndexedFile) (file : Source) (target : Target) (byte : Nat) : Prop where
  position : f.positionOf file target = .ok byte
  reader : ∀ buffer, ∃ r, f.readerAt file target buffer = .ok r ∧ r.position = byte

theorem Matches.answers (hf : f.Matches content) (ho : f.Ordered)
    (hs : target.start? (f.decoded content).units = some start)
    (hagree : later.take kept = content.take kept)
    (hkept : f.byteOf content (target.reach start) ≤ kept) :
    f.Answers (.ofFile later) target (f.byteOf content start) := by
  have hn : target.number < f.count target := by
    rw [hf.count_eq]
    exact Target.number_lt hs
  have hopens := hf.anchor_lt hn
  obtain ⟨n, hstretch, hbyte⟩ := hf.stretch_kept hs hagree hkept
  rw [← hbyte]
  refine ⟨positionOf_found ho hn hopens hstretch, ?_⟩
  intro buffer
  obtain ⟨r, hr, -, hpos⟩ := seek_found hopens hstretch buffer
  exact ⟨r, by rw [readerAt_of_lt hn, hr], hpos⟩

theorem Matches.byteOf_le_length (hf : f.Matches content) (n : Nat) :
    f.byteOf content n ≤ content.length := by
  have hall := f.encoding.decodeAll_encodedLength (content.drop f.index.dataStart)
  rw [Encoding.consumed_of_complete hf.complete, List.length_drop] at hall
  have hle := Encoding.encodedLength_take_le f.encoding (f.decoded content).units
    (Nat.le_max_left n (f.decoded content).units.length)
  rw [List.take_of_length_le (Nat.le_max_right _ _)] at hle
  have := hf.start_le
  unfold byteOf
  unfold decoded at hle ⊢
  omega

/-- Every character and every line of a file that was indexed is found at its byte as
long as the file has kept the bytes in front of it, for a line those of its first
character, too. What stands behind them does not matter; so nothing that is appended to
the file changes an answer. -/
theorem lookup_stable {config : Config} {path : String} {encoding : Encoding}
    (hl : content.length ≤ Source.offsetLimit)
    (hb : build path encoding config (.ok (.file content)) = .ok f)
    (hn : target.number < f.count target) :
    f.encoding = encoding ∧ f.index.dataStart = config.headerSkip ∧
    ∃ start, target.start? (f.decoded content).units = some start ∧
      f.Answers (.ofFile content) target (f.byteOf content start) ∧
      (∀ later kept, later.take kept = content.take kept →
        f.byteOf content (target.reach start) ≤ kept →
        f.Answers (.ofFile later) target (f.byteOf content start)) ∧
      ∀ more, f.Answers (.ofFile (content ++ more)) target (f.byteOf content start) := by
  obtain ⟨hf, hencoding, hstart⟩ := build_matched hl hb
  have ho := build_ordered hl hb
  obtain ⟨start, hs⟩ := Target.start?_isSome (hf.count_eq target ▸ hn)
  have hall := hf.byteOf_le_length (target.reach start)
  refine ⟨hencoding, hstart, start, hs, hf.answers ho hs rfl hall,
    fun later kept hagree hkept => hf.answers ho hs hagree hkept, ?_⟩
  intro more
  apply hf.answers ho hs _ hall
  rw [List.take_left, List.take_length]

/-- A file of which one byte is left and another one malformed, and a file to which
malformed bytes are appended. -/
theorem lookup_stable_overwritten :
    ∃ f, build "notes.txt" .utf8 { maxCharEntries := 1, maxLineEntries := 1 }
        (.ok (.file [0x61, 0x0D, 0x0A, 0x62])) = .ok f ∧
      f.Answers (.ofFile [0x61, 0xFF]) (.character 1) 1 ∧
      f.Answers (.ofFile [0x61, 0x0D, 0x0A, 0x62, 0xC3, 0x28]) (.line 1) 3 := by
  have htext : Encoding.utf8.decodeAll [0x61, 0x0D, 0x0A, 0x62] =
      ⟨[0x61, 0x0D, 0x0A, 0x62], 4, .complete⟩ := by decide +kernel
  have hvalid : ({ maxCharEntries := 1, maxLineEntries := 1 } : Config).fault? = none := by decide
  have hl : [0x61, 0x0D, 0x0A, 0x62].length ≤ Source.offsetLimit := by decide
  obtain ⟨f, hb, -, -, hcount, hdecoded, hbyte⟩ :=
    build_plain "notes.txt" hvalid rfl hl htext rfl
  refine ⟨f, hb, ?_, ?_⟩
  · have hin : (Target.character 1).number < f.count (.character 1) := by rw [hcount]; decide
    obtain ⟨-, -, start, hs, -, hkept, -⟩ := lookup_stable hl hb hin
    rw [hdecoded] at hs
    obtain rfl : 1 = start := Option.some.inj hs
    have h := hkept [0x61, 0xFF] 1 rfl (by rw [hbyte]; decide)
    rw [hbyte] at h
    exact h
  · have hin : (Target.line 1).number < f.count (.line 1) := by rw [hcount]; decide
    obtain ⟨-, -, start, hs, -, -, hmore⟩ := lookup_stable hl hb hin
    rw [hdecoded] at hs
    obtain rfl : 3 = start := Option.some.inj hs
    have h := hmore [0xC3, 0x28]
    rw [hbyte] at h
    exact h

end IndexedFile
end TextSeek

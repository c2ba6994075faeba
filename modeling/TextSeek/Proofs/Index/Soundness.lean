import TextSeek.Proofs.Index.Growth

/-!
# The index of a source

A run over a source that brings all its bytes ends in one of two ways. If the
bytes behind the header decode, there is an index, and what it says of the text
is true (`TextIndex.Describes`); if they do not, the run fails at the first
place where they do not. The shape of the index, its order, its size and its
first entries, does not rest on how the shares of partitions are rounded.

Results:
* `sourcePartitions_complete`, `buildIndexBy_partitions`: the partitions of a source, and a run
  over them.
* `buildIndexBy_complete`, `buildIndexBy_malformed`: how a run ends.
* `buildIndex_sound`: what the index says, and where a run fails.
* `buildIndexBy_ordered`, `buildIndexBy_shape`: order, size and first entries.
-/
namespace TextSeek

/-- The source tells the true length of `content` and brings all its bytes from
`start` on; reads may be short, and may be interrupted. -/
structure Source.Brings (source : Source) (content : List UInt8) (start : Nat) : Prop where
  length_eq : source.length = .ok content.length
  opens : start < content.length → ∃ stream, source.openAt start = .ok stream ∧
    stream.rest = content.drop start ∧ stream.Steady

namespace Source

theorem steady_of_faultless {stream : ByteStream} (h : stream.faults = []) : stream.Steady := by
  intro k _
  rw [h]
  exact .inl rfl

theorem ofFile_brings {content : List UInt8} (h : content.length ≤ offsetLimit) (start : Nat) :
    (ofFile content).Brings content start where
  length_eq := rfl
  opens ho := ⟨_, if_neg (by omega), rfl, steady_of_faultless rfl⟩

theorem ofMap_brings (content : List UInt8) (start : Nat) :
    (ofMap content).Brings content start where
  length_eq := rfl
  opens _ := ⟨_, rfl, rfl, steady_of_faultless rfl⟩

/-- A file is brought whole, whichever way it is read. -/
theorem choose_brings {content : List UInt8} (h : content.length ≤ offsetLimit)
    (strategy : ReadStrategy) (start : Nat) :
    ∃ source, choose (.ok (.file content)) strategy = .ok source ∧
      source.Brings content start := by
  cases strategy with
  | buffered => exact ⟨_, rfl, ofFile_brings h start⟩
  | mapped =>
    cases content with
    | nil => exact ⟨_, rfl, ofFile_brings h start⟩
    | cons b rest => exact ⟨_, rfl, ofMap_brings (b :: rest) start⟩

end Source

/-! ## How a run ends -/

variable (rule : Budget → UInt64 → Float) {config : Config} (encoding : Encoding)
  {source : Source} {content : List UInt8}

/-- The partitions that a run over `source` indexes one after another. If nothing stands
behind the header there are none. -/
def sourcePartitions (config : Config) (encoding : Encoding) (source : Source) :
    Except AccessError (List Partition) := do
  let size ← liftIo source.length
  if size = config.headerSkip then return []
  let stream ← liftIo (source.openAt config.headerSkip)
  partitions (.start stream encoding config.headerSkip
    (min config.indexBuffer (size - config.headerSkip))) config.partitionUnits

theorem sourcePartitions_empty (hl : source.length = .ok config.headerSkip) :
    sourcePartitions config encoding source = .ok [] := by
  simp only [sourcePartitions, hl, liftIo_ok, bind, Except.bind, if_true, pure, Except.pure]

theorem sourcePartitions_run (hs : source.Brings content config.headerSkip)
    (hh : config.headerSkip < content.length) :
    ∃ d : Decoder, d.Steady ∧ d.encoding = encoding ∧ d.position = config.headerSkip ∧
      d.rest = content.drop config.headerSkip ∧
      sourcePartitions config encoding source = partitions d config.partitionUnits := by
  obtain ⟨stream, hopen, hrest, hsteady⟩ := hs.opens hh
  refine ⟨_, Decoder.start_steady hsteady encoding config.headerSkip
    (min config.indexBuffer (content.length - config.headerSkip)), rfl, rfl, ?_, ?_⟩
  · rw [← hrest]
    rfl
  · have hsome : ¬ content.length = config.headerSkip := by omega
    simp only [sourcePartitions, hs.length_eq, liftIo_ok, bind, Except.bind, if_neg hsome, hopen]

theorem sourcePartitions_complete (hs : source.Brings content config.headerSkip)
    (hh : config.headerSkip ≤ content.length)
    (hc : (encoding.decodeAll (content.drop config.headerSkip)).ending = .complete) :
    ∃ parts, sourcePartitions config encoding source = .ok parts ∧
      Segments encoding config.partitionUnits none
        (encoding.decodeAll (content.drop config.headerSkip)).units parts := by
  rcases Nat.lt_or_eq_of_le hh with hlt | heq
  · obtain ⟨d, hsteady, rfl, -, hrest, hrun⟩ := sourcePartitions_run encoding hs hlt
    rw [← hrest] at hc ⊢
    rw [hrun]
    exact partitions_complete hsteady config.partitionUnits hc
  · refine ⟨[], sourcePartitions_empty encoding (by rw [heq]; exact hs.length_eq), ?_⟩
    rw [heq, List.drop_length, Encoding.decodeAll_nil]
    exact .nil none

theorem buildIndexBy_empty (hv : config.fault? = none)
    (hl : source.length = .ok config.headerSkip) :
    buildIndexBy rule config encoding source = .ok (.empty config.headerSkip) := by
  simp [buildIndexBy, Config.validate, hv, hl, liftIo_ok, bind, Except.bind, pure, Except.pure]

theorem buildIndexBy_partitions {size : Nat} (hv : config.fault? = none)
    (hl : source.length = .ok size) (hle : config.headerSkip ≤ size) :
    buildIndexBy rule config encoding source =
      (sourcePartitions config encoding source).bind
        (indexPartitionsBy rule config encoding (size - config.headerSkip)) := by
  have hbeyond : ¬ size < config.headerSkip := Nat.not_lt.2 hle
  by_cases heq : size = config.headerSkip
  · subst heq
    rw [buildIndexBy_empty rule encoding hv hl, sourcePartitions_empty encoding hl]
    rfl
  · have hsome : ¬ size - config.headerSkip = 0 := by omega
    simp only [buildIndexBy, sourcePartitions, Config.validate, hv, hl, liftIo_ok, bind,
      Except.bind, if_neg hbeyond, if_neg hsome, if_neg heq]
    cases liftIo (source.openAt config.headerSkip) <;> rfl

theorem buildIndexBy_run (hv : config.fault? = none) (hs : source.Brings content config.headerSkip)
    (hh : config.headerSkip < content.length) :
    ∃ d : Decoder, d.Steady ∧ d.encoding = encoding ∧ d.position = config.headerSkip ∧
      d.rest = content.drop config.headerSkip ∧
      buildIndexBy rule config encoding source =
        (partitions d config.partitionUnits).bind
          (indexPartitionsBy rule config encoding (content.length - config.headerSkip)) := by
  obtain ⟨d, hsteady, hencoding, hposition, hrest, hrun⟩ := sourcePartitions_run encoding hs hh
  refine ⟨d, hsteady, hencoding, hposition, hrest, ?_⟩
  rw [buildIndexBy_partitions rule encoding hv hs.length_eq (Nat.le_of_lt hh), hrun]

/-- The units behind the header are cut into segments and indexed one after
another. -/
theorem buildIndexBy_complete (hv : config.fault? = none)
    (hs : source.Brings content config.headerSkip) (hh : config.headerSkip ≤ content.length)
    (hc : (encoding.decodeAll (content.drop config.headerSkip)).ending = .complete) :
    ∃ parts, Segments encoding config.partitionUnits none
        (encoding.decodeAll (content.drop config.headerSkip)).units parts ∧
      buildIndexBy rule config encoding source =
        .ok ((parts.foldl (Indexing.grow rule encoding)
          (.start config (content.length - config.headerSkip))).draft.finish
            config.headerSkip parts) := by
  obtain ⟨parts, hparts, hseg⟩ := sourcePartitions_complete encoding hs hh hc
  refine ⟨parts, hseg, ?_⟩
  rw [buildIndexBy_partitions rule encoding hv hs.length_eq hh, hparts]
  exact indexPartitionsBy_eq rule config encoding _ parts

theorem buildIndexBy_malformed (hv : config.fault? = none)
    (hs : source.Brings content config.headerSkip) (hh : config.headerSkip ≤ content.length)
    (hc : (encoding.decodeAll (content.drop config.headerSkip)).ending ≠ .complete) :
    buildIndexBy rule config encoding source = .error (.malformed encoding
      (config.headerSkip + (encoding.decodeAll (content.drop config.headerSkip)).consumed)) := by
  rcases Nat.lt_or_eq_of_le hh with hlt | heq
  · obtain ⟨d, hsteady, rfl, hpos, hrest, hrun⟩ :=
      buildIndexBy_run rule encoding hv hs hlt
    rw [← hrest] at hc ⊢
    rw [hrun, partitions_malformed hsteady config.partitionUnits hc, hpos]
    rfl
  · rw [heq, List.drop_length, Encoding.decodeAll_nil] at hc
    exact absurd rfl hc

/-! ## What the index says -/

/-- What an index says of a text that starts at the byte `dataStart` is true. -/
structure TextIndex.Describes (index : TextIndex) (encoding : Encoding) (dataStart : Nat)
    (text : List UInt16) : Prop where
  totalChars_eq : index.totalChars = text.length
  totalLines_eq : index.totalLines = (lineStarts text).length
  dataStart_eq : index.dataStart = dataStart
  dataEnd_eq : index.dataEnd = dataStart + encoding.encodedLength text
  /-- An entry for a character leads to one that is no second half of a pair. -/
  chars : ∀ e ∈ index.chars.toList, ∃ unit, text[e.ordinal]? = some unit ∧
    CodeUnit.isLowSurrogate unit = false ∧
    e.position = dataStart + encoding.encodedLength (text.take e.ordinal)
  /-- An entry for a line leads to its first unit. -/
  lines : ∀ e ∈ index.lines.toList, ∃ start, (lineStarts text)[e.ordinal]? = some start ∧
    e.position = dataStart + encoding.encodedLength (text.take start)

theorem countLines_eq (text : List UInt16) :
    countLines (lineEnds text none) text.getLast? = (lineStarts text).length := by
  rw [lineStarts_length]
  cases hl : text.getLast? with
  | none => rw [List.getLast?_eq_none_iff.1 hl]; rfl
  | some last =>
    have hnone : ¬ (last = carriageReturn ∧ none = some lineFeed) := fun h => nomatch h.2
    simp only [countLines, Option.all_some, endsLine_eq hnone]
    split <;> rfl

theorem Segments.describes {limit : Nat} {text : List UInt16} {parts : List Partition}
    (h : Segments encoding limit none text parts) (dataBytes : Nat) :
    ((parts.foldl (Indexing.grow rule encoding) (.start config dataBytes)).draft.finish
      config.headerSkip parts).Describes encoding config.headerSkip text := by
  obtain ⟨hoff, ⟨chars, hchars, hcs⟩, ⟨lines, hlines, hls⟩⟩ :=
    h.grown rule (.start config dataBytes)
  have hc0 : (Indexing.start config dataBytes).draft.chars.toList = [] := rfl
  have hl0 : (Indexing.start config dataBytes).draft.lines.toList = [] := rfl
  rw [hc0, List.nil_append] at hchars
  rw [hl0, List.nil_append] at hlines
  simp only [Draft.finish, hoff, h.getLast?]
  refine ⟨Nat.zero_add _, ?_, rfl, rfl, ?_, ?_⟩
  · show countLines (0 + _) _ = _
    rw [Nat.zero_add, countLines_eq]
  · intro e he
    rw [hchars] at he
    obtain ⟨m, hm, rfl⟩ := List.mem_map.1 (hcs.subset he)
    obtain ⟨i, unit, hu, hlow, hentry⟩ := Kind.mem_charMarks hm
    rw [hentry]
    simp only [Indexing.start, Entry.shift, Nat.zero_add]
    exact ⟨unit, hu, hlow, trivial⟩
  · intro e he
    rw [hlines] at he
    obtain ⟨m, hm, rfl⟩ := List.mem_map.1 (hls.subset he)
    obtain ⟨n, i, hn, hentry⟩ := Kind.mem_lineMarks hm
    rw [hentry]
    simp only [Indexing.start, Entry.shift, Nat.zero_add]
    exact ⟨i, hn, rfl⟩

theorem buildIndexBy_describes (hv : config.fault? = none)
    (hs : source.Brings content config.headerSkip) (hh : config.headerSkip ≤ content.length)
    (hc : (encoding.decodeAll (content.drop config.headerSkip)).ending = .complete) :
    ∃ index, buildIndexBy rule config encoding source = .ok index ∧
      index.Describes encoding config.headerSkip
        (encoding.decodeAll (content.drop config.headerSkip)).units := by
  obtain ⟨parts, hseg, hrun⟩ := buildIndexBy_complete rule encoding hv hs hh hc
  exact ⟨_, hrun, hseg.describes rule encoding _⟩

/-- If the bytes behind the header decode, there is an index, and what it says is
true; if not, the run fails at the first character that does not decode. -/
theorem buildIndex_sound (hv : config.fault? = none) (hs : source.Brings content config.headerSkip)
    (hh : config.headerSkip ≤ content.length) :
    let text := encoding.decodeAll (content.drop config.headerSkip)
    (text.ending = .complete → ∃ index, buildIndex config encoding source = .ok index ∧
      index.Describes encoding config.headerSkip text.units ∧ index.dataEnd = content.length) ∧
    (text.ending ≠ .complete → buildIndex config encoding source =
      .error (.malformed encoding (config.headerSkip + text.consumed))) := by
  intro text
  refine ⟨?_, buildIndexBy_malformed Budget.share encoding hv hs hh⟩
  intro hc
  obtain ⟨index, hrun, hindex⟩ := buildIndexBy_describes Budget.share encoding hv hs hh hc
  refine ⟨index, hrun, hindex, ?_⟩
  rw [hindex.dataEnd_eq, Encoding.decodeAll_encodedLength, Encoding.consumed_of_complete hc,
    List.length_drop]
  omega

/-- Reads that bring one byte at a time, the first of them interrupted, of a good
text and of a bad one behind a header of one byte. -/
theorem buildIndex_sound_bytewise :
    (∃ index, buildIndex { headerSkip := 1, partitionUnits := 2 } .utf8
        (.ofBytes [0x23, 0x61, 0x0D, 0x0A, 0xF0, 0x9F, 0x98, 0x80] (fun _ => some 1)
          [(0, .interrupted)]) = .ok index ∧
      index.Describes .utf8 1 [0x61, 0x0D, 0x0A, 0xD83D, 0xDE00] ∧ index.dataEnd = 8) ∧
    buildIndex { headerSkip := 1, partitionUnits := 2 } .utf8
        (.ofBytes [0x23, 0x61, 0xC3] (fun _ => some 1) [(0, .interrupted)]) =
      .error (.malformed .utf8 2) := by
  have hbrings (content : List UInt8) :
      (Source.ofBytes content (fun _ => some 1) [(0, .interrupted)]).Brings content 1 := by
    refine ⟨rfl, fun _ => ⟨_, rfl, rfl, ?_⟩⟩
    intro k _
    cases k with
    | zero => exact .inr rfl
    | succ k => exact .inl rfl
  have hgood : Encoding.utf8.decodeAll [0x61, 0x0D, 0x0A, 0xF0, 0x9F, 0x98, 0x80] =
      ⟨[0x61, 0x0D, 0x0A, 0xD83D, 0xDE00], 7, .complete⟩ := by decide +kernel
  have hbad : Encoding.utf8.decodeAll [0x61, 0xC3] = ⟨[0x61], 1, .cutOff⟩ := by decide +kernel
  have hvalid : ({ headerSkip := 1, partitionUnits := 2 } : Config).fault? = none := by decide
  have good := (buildIndex_sound .utf8 hvalid
    (hbrings [0x23, 0x61, 0x0D, 0x0A, 0xF0, 0x9F, 0x98, 0x80]) (by decide)).1
  have bad := (buildIndex_sound .utf8 hvalid (hbrings [0x23, 0x61, 0xC3]) (by decide)).2
  simp only [List.drop_succ_cons, List.drop_zero, hgood, hbad] at good bad
  exact ⟨good trivial, bad (by decide)⟩

/-! ## The shape of the index -/

/-- The index of the segments of a text is in ascending order. -/
theorem Segments.ascends {limit : Nat} {text : List UInt16} {parts : List Partition}
    (h : Segments encoding limit none text parts) (hp : Paired text) (config : Config)
    (dataBytes : Nat) :
    let draft := (parts.foldl (Indexing.grow rule encoding) (.start config dataBytes)).draft
    draft.chars.toList.Pairwise Entry.Before ∧ draft.lines.toList.Pairwise Entry.Before := by
  intro draft
  obtain ⟨-, ⟨chars, hchars, hcs⟩, ⟨lines, hlines, hls⟩⟩ :=
    h.grown rule (.start config dataBytes)
  refine ⟨?_, ?_⟩
  · rw [show draft.chars.toList = chars from hchars]
    exact Kind.charMarks_ascend.sublist hcs
  · rw [show draft.lines.toList = lines from hlines]
    exact (Kind.lineMarks_ascend hp).sublist hls

theorem Segments.head {limit : Nat} {text : List UInt16} {parts : List Partition}
    (h : Segments encoding limit none text parts) (hv : config.fault? = none) (dataBytes : Nat)
    (hne : text ≠ []) (hlt : encoding.encodedLength text < UInt64.size) :
    let draft := (parts.foldl (Indexing.grow rule encoding) (.start config dataBytes)).draft
    draft.chars.toList.head? = some ⟨0, config.headerSkip⟩ ∧
      draft.lines.toList.head? = some ⟨0, config.headerSkip⟩ := by
  obtain ⟨c, l, hc, -, hl, -, hb⟩ := start_balanced hv dataBytes
  cases h with
  | nil => exact absurd rfl hne
  | @cons _ text p parts hp h =>
    have hbytes : 0 < p.bytes.toUInt64 := by
      obtain ⟨unit, rest, hu⟩ := List.exists_cons_of_ne_nil hp.nonempty
      have hlow := hp.paired.head_not_low unit (by rw [hu]; rfl)
      have hpos := encoding.byteLength_pos hlow
      have hbytes := hp.bytes_eq
      have hword : p.bytes < 2 ^ 64 := by
        rw [Encoding.encodedLength_append, UInt64.size] at hlt
        omega
      rw [UInt64.lt_iff_toNat_lt, UInt64.toNat_ofNat', Nat.mod_eq_of_lt hword, hbytes, hu,
        Encoding.encodedLength_cons]
      exact Nat.lt_of_lt_of_le hpos (Nat.le_add_right _ _)
    obtain ⟨hchead, hlhead⟩ := grow_head rule hb hc hl rfl rfl hp hbytes
    obtain ⟨-, ⟨chars, hchars, -⟩, ⟨lines, hlines, -⟩⟩ :=
      h.grown rule ((Indexing.start config dataBytes).grow rule encoding p)
    simp only [List.foldl_cons, hchars, hlines, List.head?_append, hchead, hlhead, Option.some_or]
    exact ⟨rfl, rfl⟩

/-- The entries of both indexes ascend, and the first of them stand at the start of
the text. -/
theorem buildIndexBy_ordered (hv : config.fault? = none)
    (hs : source.Brings content config.headerSkip) (hh : config.headerSkip ≤ content.length)
    (hc : (encoding.decodeAll (content.drop config.headerSkip)).ending = .complete)
    (hsize : content.length < UInt64.size) :
    ∃ index, buildIndexBy rule config encoding source = .ok index ∧
      index.chars.toList.Pairwise Entry.Before ∧ index.lines.toList.Pairwise Entry.Before ∧
      index.chars.size ≤ config.maxCharEntries ∧ index.lines.size ≤ config.maxLineEntries ∧
      ((encoding.decodeAll (content.drop config.headerSkip)).units ≠ [] →
        index.chars.toList.head? = some ⟨0, config.headerSkip⟩ ∧
        index.lines.toList.head? = some ⟨0, config.headerSkip⟩) := by
  obtain ⟨parts, hseg, hrun⟩ := buildIndexBy_complete rule encoding hv hs hh hc
  obtain ⟨hchars, hlines⟩ := hseg.ascends rule encoding (encoding.decodeAll_paired _) config
    (content.length - config.headerSkip)
  obtain ⟨c, l, -, hcle, -, hlle, hb⟩ := start_balanced hv (content.length - config.headerSkip)
  obtain ⟨hcc, hlc⟩ := foldl_balanced rule hb parts
  refine ⟨_, hrun, hchars, hlines, Nat.le_trans hcc.le hcle, Nat.le_trans hlc.le hlle,
    fun hne => ?_⟩
  have hused := encoding.decodeAll_encodedLength (content.drop config.headerSkip)
  have hle := encoding.decodeAll_consumed_le (content.drop config.headerSkip)
  rw [List.length_drop] at hle
  exact hseg.head rule encoding hv (content.length - config.headerSkip) hne (by omega)

/-- Whatever the shares of the partitions come to, the entries of both indexes
ascend, there are no more of them than allowed, and the first of them stand at
the start of the text. -/
theorem buildIndexBy_shape (hv : config.fault? = none)
    (hs : source.Brings content config.headerSkip) (hh : config.headerSkip ≤ content.length)
    (hc : (encoding.decodeAll (content.drop config.headerSkip)).ending = .complete) :
    ∃ index, buildIndexBy rule config encoding source = .ok index ∧
      index.chars.toList.Pairwise Entry.Before ∧ index.lines.toList.Pairwise Entry.Before ∧
      index.chars.size ≤ config.maxCharEntries ∧ index.lines.size ≤ config.maxLineEntries ∧
      (config.headerSkip < content.length → content.length < UInt64.size →
        ⟨0, config.headerSkip⟩ ∈ index.chars.toList ∧
        ⟨0, config.headerSkip⟩ ∈ index.lines.toList) := by
  obtain ⟨parts, hseg, hrun⟩ := buildIndexBy_complete rule encoding hv hs hh hc
  obtain ⟨hchars, hlines⟩ := hseg.ascends rule encoding (encoding.decodeAll_paired _) config
    (content.length - config.headerSkip)
  obtain ⟨c, l, -, hcle, -, hlle, hb⟩ := start_balanced hv (content.length - config.headerSkip)
  obtain ⟨hcc, hlc⟩ := foldl_balanced rule hb parts
  refine ⟨_, hrun, hchars, hlines, Nat.le_trans hcc.le hcle, Nat.le_trans hlc.le hlle, ?_⟩
  intro hlt hsize
  have hused : encoding.encodedLength (encoding.decodeAll (content.drop config.headerSkip)).units =
      content.length - config.headerSkip := by
    rw [Encoding.decodeAll_encodedLength, Encoding.consumed_of_complete hc, List.length_drop]
  have hne : (encoding.decodeAll (content.drop config.headerSkip)).units ≠ [] := by
    intro h
    rw [h, Encoding.encodedLength_nil] at hused
    omega
  obtain ⟨hchead, hlhead⟩ := hseg.head rule encoding hv (content.length - config.headerSkip) hne
    (by omega)
  exact ⟨List.mem_of_head? hchead, List.mem_of_head? hlhead⟩

/-- Shares that are no numbers, and room for one entry. -/
theorem buildIndexBy_shape_nan :
    ∃ index, buildIndexBy (fun _ _ => 0.0 / 0.0)
        { maxCharEntries := 1, maxLineEntries := 1, partitionUnits := 2 } .utf16le
        (.ofFile [0x0A, 0x00, 0x61, 0x00, 0x62, 0x00]) = .ok index ∧
      index.chars.toList.Pairwise Entry.Before ∧ index.lines.toList.Pairwise Entry.Before ∧
      index.chars.size ≤ 1 ∧ index.lines.size ≤ 1 ∧
      ⟨0, 0⟩ ∈ index.chars.toList ∧ ⟨0, 0⟩ ∈ index.lines.toList := by
  have htext : Encoding.utf16le.decodeAll [0x0A, 0x00, 0x61, 0x00, 0x62, 0x00] =
      ⟨[0x0A, 0x61, 0x62], 6, .complete⟩ := by decide +kernel
  have hvalid : ({ maxCharEntries := 1, maxLineEntries := 1, partitionUnits := 2 } :
      Config).fault? = none := by decide
  have hbrings : (Source.ofFile [0x0A, 0x00, 0x61, 0x00, 0x62, 0x00]).Brings
      [0x0A, 0x00, 0x61, 0x00, 0x62, 0x00] 0 := Source.ofFile_brings (by decide) 0
  obtain ⟨index, hrun, hchars, hlines, hc, hl, hfirst⟩ := buildIndexBy_shape (fun _ _ => 0.0 / 0.0)
    .utf16le hvalid hbrings (by decide) (by rw [List.drop_zero, htext])
  exact ⟨index, hrun, hchars, hlines, hc, hl, hfirst (by decide) (by decide)⟩

end TextSeek

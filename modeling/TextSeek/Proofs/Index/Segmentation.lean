import Mathlib.Algebra.GroupWithZero.Nat
import TextSeek.Proofs.Index.Soundness

/-!
# How a run cuts a text

The partitions that a run hands on are pieces of the text, one behind another. What holds
of each of them, of two neighbours and of where they stand, is gathered in `Segmentation`,
and follows from what holds of one partition behind the units in front of it.

Results:
* `Segments.behind`, `Segments.segmentation`: the partitions of a text.
* `buildIndex_segmentation`: the partitions of a run, and the byte in front of each.
-/
namespace TextSeek

/-! ## Pieces of a text -/

/-- The partitions are pieces of `text`, one behind another. -/
structure Segmentation (encoding : Encoding) (limit : Nat) (text : List UInt16)
    (parts : List Partition) : Prop where
  text_eq : parts.flatMap Partition.units = text
  nonempty : ∀ p ∈ parts, p.units ≠ []
  short : ∀ p ∈ parts, p.units.length ≤ max limit 3
  bytes_eq : ∀ p ∈ parts, p.bytes = encoding.encodedLength p.units
  /-- No cut parts a carriage return from its line feed. -/
  unbroken : ∀ front p q back, parts = front ++ p :: q :: back →
    ¬ (p.units.getLast? = some carriageReturn ∧ q.units.head? = some lineFeed)
  /-- No cut parts the halves of a pair. -/
  paired : ∀ front p q back, parts = front ++ p :: q :: back →
    ¬ (p.units.getLast?.any CodeUnit.isHighSurrogate = true ∧
      q.units.head?.any CodeUnit.isLowSurrogate = true)
  /-- A partition starts a line exactly if a line of the text starts at its first unit. -/
  startsLine_iff : ∀ front p back, parts = front ++ p :: back →
    (p.startsLine = true ↔ (front.flatMap Partition.units).length ∈ lineStarts text)

/-- A line starts at a unit in the middle of a text if the unit before it ends one. -/
theorem length_mem_lineStarts {front back : List UInt16} {unit : UInt16} :
    front.length ∈ lineStarts (front ++ unit :: back) ↔
      startsLine true front.getLast? unit = true := by
  rw [mem_lineStarts]
  cases hl : front.getLast? with
  | none =>
    rw [List.getLast?_eq_none_iff.1 hl]
    simp [startsLine]
  | some last =>
    obtain ⟨init, rfl⟩ := List.getLast?_eq_some_iff.1 hl
    simp [startsLine]

section

variable {encoding : Encoding} {limit : Nat} {previous : Option UInt16} {text : List UInt16}

theorem Segments.behind {front back : List Partition}
    (h : Segments encoding limit previous text (front ++ back)) :
    ∃ rest, text = front.flatMap Partition.units ++ rest ∧
      Segments encoding limit ((front.flatMap Partition.units).getLast?.or previous) rest
        back := by
  induction front generalizing previous text with
  | nil => exact ⟨text, rfl, h⟩
  | cons p front ih =>
    cases h with
    | @cons _ text _ _ hp h =>
      obtain ⟨rest, rfl, hrest⟩ := ih h
      refine ⟨rest, by rw [List.flatMap_cons, List.append_assoc], ?_⟩
      have hlast : p.units.getLast?.or previous = p.units.getLast? := by
        rw [List.getLast?_eq_some_getLast hp.nonempty]
        rfl
      rw [List.flatMap_cons, List.getLast?_append, Option.or_assoc, hlast]
      exact hrest

theorem Segments.fits {front back : List Partition} {p : Partition}
    (h : Segments encoding limit none text (front ++ p :: back)) :
    p.Fits encoding limit (front.flatMap Partition.units).getLast? ∧
      ∃ rest, text = front.flatMap Partition.units ++ (p.units ++ rest) ∧
        Segments encoding limit p.units.getLast? rest back := by
  obtain ⟨rest, rfl, hrest⟩ := h.behind
  rw [Option.or_none] at hrest
  cases hrest with
  | @cons _ rest _ _ hp hrest => exact ⟨hp, rest, rfl, hrest⟩

theorem Segments.segmentation {parts : List Partition}
    (h : Segments encoding limit none text parts) : Segmentation encoding limit text parts := by
  have hfits (front : List Partition) (p : Partition) (back : List Partition)
      (hparts : parts = front ++ p :: back) := (hparts ▸ h).fits
  have hmem (p : Partition) (hp : p ∈ parts) : ∃ previous, p.Fits encoding limit previous := by
    obtain ⟨front, back, hparts⟩ := List.append_of_mem hp
    exact ⟨_, (hfits front p back hparts).1⟩
  have hnext (front : List Partition) (p q : Partition) (back : List Partition)
      (hparts : parts = front ++ p :: q :: back) : q.Fits encoding limit p.units.getLast? := by
    obtain ⟨-, rest, -, hrest⟩ := hfits front p (q :: back) hparts
    cases hrest with
    | cons hq _ => exact hq
  refine ⟨?_, ?_, ?_, ?_, ?_, ?_, ?_⟩
  · rw [← List.append_nil parts] at h
    obtain ⟨rest, rfl, hrest⟩ := h.behind
    cases hrest
    rw [List.append_nil]
  · intro p hp
    obtain ⟨_, hf⟩ := hmem p hp
    exact hf.nonempty
  · intro p hp
    obtain ⟨_, hf⟩ := hmem p hp
    exact hf.short
  · intro p hp
    obtain ⟨_, hf⟩ := hmem p hp
    exact hf.bytes_eq
  · intro front p q back hparts
    exact (hnext front p q back hparts).unbroken
  · rintro front p q back hparts ⟨-, hlow⟩
    obtain ⟨unit, hu, hlow⟩ := (Option.any_eq_true ..).1 hlow
    rw [(hnext front p q back hparts).paired.head_not_low unit hu] at hlow
    cases hlow
  · intro front p back hparts
    obtain ⟨hf, rest, rfl, -⟩ := hfits front p back hparts
    obtain ⟨unit, units, hu⟩ := List.exists_cons_of_ne_nil hf.nonempty
    rw [hf.startsLine_head (by rw [hu]; rfl), hu, List.cons_append, length_mem_lineStarts]

end

/-! ## The partitions of a run -/

/-- The partitions in front move the place in the file on by their bytes. -/
theorem foldl_grow_bytes (rule : Budget → UInt64 → Float) {encoding : Encoding}
    {parts : List Partition} (hb : ∀ p ∈ parts, p.bytes = encoding.encodedLength p.units)
    (s : Indexing) : (parts.foldl (Indexing.grow rule encoding) s).draft.offsets.bytes =
      s.draft.offsets.bytes + (parts.map Partition.bytes).sum := by
  induction parts generalizing s with
  | nil => rfl
  | cons p rest ih =>
    have hp : (s.grow rule encoding p).draft.offsets.bytes = s.draft.offsets.bytes + p.bytes := by
      rw [hb p List.mem_cons_self]
      rfl
    rw [List.foldl_cons, ih (fun q hq => hb q (List.mem_cons_of_mem p hq)), hp, List.map_cons,
      List.sum_cons, Nat.add_assoc]

/-- A run over a text that decodes cuts it into pieces, parts no line end and no pair, and
tells each partition whether it starts a line. In front of each partition the index has
come to the byte behind those of all partitions before it. -/
theorem buildIndex_segmentation {config : Config} (encoding : Encoding) {source : Source}
    {content : List UInt8} (hv : config.fault? = none)
    (hs : source.Brings content config.headerSkip) (hh : config.headerSkip ≤ content.length)
    (hc : (encoding.decodeAll (content.drop config.headerSkip)).ending = .complete) :
    let dataBytes := content.length - config.headerSkip
    ∃ parts, sourcePartitions config encoding source = .ok parts ∧
      buildIndex config encoding source =
        indexPartitionsBy Budget.share config encoding dataBytes parts ∧
      Segmentation encoding config.partitionUnits
        (encoding.decodeAll (content.drop config.headerSkip)).units parts ∧
      ∀ front p back, parts = front ++ p :: back → ∃ s,
        front.foldlM (Indexing.addBy Budget.share config encoding dataBytes)
          (.start config dataBytes) = .ok s ∧
        s.draft.offsets.bytes = config.headerSkip + (front.map Partition.bytes).sum := by
  intro dataBytes
  obtain ⟨parts, hparts, hseg⟩ := sourcePartitions_complete encoding hs hh hc
  have hcuts := hseg.segmentation
  refine ⟨parts, hparts, ?_, hcuts, ?_⟩
  · rw [buildIndex, buildIndexBy_partitions Budget.share encoding hv hs.length_eq hh, hparts]
    rfl
  · intro front p back hsplit
    refine ⟨_, foldlM_addBy .., ?_⟩
    apply foldl_grow_bytes
    intro q hq
    exact hcuts.bytes_eq q (by rw [hsplit]; exact List.mem_append_left _ hq)

/-- Behind a header of one byte, partitions of two units: the first call finds a carriage
return at its end, the second one has no room for the pair behind the line feed. -/
theorem buildIndex_segmentation_held :
    let config : Config := { headerSkip := 1, partitionUnits := 2 }
    let source := Source.ofFile [0x23, 0x61, 0x0D, 0x0A, 0xF0, 0x9F, 0x98, 0x80, 0x62]
    ∃ parts, sourcePartitions config .utf8 source = .ok parts ∧
      buildIndex config .utf8 source = indexPartitionsBy Budget.share config .utf8 8 parts ∧
      Segmentation .utf8 2 [0x61, 0x0D, 0x0A, 0xD83D, 0xDE00, 0x62] parts ∧
      ∀ front p back, parts = front ++ p :: back → ∃ s,
        front.foldlM (Indexing.addBy Budget.share config .utf8 8) (.start config 8) = .ok s ∧
        s.draft.offsets.bytes = 1 + (front.map Partition.bytes).sum := by
  have htext : Encoding.utf8.decodeAll [0x61, 0x0D, 0x0A, 0xF0, 0x9F, 0x98, 0x80, 0x62] =
      ⟨[0x61, 0x0D, 0x0A, 0xD83D, 0xDE00, 0x62], 8, .complete⟩ := by decide +kernel
  have hvalid : ({ headerSkip := 1, partitionUnits := 2 } : Config).fault? = none := by decide
  have hbrings : (Source.ofFile [0x23, 0x61, 0x0D, 0x0A, 0xF0, 0x9F, 0x98, 0x80, 0x62]).Brings
      [0x23, 0x61, 0x0D, 0x0A, 0xF0, 0x9F, 0x98, 0x80, 0x62] 1 :=
    Source.ofFile_brings (by decide) 1
  have h := buildIndex_segmentation .utf8 hvalid hbrings (by decide)
    (by rw [List.drop_succ_cons, List.drop_zero, htext])
  rw [List.drop_succ_cons, List.drop_zero, htext] at h
  exact h

end TextSeek

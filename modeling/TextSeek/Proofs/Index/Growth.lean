import TextSeek.Proofs.Index.Division
import TextSeek.Proofs.Index.Picking
import TextSeek.Proofs.Index.Segments

/-!
# The index of a whole text

One partition after another adds some of its marks to the index, and moves the
offsets on behind itself (`Grown`). Put together, the entries are some of the
marks of the whole text, in their order, so they are right and ascending; and
the budgets keep their number down.

Results:
* `grow_grown`, `Grown.trans`, `Segments.grown`: what one partition adds, and
  what all of them add.
* `grow_balanced`: no more entries than the budgets allow.
* `grow_head`: the first entries.
-/
namespace TextSeek

variable (rule : Budget → UInt64 → Float) {encoding : Encoding}

/-! ## What a partition places -/

section

variable {k : Kind} {here : Entry} {units : List UInt16}

theorem marks_place {previous : Option UInt16} {quota : Nat} :
    ∀ m ∈ k.marks encoding 0 here previous units,
      m.place < (Grid.ofQuota quota units.length).span := by
  intro m hm
  have := (Kind.place_lt hm).2
  rw [Nat.zero_add] at this
  exact this

theorem picked_sublist (quota : UInt64) {previous : Option UInt16} :
    (selectEntries ((Grid.ofQuota quota.toNat units.length).hits
      (k.marks encoding 0 here previous units))).Sublist
        ((k.marks encoding 0 here previous units).map Mark.entry) :=
  selectEntries_sublist (Grid.ofQuota_numbered quota _) marks_place (Kind.marks_places ..)

theorem picked_length_le (quota : UInt64) {previous : Option UInt16} :
    (selectEntries ((Grid.ofQuota quota.toNat units.length).hits
      (k.marks encoding 0 here previous units))).length ≤ quota.toNat :=
  Nat.le_trans
    (selectEntries_length_le (Grid.ofQuota_numbered quota _) marks_place (Kind.marks_places ..))
    (Nat.min_le_left _ _)

theorem picked_head {quota : UInt64} (hq : 0 < quota.toNat) {unit : UInt16} {rest : List UInt16}
    {previous : Option UInt16} (hs : k.starts previous unit = true) :
    (selectEntries ((Grid.ofQuota quota.toNat (unit :: rest).length).hits
      (k.marks encoding 0 here previous (unit :: rest)))).head? = some here := by
  have hne : (Grid.ofQuota quota.toNat (unit :: rest).length).isEmpty = false := by
    simp only [Grid.isEmpty, Grid.ofQuota, List.length_cons, beq_eq_false_iff_ne]
    omega
  rw [selectEntries_head (Grid.ofQuota_numbered quota _) hne marks_place (Kind.marks_places ..),
    Kind.marks, if_pos hs]
  rfl

end

theorem charMarks_previous (place : Nat) (here : Entry) (previous : Option UInt16)
    (units : List UInt16) :
    Kind.char.marks encoding place here previous units =
      Kind.char.marks encoding place here none units := by
  cases units <;> rfl

theorem Partition.Fits.startsLine_head {p : Partition} {limit : Nat} {previous : Option UInt16}
    (hp : p.Fits encoding limit previous) {unit : UInt16} (hu : p.units.head? = some unit) :
    p.startsLine = TextSeek.startsLine true previous unit := by
  rw [hp.startsLine_eq]
  cases previous with
  | none => rfl
  | some last =>
    refine (endsLine_eq ?_).symm
    rintro ⟨rfl, h⟩
    cases h
    exact hp.unbroken ⟨rfl, hu⟩

/-- The lines of a partition are lines of the text. -/
theorem Partition.Fits.lineMarks_eq {p : Partition} {limit : Nat} {previous : Option UInt16}
    (hp : p.Fits encoding limit previous) (o : Offsets) : p.lineMarks encoding o =
      (Kind.line true).marks encoding 0 ⟨o.lines, o.bytes⟩ previous p.units := by
  apply Kind.lineMarks_atFront
  intro unit hu
  exact hp.startsLine_head hu

/-! ## Growth -/

/-- Between two states of an indexing run the units `text` have been indexed,
which stand behind the unit `previous`. -/
structure Grown (encoding : Encoding) (previous : Option UInt16) (text : List UInt16)
    (s t : Indexing) : Prop where
  offsets : t.draft.offsets = ⟨s.draft.offsets.chars + text.length,
    s.draft.offsets.lines + lineEnds text none,
    s.draft.offsets.bytes + encoding.encodedLength text⟩
  chars : ∃ new, t.draft.chars.toList = s.draft.chars.toList ++ new ∧
    new.Sublist ((Kind.char.marks encoding 0 ⟨s.draft.offsets.chars, s.draft.offsets.bytes⟩
      previous text).map Mark.entry)
  lines : ∃ new, t.draft.lines.toList = s.draft.lines.toList ++ new ∧
    new.Sublist (((Kind.line true).marks encoding 0 ⟨s.draft.offsets.lines, s.draft.offsets.bytes⟩
      previous text).map Mark.entry)

theorem Grown.refl (previous : Option UInt16) (s : Indexing) : Grown encoding previous [] s s :=
  ⟨rfl, ⟨[], by simp, by simp⟩, ⟨[], by simp, by simp⟩⟩

theorem grow_grown {p : Partition} {limit : Nat} {previous : Option UInt16}
    (hp : p.Fits encoding limit previous) (s : Indexing) :
    Grown encoding previous p.units s (s.grow rule encoding p) := by
  refine ⟨rfl, ⟨_, SparseIndex.toList_append _ _, ?_⟩, ⟨_, SparseIndex.toList_append _ _, ?_⟩⟩
  · rw [charMarks_previous]
    simp only [Partition.placement, Partition.charMarks]
    rw [← List.getLast?_map]
    exact addLast_sublist (picked_sublist _) _
  · simp only [Partition.placement, hp.lineMarks_eq]
    exact picked_sublist _

theorem lineEnds_unbroken {units : List UInt16} {next : Option UInt16}
    (h : ¬ (units.getLast? = some carriageReturn ∧ next = some lineFeed)) :
    lineEnds units next = lineEnds units none := by
  cases hl : units.getLast? with
  | none => rw [List.getLast?_eq_none_iff.1 hl]; rfl
  | some last =>
    obtain ⟨front, rfl⟩ := List.getLast?_eq_some_iff.1 hl
    rw [hl] at h
    rw [lineEnds_append, lineEnds_append]
    have hnone : ¬ (last = carriageReturn ∧ none = some lineFeed) := fun h => nomatch h.2
    have hlast : ¬ (last = carriageReturn ∧ next = some lineFeed) := by
      rintro ⟨rfl, hn⟩
      exact h ⟨rfl, hn⟩
    simp [lineEnds, endsLine_eq hlast, endsLine_eq hnone]

/-- The entries of a text of two pieces. Where a unit stands in a partition does
not count. -/
theorem entries_append {k : Kind} {here : Entry} {previous : Option UInt16} {a b : List UInt16}
    (ha : a ≠ []) : (k.marks encoding 0 here previous (a ++ b)).map Mark.entry =
      (k.marks encoding 0 here previous a).map Mark.entry ++
        (k.marks encoding 0 (k.pass encoding here a b.head?) a.getLast? b).map Mark.entry := by
  have hlast : a.getLast?.or previous = a.getLast? := by
    rw [List.getLast?_eq_some_getLast ha]
    rfl
  rw [Kind.marks_append, List.map_append, Kind.marks_entries _ _ (0 + a.length), hlast]

theorem Grown.trans {previous : Option UInt16} {a b : List UInt16} {s t u : Indexing}
    (h : Grown encoding previous a s t) (h' : Grown encoding a.getLast? b t u) (ha : a ≠ [])
    (hub : ¬ (a.getLast? = some carriageReturn ∧ b.head? = some lineFeed)) :
    Grown encoding previous (a ++ b) s u := by
  have hends := lineEnds_unbroken hub
  obtain ⟨hoff, ⟨chars, hc, hcs⟩, ⟨lines, hl, hls⟩⟩ := h
  obtain ⟨hoff', ⟨chars', hc', hcs'⟩, ⟨lines', hl', hls'⟩⟩ := h'
  rw [hoff] at hoff' hcs' hls'
  refine ⟨?_, ⟨chars ++ chars', ?_, ?_⟩, ⟨lines ++ lines', ?_, ?_⟩⟩
  · rw [hoff', List.length_append, lineEnds_append, Option.or_none, hends,
      Encoding.encodedLength_append]
    simp only [Nat.add_assoc]
  · rw [hc', hc, List.append_assoc]
  · rw [entries_append ha]
    apply hcs.append
    simpa [Kind.pass, Entry.shift] using hcs'
  · rw [hl', hl, List.append_assoc]
  · rw [entries_append ha]
    apply hls.append
    simpa [Kind.pass, Entry.shift, hends] using hls'

theorem Segments.unbroken {limit : Nat} {previous : Option UInt16} {text : List UInt16}
    {parts : List Partition} (h : Segments encoding limit previous text parts) :
    ¬ (previous = some carriageReturn ∧ text.head? = some lineFeed) := by
  cases h with
  | nil => exact fun h => nomatch h.2
  | cons hp h =>
    rintro ⟨hprev, hhead⟩
    refine hp.unbroken ⟨hprev, ?_⟩
    rw [List.head?_append] at hhead
    rw [List.head?_eq_some_head hp.nonempty] at hhead ⊢
    exact hhead

/-- All partitions together add some of the marks of the text. -/
theorem Segments.grown {limit : Nat} {previous : Option UInt16} {text : List UInt16}
    {parts : List Partition} (h : Segments encoding limit previous text parts) (s : Indexing) :
    Grown encoding previous text s (parts.foldl (Indexing.grow rule encoding) s) := by
  induction h generalizing s with
  | nil previous => exact .refl previous s
  | cons hp h ih => exact (grow_grown rule hp s).trans (ih _) hp.nonempty h.unbroken

/-! ## Budgets -/

/-- Both budgets have recorded what is in the index. -/
structure Indexing.Balanced (s : Indexing) (charLimit lineLimit : Nat) : Prop where
  chars : s.charBudget.Counts s.draft.chars.size charLimit
  lines : s.lineBudget.Counts s.draft.lines.size lineLimit

theorem SparseIndex.length_toList (index : SparseIndex) : index.toList.length = index.size :=
  Array.length_toList

theorem SparseIndex.size_append (index : SparseIndex) (more : List Entry) :
    (index.append more).size = index.size + more.length := by
  rw [← length_toList, toList_append, List.length_append, length_toList]

/-- No partition places more entries than it was granted. -/
theorem Partition.placement_length_le (p : Partition) (charQuota lineQuota : UInt64)
    (o : Offsets) :
    let placement := p.placement encoding charQuota.toNat lineQuota.toNat o
    placement.chars.length ≤ charQuota.toNat ∧ placement.lines.length ≤ lineQuota.toNat :=
  ⟨addLast_length_le (picked_length_le charQuota) _, picked_length_le lineQuota⟩

theorem grow_balanced {s : Indexing} {charLimit lineLimit : Nat}
    (h : s.Balanced charLimit lineLimit) (p : Partition) :
    (s.grow rule encoding p).Balanced charLimit lineLimit := by
  obtain ⟨hchars, hlines⟩ := p.placement_length_le _ _ s.draft.offsets
  refine ⟨?_, ?_⟩
  · simp only [Indexing.grow, SparseIndex.size_append]
    exact h.chars.record rule _ hchars
  · simp only [Indexing.grow, SparseIndex.size_append]
    exact h.lines.record rule _ hlines

theorem foldl_balanced {s : Indexing} {charLimit lineLimit : Nat}
    (h : s.Balanced charLimit lineLimit) (parts : List Partition) :
    (parts.foldl (Indexing.grow rule encoding) s).Balanced charLimit lineLimit := by
  induction parts generalizing s with
  | nil => exact h
  | cons p rest ih => exact ih (grow_balanced rule h p)

theorem start_balanced {config : Config} (hv : config.fault? = none) (dataBytes : Nat) :
    ∃ charLimit lineLimit, 0 < charLimit ∧ charLimit ≤ config.maxCharEntries ∧
      0 < lineLimit ∧ lineLimit ≤ config.maxLineEntries ∧
      (Indexing.start config dataBytes).Balanced charLimit lineLimit := by
  obtain ⟨hc, hl, -⟩ := (config.fault?_eq_none).1 hv
  obtain ⟨c, hc0, hcle, hcounts⟩ := Budget.start_counts dataBytes config.maxCharEntries hc
  obtain ⟨l, hl0, hlle, hlcounts⟩ := Budget.start_counts dataBytes config.maxLineEntries hl
  exact ⟨c, l, hc0, hcle, hl0, hlle, hcounts, hlcounts⟩

theorem grow_head {s : Indexing} {charLimit lineLimit limit : Nat} {p : Partition}
    (h : s.Balanced charLimit lineLimit) (hc : 0 < charLimit) (hl : 0 < lineLimit)
    (hchars : s.draft.chars.toList = []) (hlines : s.draft.lines.toList = [])
    (hp : p.Fits encoding limit none) (hbytes : 0 < p.bytes.toUInt64) :
    (s.grow rule encoding p).draft.chars.toList.head? =
        some ⟨s.draft.offsets.chars, s.draft.offsets.bytes⟩ ∧
      (s.grow rule encoding p).draft.lines.toList.head? =
        some ⟨s.draft.offsets.lines, s.draft.offsets.bytes⟩ := by
  have hsize {index : SparseIndex} (h : index.toList = []) : index.size = 0 := by
    rw [← SparseIndex.length_toList, h]
    rfl
  obtain ⟨hcc, hlc⟩ := h
  rw [hsize hchars] at hcc
  rw [hsize hlines] at hlc
  obtain ⟨unit, rest, hu⟩ := List.exists_cons_of_ne_nil hp.nonempty
  have hlow := hp.paired.head_not_low unit (by rw [hu]; rfl)
  have hstart := hp.startsLine_eq
  refine ⟨?_, ?_⟩
  · simp only [Indexing.grow, SparseIndex.toList_append, hchars, List.nil_append,
      Partition.placement, Partition.charMarks]
    rw [hu]
    refine addLast_head (picked_head (hcc.quotaBy_pos hc rule hbytes) ?_) _ _
    simp [Kind.char, hlow]
  · simp only [Indexing.grow, SparseIndex.toList_append, hlines, List.nil_append,
      Partition.placement, Partition.lineMarks]
    rw [hu]
    exact picked_head (hlc.quotaBy_pos hl rule hbytes) hstart

end TextSeek

import TextSeek.Proofs.Index.Independence

/-!
# Texts behind a longer header

A header moves the text behind it and changes nothing else. Which entries a partition
places rests on the number of its units and its bytes, never on where it stands, so
all that a run keeps is moved along (`Indexing.shift`).

Results:
* `grow_shift`: one partition of a text that stands later in its file.
* `indexText_shift`: a whole text.
* `buildIndexBy_shift`: the outcome of a run behind a header, from that of a run
  without one.
-/
namespace TextSeek

/-! ## What is moved -/

/-- Entries for a text that stands `bytes` bytes later. -/
def SparseIndex.shift (index : SparseIndex) (bytes : Nat) : SparseIndex :=
  ⟨index.entries.map (·.shift 0 bytes)⟩

def TextIndex.shift (index : TextIndex) (bytes : Nat) : TextIndex :=
  { index with
    chars := index.chars.shift bytes
    lines := index.lines.shift bytes
    dataStart := index.dataStart + bytes
    dataEnd := index.dataEnd + bytes }

def AccessError.shift (bytes : Nat) : AccessError → AccessError
  | malformed encoding position => malformed encoding (position + bytes)
  | error => error

def shiftOutcome (bytes : Nat) : Except AccessError TextIndex → Except AccessError TextIndex
  | .ok index => .ok (index.shift bytes)
  | .error error => .error (error.shift bytes)

def Indexing.shift (s : Indexing) (bytes : Nat) : Indexing :=
  { s with
    draft :=
      { chars := s.draft.chars.shift bytes
        lines := s.draft.lines.shift bytes
        offsets := { s.draft.offsets with bytes := s.draft.offsets.bytes + bytes } } }

theorem SparseIndex.append_shift (index : SparseIndex) (more : List Entry) (bytes : Nat) :
    (index.shift bytes).append (more.map (·.shift 0 bytes)) = (index.append more).shift bytes := by
  simp [SparseIndex.shift, SparseIndex.append, ← Array.toList_inj]

/-! ## Picking entries -/

variable (ordinals bytes : Nat)

theorem Entry.shift_inj {a b : Entry} :
    a.shift ordinals bytes = b.shift ordinals bytes ↔ a = b := by
  rcases a with ⟨ordinal, position⟩
  rcases b with ⟨ordinal', position'⟩
  simp only [Entry.shift, Entry.mk.injEq, Nat.add_right_cancel_iff]

def Picking.shift (p : Picking) : Picking :=
  { p with entries := p.entries.map (·.shift ordinals bytes) }

theorem Picking.take_shift (p : Picking) (hit : Hit) :
    (p.shift ordinals bytes).take (hit.shift ordinals bytes) =
      (p.take hit).shift ordinals bytes := by
  unfold Picking.take
  cases hb : hit.backup with
  | none => simp [Hit.shift, Picking.shift, hb]
  | some backup =>
    have hne : (backup.shift ordinals bytes != hit.first.shift ordinals bytes) =
        (backup != hit.first) := by
      rw [Bool.eq_iff_iff, bne_iff_ne, bne_iff_ne, ne_eq, ne_eq, Entry.shift_inj]
    simp only [Hit.shift, Picking.shift, hb, Option.map_some, hne]
    split <;> rfl

theorem selectEntries_shift (hits : List Hit) :
    selectEntries (hits.map (·.shift ordinals bytes)) =
      (selectEntries hits).map (·.shift ordinals bytes) := by
  have hfold (joined : List Hit) (p : Picking) :
      (joined.map (·.shift ordinals bytes)).foldl Picking.take (p.shift ordinals bytes) =
        (joined.foldl Picking.take p).shift ordinals bytes := by
    induction joined generalizing p with
    | nil => rfl
    | cons hit rest ih => rw [List.map_cons, List.foldl_cons, List.foldl_cons, Picking.take_shift, ih]
  unfold selectEntries
  rw [joinHits_shift, List.map_reverse]
  exact congrArg (·.entries.reverse) (hfold (joinHits hits) {})

theorem addLast_shift (entries : List Entry) (quota : Nat) (last : Option Entry) :
    addLast (entries.map (·.shift 0 bytes)) quota (last.map (·.shift 0 bytes)) =
      (addLast entries quota last).map (·.shift 0 bytes) := by
  cases last with
  | none => rfl
  | some entry =>
    have hall : (entries.map (·.shift 0 bytes)).getLast?.all
        (fun e => e.ordinal < (entry.shift 0 bytes).ordinal) =
          entries.getLast?.all (·.ordinal < entry.ordinal) := by
      rw [List.getLast?_map, Option.all_map]
      rfl
    simp only [addLast, Option.map_some, List.length_map, hall]
    split
    · rw [List.map_append, List.map_singleton]
    · rfl

/-! ## One partition after another -/

/-- A partition of a text that stands later places the same entries, moved along. -/
theorem Partition.placement_shift (p : Partition) (encoding : Encoding)
    (charQuota lineQuota : Nat) (o : Offsets) :
    p.placement encoding charQuota lineQuota { o with bytes := o.bytes + bytes } =
      { chars := (p.placement encoding charQuota lineQuota o).chars.map (·.shift 0 bytes)
        lines := (p.placement encoding charQuota lineQuota o).lines.map (·.shift 0 bytes) } := by
  have hchars : p.charMarks encoding { o with bytes := o.bytes + bytes } =
      (p.charMarks encoding o).map (·.shift 0 0 bytes) :=
    Kind.char.marks_shift encoding 0 ⟨o.chars, o.bytes⟩ none p.units 0 0 bytes
  have hlines : p.lineMarks encoding { o with bytes := o.bytes + bytes } =
      (p.lineMarks encoding o).map (·.shift 0 0 bytes) :=
    (Kind.line p.startsLine).marks_shift encoding 0 ⟨o.lines, o.bytes⟩ none p.units 0 0 bytes
  unfold Partition.placement
  rw [hchars, hlines, Grid.hits_shift, Grid.hits_shift, selectEntries_shift, selectEntries_shift,
    List.getLast?_map, Option.map_map]
  simp only [← addLast_shift, Option.map_map]
  rfl

variable (rule : Budget → UInt64 → Float) (encoding : Encoding)

theorem Indexing.grow_shift (s : Indexing) (p : Partition) :
    (s.shift bytes).grow rule encoding p = (s.grow rule encoding p).shift bytes := by
  have hplace (charQuota lineQuota : Nat) :=
    p.placement_shift bytes encoding charQuota lineQuota s.draft.offsets
  unfold Indexing.grow Indexing.shift
  simp only [hplace, SparseIndex.append_shift, List.length_map, Partition.behind]
  simp only [Nat.add_right_comm]

theorem Indexing.foldl_shift (s : Indexing) (parts : List Partition) :
    parts.foldl (Indexing.grow rule encoding) (s.shift bytes) =
      (parts.foldl (Indexing.grow rule encoding) s).shift bytes := by
  induction parts generalizing s with
  | nil => rfl
  | cons p rest ih => rw [List.foldl_cons, List.foldl_cons, grow_shift, ih]

/-! ## Whole texts -/

/-- The outcome for a text behind a header that is `bytes` bytes longer. -/
theorem indexText_shift (config : Config) (skip : Nat) (data : List UInt8) :
    indexText rule (config.withHeaderSkip (skip + bytes)) encoding data =
      shiftOutcome bytes (indexText rule (config.withHeaderSkip skip) encoding data) := by
  have hstart : Indexing.start (config.withHeaderSkip (skip + bytes)) data.length =
      (Indexing.start (config.withHeaderSkip skip) data.length).shift bytes := by
    simp [Indexing.start, Indexing.shift, SparseIndex.shift, Config.withHeaderSkip]
  unfold indexText
  simp only [hstart, Indexing.foldl_shift]
  split
  · rfl
  · simp only [shiftOutcome, AccessError.shift, Config.withHeaderSkip, Nat.add_right_comm]

/-- The outcome of a run behind a header: that of a run over the same bytes without the
header, moved along. -/
theorem buildIndexBy_shift {config : Config} {source source' : Source} {header data : List UInt8}
    (hv : config.fault? = none) (hs : source.Brings data 0)
    (hs' : source'.Brings (header ++ data) header.length) :
    buildIndexBy rule (config.withHeaderSkip header.length) encoding source' =
      shiftOutcome header.length
        (buildIndexBy rule (config.withHeaderSkip 0) encoding source) := by
  have hle : header.length ≤ (header ++ data).length := by
    rw [List.length_append]
    exact Nat.le_add_right _ _
  have hplain : buildIndexBy rule (config.withHeaderSkip 0) encoding source =
      indexText rule (config.withHeaderSkip 0) encoding (data.drop 0) :=
    buildIndexBy_eq rule encoding hv hs (Nat.zero_le _)
  have hmoved : buildIndexBy rule (config.withHeaderSkip header.length) encoding source' =
      indexText rule (config.withHeaderSkip header.length) encoding
        ((header ++ data).drop header.length) :=
    buildIndexBy_eq rule encoding hv hs' hle
  have hshift := indexText_shift header.length rule encoding config 0 data
  rw [Nat.zero_add] at hshift
  rw [hplain, hmoved, List.drop_left, List.drop_zero]
  exact hshift

end TextSeek

import TextSeek.Proofs.Index.CheckedScan

/-!
# An indexing run, step by step

One partition after another is cut off, scanned and merged before the next one is read, so
that of a text that stops to decode the partitions in front are indexed too. `Checked` has
this run with these guards as steps that may end it (`Checked.buildIndexBy`): a run of units
lies in its partition; a grid that is asked has windows; the rest of a budget, the bytes of a
partition without those of a carriage return that is held back, the windows between two hits
and the entries owed do not fall below zero; and no more entries are recorded than granted.
None ends it, and the run comes to what `buildIndexBy` says: what each step relies on is kept
by those before it.

Three guards are not among the steps. The space for the units of a partition and one more is
reserved before anything is read, which fails for partitions of 2^62 units or nearly so. The
ends at which a partition is divided come from a product of its length with the number of the
run. And an index takes entries only in ascending order: that it comes out so is
`buildIndexBy_shape`.

* A call of the decoder moves its position by the bytes of the units that it hands out, and
  so a carriage return that is held back is among the bytes of its partition.
* Both budgets have recorded what the index holds, and no partition places more entries than
  it was granted, so the rest is never below zero (`Indexing.Balanced`).
* Every unit takes a byte, so words can count the units of a partition.

Results:
* `Checked.quotaBy_eq`, `Checked.record_eq`, `Checked.cut_eq`: budgets, and seams.
* `Checked.addBy_eq`: one partition.
* `Checked.indexFrom_eq`: one partition after another.
* `buildIndexBy_checked`: none of these guards ends an indexing run, and no worker fails.
-/
namespace TextSeek

namespace Checked

/-! ## Budgets -/

def remaining (b : Budget) : Option UInt64 := do
  let left ← sub b.maxEntries.toNat b.placed.toNat
  return left.toUInt64

def quotaBy (rule : Budget → UInt64 → Float) (b : Budget) (bytes : UInt64) :
    Option (UInt64 × Budget) := do
  let left ← remaining b
  let share := rule b bytes
  let carried := { b with lost := 0, delta := share - Budget.wholePart share }
  let granted := (Budget.wholePart share).toUInt64
  if granted == 0 && b.placed == 0 && 0 < bytes then
    return (min 1 left, { carried with delta := carried.delta - 1.0 })
  else return (min granted left, carried)

/-- Records what was placed, which must not be more than was granted. -/
def record (b : Budget) (granted : UInt64) (placed : Nat) : Option Budget :=
  if placed ≤ granted.toNat then some (b.record granted placed.toUInt64) else none

/-- What is counted is within the limit, so the difference does not fall below zero. -/
theorem remaining_eq {b : Budget} {count limit : Nat} (h : b.Counts count limit) :
    remaining b = some b.remaining := by
  have hle : b.placed.toNat ≤ b.maxEntries.toNat := by
    rw [h.placed_eq, h.max_eq]
    exact h.le
  rw [remaining, sub_eq hle, ← UInt64.toNat_sub_of_le _ _ (UInt64.le_iff_toNat_le.2 hle)]
  exact congrArg some UInt64.ofNat_toNat

theorem quotaBy_eq (rule : Budget → UInt64 → Float) {b : Budget} {count limit : Nat}
    (h : b.Counts count limit) (bytes : UInt64) :
    quotaBy rule b bytes = some (b.quotaBy rule bytes) := by
  rw [quotaBy, remaining_eq h, Option.bind_eq_bind, Option.bind_some, Budget.quotaBy]
  simp only
  split <;> rfl

theorem record_eq (b : Budget) {granted : UInt64} {placed : Nat} (h : placed ≤ granted.toNat) :
    record b granted placed = some (b.record granted placed.toUInt64) := if_pos h

/-! ## Seams -/

def cut (seam : Seam) (encoding : Encoding) (found : List UInt16) (bytes : Nat) (atEnd : Bool) :
    Option (Partition × Seam) :=
  let units := seam.held.toList ++ found
  let bytes := encoding.encodedLength seam.held.toList + bytes
  if !atEnd && 1 < units.length && units.getLast? == some carriageReturn then do
    let kept := units.dropLast
    let bytes ← sub bytes (encoding.byteLength carriageReturn)
    return ({ units := kept, bytes, startsLine := seam.startsLine },
      { held := some carriageReturn, last := kept.getLast? })
  else
    some ({ units, bytes, startsLine := seam.startsLine },
      { held := none, last := units.getLast? })

def cutFilled (d : Decoder) (seam : Seam) (filled : Filled) : Option (Partition × Seam) := do
  let bytes ← sub filled.decoder.position d.position
  cut seam d.encoding filled.units bytes filled.decoder.isFinished

theorem cut_eq (seam : Seam) (encoding : Encoding) (found : List UInt16) (atEnd : Bool) :
    cut seam encoding found (encoding.encodedLength found) atEnd =
      some (seam.cut encoding found (encoding.encodedLength found) atEnd) := by
  unfold cut Seam.cut
  simp only [← Encoding.encodedLength_append]
  split
  · next h =>
    simp only [Bool.and_eq_true, beq_iff_eq] at h
    obtain ⟨front, hf⟩ := List.getLast?_eq_some_iff.1 h.2
    have hle : encoding.byteLength carriageReturn ≤
        encoding.encodedLength (seam.held.toList ++ found) := by
      rw [hf, Encoding.encodedLength_append, Encoding.encodedLength_cons]
      omega
    rw [sub_eq hle]
    rfl
  · rfl

theorem cutFilled_eq {d : Decoder} {filled : Filled} {room : Nat} (hfill : filled = d.fill room)
    (seam : Seam) : cutFilled d seam filled = some (seam.cut d.encoding filled.units
      (filled.decoder.position - d.position) filled.decoder.isFinished) := by
  obtain ⟨-, hg⟩ := d.fill_gives room
  rw [← hfill] at hg
  have hle : d.position ≤ filled.decoder.position := by
    rw [hg.position_eq]
    exact Nat.le_add_right _ _
  rw [cutFilled, sub_eq hle, Option.bind_eq_bind, Option.bind_some, hg.width_eq]
  exact cut_eq seam d.encoding filled.units filled.decoder.isFinished

/-! ## One partition -/

def addBy (rule : Budget → UInt64 → Float) (config : Config) (encoding : Encoding)
    (dataBytes : Nat) (s : Indexing) (p : Partition) : Option Indexing := do
  let (charQuota, charBudget) ← quotaBy rule s.charBudget p.bytes.toUInt64
  let (lineQuota, lineBudget) ← quotaBy rule s.lineBudget p.bytes.toUInt64
  let reports ← (splitRuns p.units (config.runCount dataBytes p.bytes)).mapM
    (scan (p.plan encoding charQuota lineQuota) p.units)
  let (placement, draft) ← merge s.draft charQuota.toNat reports
  let charBudget ← record charBudget charQuota placement.chars.length
  let lineBudget ← record lineBudget lineQuota placement.lines.length
  return { draft, charBudget, lineBudget }

theorem mapM_scan {plan : ScanPlan} {buffer : List UInt16} (hp : plan.Covers buffer.length)
    (hs : buffer.length < UInt64.size) {runs : List Run} {reports : List Report}
    (h : runs.map (plan.scan? buffer) = reports.map some) :
    runs.mapM (scan plan buffer) = some reports := by
  induction runs generalizing reports with
  | nil =>
    rw [List.map_nil, eq_comm, List.map_eq_nil_iff] at h
    subst h
    rfl
  | cons run rest ih =>
    cases reports with
    | nil => cases h
    | cons r reports =>
      obtain ⟨hr, hrest⟩ := List.cons.inj h
      rw [List.mapM_cons, scan_eq hp hs, hr, ih hrest]
      rfl

theorem addBy_eq (rule : Budget → UInt64 → Float) (config : Config) (encoding : Encoding)
    (dataBytes : Nat) {s : Indexing} {charLimit lineLimit : Nat}
    (h : s.Balanced charLimit lineLimit) {p : Partition} (hs : p.units.length < UInt64.size) :
    addBy rule config encoding dataBytes s p = some (s.grow rule encoding p) := by
  rw [addBy, quotaBy_eq rule h.chars, quotaBy_eq rule h.lines, Indexing.grow]
  generalize s.charBudget.quotaBy rule p.bytes.toUInt64 = charQuota
  generalize s.lineBudget.quotaBy rule p.bytes.toUInt64 = lineQuota
  obtain ⟨charQuota, charBudget⟩ := charQuota
  obtain ⟨lineQuota, lineBudget⟩ := lineQuota
  have hcovers := p.plan_covers encoding charQuota lineQuota
  obtain ⟨reports, hreports, haccounts⟩ := ScanPlan.tiles_accounts hcovers
    (splitRuns_tiles p.units (config.runCount dataBytes p.bytes))
  have hmerge := merge_eq (haccounts s.draft.offsets) charQuota.toNat
  rw [Draft.merge_eq (haccounts s.draft.offsets)] at hmerge
  have hplaced := @Partition.placement_length_le encoding p charQuota lineQuota s.draft.offsets
  dsimp only at hmerge hplaced ⊢
  generalize p.placement encoding charQuota.toNat lineQuota.toNat s.draft.offsets = placement
    at hmerge hplaced ⊢
  rw [Option.bind_eq_bind, Option.bind_some, Option.bind_some, mapM_scan hcovers hs hreports,
    Option.bind_eq_bind, Option.bind_some, hmerge, Option.bind_eq_bind, Option.bind_some,
    record_eq _ hplaced.1, Option.bind_eq_bind, Option.bind_some, record_eq _ hplaced.2]
  rfl

/-! ## One partition after another -/

/-- Cuts off partitions behind `done` and adds each of them to the index before the next one
is read. -/
def indexFrom (rule : Budget → UInt64 → Float) (config : Config) (encoding : Encoding)
    (dataBytes : Nat) (d : Decoder) (seam : Seam) (done : List Partition) (s : Indexing) :
    Option (Except AccessError TextIndex) :=
  let filled := d.fill (max (config.partitionUnits - seam.held.toList.length) 2)
  match _hf : filled.failure with
  | some error => some (.error error)
  | none =>
    if seam.held.isNone && filled.units.isEmpty then
      some (.ok (s.draft.finish config.headerSkip done.reverse))
    else do
      let (partition, next) ← cutFilled d seam filled
      let s ← addBy rule config encoding dataBytes s partition
      if _he : filled.decoder.isFinished then
        return .ok (s.draft.finish config.headerSkip (partition :: done).reverse)
      else indexFrom rule config encoding dataBytes filled.decoder next (partition :: done) s
termination_by d.left
decreasing_by exact Decoder.fill_left_lt (Nat.le_max_right _ _) _hf (by simpa using _he)

section

variable (rule : Budget → UInt64 → Float) (config : Config) (dataBytes : Nat)

section

variable {rule config dataBytes} {d : Decoder} {seam : Seam} {filled : Filled}
  (hfill : filled = d.fill (max (config.partitionUnits - seam.held.toList.length) 2))
  (encoding : Encoding) (done : List Partition) (s : Indexing)

include hfill

theorem indexFrom_failed {error : AccessError} (hf : filled.failure = some error) :
    indexFrom rule config encoding dataBytes d seam done s = some (.error error) := by
  subst hfill
  rw [indexFrom]
  simp only
  split
  · next hf' =>
    rw [hf] at hf'
    cases hf'
    rfl
  · next hf' =>
    rw [hf] at hf'
    cases hf'

theorem indexFrom_next (hf : filled.failure = none) :
    indexFrom rule config encoding dataBytes d seam done s =
      if seam.held.isNone && filled.units.isEmpty then
        some (.ok (s.draft.finish config.headerSkip done.reverse))
      else (cutFilled d seam filled).bind fun (p, next) =>
        (addBy rule config encoding dataBytes s p).bind fun s =>
          if filled.decoder.isFinished then
            some (.ok (s.draft.finish config.headerSkip (p :: done).reverse))
          else indexFrom rule config encoding dataBytes filled.decoder next (p :: done) s := by
  subst hfill
  rw [indexFrom]
  simp only
  split
  · next hf' =>
    rw [hf] at hf'
    cases hf'
  · rfl

end

theorem indexFrom_step {d : Decoder} {seam next : Seam} {p : Partition} {filled : Filled}
    {s : Indexing} {charLimit lineLimit : Nat} (h : s.Balanced charLimit lineLimit)
    (hleft : d.left + 1 < UInt64.size)
    (hfill : filled = d.fill (max (config.partitionUnits - seam.held.toList.length) 2))
    (hf : filled.failure = none) (hsome : ¬ (seam.held.isNone && filled.units.isEmpty))
    (hc : seam.cut d.encoding filled.units (filled.decoder.position - d.position)
      filled.decoder.isFinished = (p, next)) (done : List Partition) :
    indexFrom rule config d.encoding dataBytes d seam done s =
      if filled.decoder.isFinished then
        some (.ok ((s.grow rule d.encoding p).draft.finish config.headerSkip (p :: done).reverse))
      else indexFrom rule config d.encoding dataBytes filled.decoder next (p :: done)
        (s.grow rule d.encoding p) := by
  have hcut := cutFilled_eq hfill seam
  have hsize := seam.cut_length_le hfill (filled.decoder.position - d.position)
    filled.decoder.isFinished
  rw [hc] at hcut hsize
  have hadd : addBy rule config d.encoding dataBytes s p = some (s.grow rule d.encoding p) :=
    addBy_eq rule config d.encoding dataBytes h (Nat.lt_of_le_of_lt hsize hleft)
  rw [indexFrom_next hfill d.encoding done s hf, if_neg hsome, hcut, Option.bind_some]
  simp only
  rw [hadd, Option.bind_some]

/-- One partition after another, as they are cut off, is added to what `done` has left. -/
theorem indexFrom_eq (d : Decoder) (seam : Seam) (done : List Partition) {first : Indexing}
    {charLimit lineLimit : Nat} (h : first.Balanced charLimit lineLimit)
    (hleft : d.left + 1 < UInt64.size) :
    indexFrom rule config d.encoding dataBytes d seam done
        (done.reverse.foldl (Indexing.grow rule d.encoding) first) =
      some ((cutPartitions d config.partitionUnits seam done).map fun parts =>
        (parts.foldl (Indexing.grow rule d.encoding) first).draft.finish config.headerSkip
          parts) := by
  generalize hlimit : config.partitionUnits = limit
  have hbalanced (parts : List Partition) :
      (parts.foldl (Indexing.grow rule d.encoding) first).Balanced charLimit lineLimit :=
    foldl_balanced rule h parts
  fun_induction cutPartitions d limit seam done with
  | case1 d seam done filled error hf =>
    subst hlimit
    exact indexFrom_failed rfl d.encoding done _ hf
  | case2 d seam done filled hf hstop =>
    subst hlimit
    rw [indexFrom_next rfl d.encoding done _ hf, if_pos hstop]
    rfl
  | case3 d seam done filled hf hstop p next hc he =>
    subst hlimit
    rw [indexFrom_step rule config dataBytes (hbalanced _) hleft rfl hf hstop hc, if_pos he]
    rw [List.reverse_cons, Except.map, List.foldl_append]
    rfl
  | case4 d seam done filled hf hstop p next hc he ih =>
    subst hlimit
    have hg : d.Gives filled.units filled.decoder := (d.fill_gives _).2
    have hlt : filled.decoder.left ≤ d.left := Nat.le_trans (Nat.le_add_right _ _) (d.fill_left _)
    rw [indexFrom_step rule config dataBytes (hbalanced _) hleft rfl hf hstop hc, if_neg he]
    rw [hg.encoding_eq, List.reverse_cons, List.foldl_append] at ih
    exact ih (by omega) hbalanced

end

/-! ## The run -/

/-- Builds the index of what `source` holds behind the header. -/
def buildIndexBy (rule : Budget → UInt64 → Float) (config : Config) (encoding : Encoding)
    (source : Source) : Option (Except AccessError TextIndex) :=
  match config.validate, liftIo source.length with
  | .error error, _ | .ok (), .error error => some (.error error)
  | .ok (), .ok size =>
    if size < config.headerSkip then
      some (.error (.configuration (.headerBeyondEnd config.headerSkip size)))
    else do
      let dataBytes ← sub size config.headerSkip
      if dataBytes = 0 then return .ok (.empty config.headerSkip)
      match liftIo (source.openAt config.headerSkip) with
      | .error error => return .error error
      | .ok stream =>
        let decoder :=
          Decoder.start stream encoding config.headerSkip (min config.indexBuffer dataBytes)
        indexFrom rule config encoding dataBytes decoder {} [] (.start config dataBytes)

theorem indexFrom_start (rule : Budget → UInt64 → Float) {config : Config}
    (hv : config.validate = .ok ()) (dataBytes : Nat) {d : Decoder}
    (hleft : d.left + 1 < UInt64.size) :
    indexFrom rule config d.encoding dataBytes d {} [] (.start config dataBytes) =
      some ((partitions d config.partitionUnits).bind
        (indexPartitionsBy rule config d.encoding dataBytes)) := by
  have hfault : config.fault? = none := by
    unfold Config.validate at hv
    split at hv
    · cases hv
    · assumption
  obtain ⟨charLimit, lineLimit, -, -, -, -, hbalanced⟩ := start_balanced hfault dataBytes
  refine (indexFrom_eq rule config dataBytes d {} [] hbalanced hleft).trans (congrArg some ?_)
  rw [partitions]
  cases cutPartitions d config.partitionUnits {} [] with
  | error error => rfl
  | ok parts => exact (indexPartitionsBy_eq rule config d.encoding dataBytes parts).symm

theorem buildIndexBy_eq (rule : Budget → UInt64 → Float) (config : Config) (encoding : Encoding)
    (source : Source) (h : ∀ stream, source.openAt config.headerSkip = .ok stream →
      stream.rest.length < 2 ^ 63) :
    buildIndexBy rule config encoding source =
      some (TextSeek.buildIndexBy rule config encoding source) := by
  unfold buildIndexBy TextSeek.buildIndexBy
  cases hv : config.validate with
  | error error => rfl
  | ok _ =>
    cases liftIo source.length with
    | error error => rfl
    | ok size =>
      simp only [bind, Except.bind]
      split
      · rfl
      · next hle =>
        rw [sub_eq (Nat.not_lt.1 hle), Option.bind_some]
        split
        · rfl
        · cases hopen : source.openAt config.headerSkip with
          | error error => rfl
          | ok stream =>
            have hleft : stream.rest.length + 1 < UInt64.size := by
              have := h stream hopen
              simp only [UInt64.size]
              omega
            have hleft : (Decoder.start stream encoding config.headerSkip
                (min config.indexBuffer (size - config.headerSkip))).left + 1 < UInt64.size := by
              simpa [Decoder.left, Decoder.start] using hleft
            exact indexFrom_start rule hv (size - config.headerSkip) hleft

end Checked

/-! ## Failures -/

theorem Decoder.fillLoop_ne_worker (d : Decoder) (room : Nat) (found : List UInt16)
    (number : Nat) (reason : String) :
    (d.fillLoop room found).failure ≠ some (.worker number reason) := by
  have hstuck (d : Decoder) (found : List UInt16) :
      (d.stuck found).failure ≠ some (.worker number reason) := by
    unfold Decoder.stuck
    simp only
    split <;> simp
  fun_induction fillLoop d room found with
  | case1 | case3 | case5 | case6 => simp
  | case2 d room found hr unit width hd ih => exact ih
  | case4 d room found hr high low width hd h2 ih => exact ih
  | case7 d room found hr hd next hf he => exact hstuck next found
  | case8 d room found hr hd next hf ih => exact ih
  | case9 d room found hr hd => exact hstuck d found

theorem cutPartitions_ne_worker (d : Decoder) (limit : Nat) (seam : Seam) (done : List Partition)
    (number : Nat) (reason : String) :
    cutPartitions d limit seam done ≠ .error (.worker number reason) := by
  fun_induction cutPartitions d limit seam done with
  | case1 d seam done filled error hf =>
    intro h
    cases h
    exact d.fillLoop_ne_worker _ _ number reason hf
  | case2 | case3 => simp
  | case4 d seam done filled hf hstop p next hc he ih => exact ih

theorem buildIndexBy_ne_worker (rule : Budget → UInt64 → Float) (config : Config)
    (encoding : Encoding) (source : Source) (number : Nat) (reason : String) :
    buildIndexBy rule config encoding source ≠ .error (.worker number reason) := by
  unfold buildIndexBy Config.validate
  intro h
  cases hf : config.fault? with
  | some fault =>
    rw [hf] at h
    cases h
  | none =>
    rw [hf] at h
    cases hl : source.length with
    | error error =>
      rw [hl] at h
      cases h
    | ok size =>
      simp only [hl, liftIo, Except.mapError, bind, Except.bind] at h
      split at h
      · cases h
      · split at h
        · cases h
        · cases ho : source.openAt config.headerSkip with
          | error error =>
            rw [ho] at h
            cases h
          | ok stream =>
            simp only [ho] at h
            split at h
            · next error hparts =>
              cases h
              exact cutPartitions_ne_worker _ _ _ _ number reason hparts
            · rw [indexPartitionsBy_eq] at h
              cases h

/-- Whatever a source holds, if it is less than 2^63 bytes, and however it is read: every run
of units lies in its partition, no grid without windows is asked, and none of the differences
that are steps of `Checked.buildIndexBy` falls below zero. So no worker fails. -/
theorem buildIndexBy_checked (rule : Budget → UInt64 → Float) (config : Config)
    (encoding : Encoding) (source : Source)
    (h : ∀ stream, source.openAt config.headerSkip = .ok stream → stream.rest.length < 2 ^ 63) :
    Checked.buildIndexBy rule config encoding source =
        some (buildIndexBy rule config encoding source) ∧
      ∀ number reason, buildIndexBy rule config encoding source ≠ .error (.worker number reason) :=
  ⟨Checked.buildIndexBy_eq rule config encoding source h,
    buildIndexBy_ne_worker rule config encoding source⟩

/-- Three workers on partitions of two units, read byte by byte: a header, a line end, a pair,
a carriage return that is held back, and a byte that does not decode. -/
theorem buildIndexBy_checked_malformed :
    let config : Config :=
      { workers := 3, splitThreshold := 0, partitionUnits := 2, headerSkip := 1 }
    let source := Source.ofBytes
      [0x23, 0x61, 0x0D, 0x0A, 0xF0, 0x9F, 0x98, 0x80, 0x62, 0x0D, 0x0D, 0xFF]
      (fun _ => some 1) [(2, .interrupted)]
    (∀ stream, source.openAt config.headerSkip = .ok stream → stream.rest.length < 2 ^ 63) ∧
    Checked.buildIndexBy Budget.share config .utf8 source =
        some (buildIndexBy Budget.share config .utf8 source) ∧
      ∀ number reason, buildIndexBy Budget.share config .utf8 source ≠
        .error (.worker number reason) := by
  intro config source
  have hshort : ∀ stream, source.openAt config.headerSkip = .ok stream →
      stream.rest.length < 2 ^ 63 := by
    rintro stream ⟨⟩
    decide
  exact ⟨hshort, buildIndexBy_checked Budget.share config .utf8 source hshort⟩

end TextSeek

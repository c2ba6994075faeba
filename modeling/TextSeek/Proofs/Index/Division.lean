import TextSeek.Index.Build
import TextSeek.Proofs.Index.Windows

/-!
# A partition scanned in runs

The runs of a partition cover it without gaps (`Tiles`). Whatever they are, the
reports on them, moved to where the runs stand and joined, say of the partition
what its marks say (`Accounts`), so a partition adds to the index what its
marks add (`Indexing.grow`), and the number of workers does not matter.

Results:
* `splitRuns_tiles`: the runs cover the partition.
* `scan?_accounts`, `Accounts.append`: one report, and reports on two pieces.
* `merge_tiles`, `merge_division`: merging the runs of a partition, and one run
  over all of it.
* `addBy_eq`: what a partition adds to the index.
* `buildIndex_division`, `buildIndex_machine`: the index does not depend on how partitions are
  divided.
-/
namespace TextSeek

/-! ## Runs -/

/-- The runs cover the units from a place to another one. -/
inductive Tiles : Nat → Nat → List Run → Prop where
  | nil (place : Nat) : Tiles place place []
  | cons {start length stop : Nat} {runs : List Run} (h : Tiles (start + length) stop runs) :
    Tiles start stop (⟨start, length⟩ :: runs)

theorem Tiles.le {start stop : Nat} {runs : List Run} (h : Tiles start stop runs) :
    start ≤ stop := by
  induction h with
  | nil => exact Nat.le_refl _
  | cons h ih => omega

theorem Tiles.concat {start middle stop : Nat} {runs : List Run} (h : Tiles start middle runs)
    (hle : middle ≤ stop) : Tiles start stop (runs ++ [⟨middle, stop - middle⟩]) := by
  induction h with
  | nil place =>
    refine .cons ?_
    rw [show place + (stop - place) = stop by omega]
    exact .nil _
  | cons h ih => exact .cons (ih hle)

theorem cut_tiles {units : List UInt16} {s : SplitState} {ideal : Nat}
    (hs : Tiles 0 s.start s.runs.reverse ∧ s.start ≤ units.length) (hi : ideal ≤ units.length) :
    Tiles 0 (s.cut units ideal).start (s.cut units ideal).runs.reverse ∧
      (s.cut units ideal).start ≤ units.length := by
  obtain ⟨hle, hmax, -⟩ := runEnd_bounds units s.start ideal
  simp only [SplitState.cut]
  split
  · next h =>
    simp only [List.reverse_cons]
    exact ⟨hs.1.concat hle, by omega⟩
  · exact hs

theorem splitRuns_tiles (units : List UInt16) (parts : Nat) :
    Tiles 0 units.length (splitRuns units parts) := by
  unfold splitRuns
  simp only
  generalize min (max parts 1) (max units.length 1) = parts
  have hideal : ∀ ideal ∈ (List.range' 1 (parts - 1)).map (· * units.length / parts),
      ideal ≤ units.length := by
    intro ideal h
    obtain ⟨k, hk, rfl⟩ := List.mem_map.1 h
    rw [List.mem_range'_1] at hk
    refine Nat.div_le_of_le_mul ?_
    exact Nat.mul_le_mul_right _ (by omega)
  have hfold (ideals : List Nat) (hi : ∀ ideal ∈ ideals, ideal ≤ units.length) (s : SplitState)
      (hs : Tiles 0 s.start s.runs.reverse ∧ s.start ≤ units.length) :
      Tiles 0 (ideals.foldl (SplitState.cut units) s).start
        (ideals.foldl (SplitState.cut units) s).runs.reverse ∧
        (ideals.foldl (SplitState.cut units) s).start ≤ units.length := by
    induction ideals generalizing s with
    | nil => exact hs
    | cons ideal rest ih =>
      exact ih (fun i h => hi i (by simp [h])) _ (cut_tiles hs (hi ideal (by simp)))
  obtain ⟨ht, hle⟩ := hfold _ hideal {} ⟨.nil 0, Nat.zero_le _⟩
  generalize List.foldl (SplitState.cut units) {} _ = s at ht hle
  split
  · rw [List.reverse_cons]
    exact ht.concat hle
  · rw [show units.length = s.start by omega]
    exact ht

/-! ## One run -/

theorem ScanPlan.walk_marks (plan : ScanPlan) (base : Nat) (s : ScanState) (units : List UInt16)
    (after : Option UInt16) :
    let chars := Kind.char.marks plan.encoding (base + s.units) ⟨s.units, s.bytes⟩ s.previous units
    let lines := (Kind.line plan.startsLine).marks plan.encoding (base + s.units)
      ⟨s.lineEnds, s.bytes⟩ s.previous units
    (plan.walk base s units after).chars = chars.foldl Collector.take s.chars ∧
      (plan.walk base s units after).lines = lines.foldl Collector.take s.lines ∧
      (plan.walk base s units after).lastChar = (chars.getLast?.map Mark.entry).or s.lastChar := by
  induction units generalizing s with
  | nil => exact ⟨rfl, rfl, rfl⟩
  | cons unit rest ih =>
    obtain ⟨h1, h2, h3⟩ := ih (plan.step base s unit (rest.head?.or after))
    have hchar : Kind.char.pass plan.encoding ⟨s.units, s.bytes⟩ [unit] (rest.head?.or after) =
        ⟨s.units + 1, s.bytes + plan.encoding.byteLength unit⟩ := by
      simp [Kind.pass, Entry.shift]
    have hline : (Kind.line plan.startsLine).pass plan.encoding ⟨s.lineEnds, s.bytes⟩ [unit]
        (rest.head?.or after) = ⟨s.lineEnds + if endsLine unit (rest.head?.or after) then 1 else 0,
          s.bytes + plan.encoding.byteLength unit⟩ := by
      simp [Kind.pass, Entry.shift, lineEnds]
      rfl
    rw [walk, h1, h2, h3]
    rw [Kind.marks, Kind.marks, ← Kind.marks_or _ _ _ _ _ after, ← Kind.marks_or _ _ _ _ _ after,
      hchar, hline]
    refine ⟨?_, ?_, ?_⟩
    · cases hlow : CodeUnit.isLowSurrogate unit <;>
        simp [step, Kind.char, hlow, Collector.take, Nat.add_assoc]
    · cases hstart : TextSeek.startsLine plan.startsLine s.previous unit <;>
        simp [step, Kind.line, hstart, Collector.take, Nat.add_assoc]
    · cases hlow : CodeUnit.isLowSurrogate unit with
      | true => simp [step, Kind.char, hlow, Nat.add_assoc]
      | false =>
        simp only [step, Kind.char, hlow, Bool.not_false, if_true, Nat.add_assoc,
          Bool.false_eq_true, if_false]
        rw [List.getLast?_cons]
        cases (Kind.marks _ _ _ _ _ rest).getLast? <;> rfl

/-- What the units of a run say about the text, and what reports say that have
been moved to where the run stands: `place` counts the units of the partition
in front of the run, and `o` what is in front of it in the text. -/
structure ScanPlan.Accounts (plan : ScanPlan) (place : Nat) (previous : Option UInt16)
    (units : List UInt16) (after : Option UInt16) (o : Offsets)
    (moved : List Report × Offsets) : Prop where
  chars : joinHits (moved.1.flatMap Report.chars) = joinHits (plan.charGrid.hits
    (Kind.char.marks plan.encoding place ⟨o.chars, o.bytes⟩ previous units))
  lines : joinHits (moved.1.flatMap Report.lines) = joinHits (plan.lineGrid.hits
    ((Kind.line plan.startsLine).marks plan.encoding place ⟨o.lines, o.bytes⟩ previous units))
  lastChar : ∀ last, moved.1.foldl (fun last r => r.lastChar.or last) last =
    ((Kind.char.marks plan.encoding place ⟨o.chars, o.bytes⟩ previous units).getLast?.map
      Mark.entry).or last
  behind : moved.2 = ⟨o.chars + units.length, o.lines + lineEnds units after,
    o.bytes + plan.encoding.encodedLength units⟩

namespace ScanPlan

variable {plan : ScanPlan} {place : Nat} {previous after : Option UInt16} {o : Offsets}

theorem Accounts.nil : plan.Accounts place previous [] after o ([], o) :=
  ⟨by simp [Kind.marks, Grid.hits], by simp [Kind.marks, Grid.hits], fun _ => rfl, rfl⟩

theorem Accounts.append {a b : List UInt16} {r s : List Report} {middle behind : Offsets}
    (ha : plan.Accounts place previous a (b.head?.or after) o (r, middle))
    (hb : plan.Accounts (place + a.length) (a.getLast?.or previous) b after middle (s, behind)) :
    plan.Accounts place previous (a ++ b) after o (r ++ s, behind) := by
  have hm := ha.behind
  simp only at hm
  subst hm
  refine ⟨?_, ?_, ?_, ?_⟩
  · rw [List.flatMap_append, Kind.marks_append, Grid.hits_append, ← Kind.marks_or _ _ _ _ _ after]
    refine joinHits_append_congr ha.chars (hb.chars.trans ?_)
    simp [Kind.pass, Entry.shift]
  · rw [List.flatMap_append, Kind.marks_append, Grid.hits_append, ← Kind.marks_or _ _ _ _ _ after]
    refine joinHits_append_congr ha.lines (hb.lines.trans ?_)
    simp [Kind.pass, Entry.shift]
  · intro last
    have hmiddle := ha.lastChar last
    have hlast := hb.lastChar (((Kind.char.marks plan.encoding place ⟨o.chars, o.bytes⟩ previous
      a).getLast?.map Mark.entry).or last)
    simp only at hmiddle hlast
    rw [List.foldl_append, hmiddle, hlast, Kind.marks_append, ← Kind.marks_or _ _ _ _ _ after,
      List.getLast?_append, Option.map_or, Option.or_assoc]
    simp [Kind.pass, Entry.shift]
  · have := hb.behind
    simp only at this
    simp only [this, List.length_append, lineEnds_append, Encoding.encodedLength_append,
      Nat.add_assoc]

/-- Both grids lie over the units of the partition, and words can number their
windows. -/
structure Covers (plan : ScanPlan) (span : Nat) : Prop where
  chars : plan.charGrid.Numbered
  lines : plan.lineGrid.Numbered
  char_span : plan.charGrid.span = span
  line_span : plan.lineGrid.span = span

theorem marks_moved {k : Kind} {encoding : Encoding} {units : List UInt16} (ordinals bytes : Nat) :
    k.marks encoding place ⟨ordinals, bytes⟩ previous units =
      (k.marks encoding place ⟨0, 0⟩ previous units).map (·.shift 0 ordinals bytes) := by
  rw [← Kind.marks_shift]
  simp [Entry.shift]

theorem collect_moved {g : Grid} (hg : g.Numbered) {k : Kind} {encoding : Encoding}
    {units : List UInt16} (h : place + units.length ≤ g.span) (ordinals bytes : Nat) :
    joinHits (((k.marks encoding place ⟨0, 0⟩ previous units).foldl Collector.take
        { grid := g }).hits.reverse.map (·.shift ordinals bytes)) =
      joinHits (g.hits (k.marks encoding place ⟨ordinals, bytes⟩ previous units)) := by
  have hplace : ∀ m ∈ k.marks encoding place ⟨0, 0⟩ previous units, m.place < g.span := by
    intro m hm
    have := (Kind.place_lt hm).2
    omega
  rw [marks_moved ordinals bytes, Grid.hits_shift, joinHits_shift, joinHits_shift,
    Collector.collect_hits hg hplace (Kind.marks_places ..)]

/-- What a scan reports, moved to where its run stands. -/
theorem walk_accounts {span : Nat} (hp : plan.Covers span) {units : List UInt16}
    (h : place + units.length ≤ span) {r : Report}
    (hr : r = (plan.walk place (plan.initial previous) units after).report) (o : Offsets) :
    plan.Accounts place previous units after o ([r.shift o], o.pass r) := by
  obtain ⟨hchars, hlines, hlast⟩ := plan.walk_marks place (plan.initial previous) units after
  obtain ⟨hunits, hbytes, hends⟩ := plan.walk_totals place (plan.initial previous) units after
  subst hr
  refine ⟨?_, ?_, ?_, ?_⟩
  · simp only [List.flatMap_cons, List.flatMap_nil, List.append_nil, Report.shift, ScanState.report]
    rw [hchars]
    apply collect_moved hp.chars
    rw [hp.char_span]
    exact h
  · simp only [List.flatMap_cons, List.flatMap_nil, List.append_nil, Report.shift, ScanState.report]
    rw [hlines]
    apply collect_moved hp.lines
    rw [hp.line_span]
    exact h
  · intro last
    rw [marks_moved]
    simp only [List.foldl_cons, List.foldl_nil, Report.shift, ScanState.report]
    rw [hlast, List.getLast?_map]
    simp only [initial, Option.or_none, Nat.add_zero, Option.map_map]
    rfl
  · simp only [Offsets.pass, ScanState.report]
    rw [hunits, hbytes, hends]
    simp only [initial, Nat.zero_add]

theorem scan?_eq (plan : ScanPlan) {buffer : List UInt16} {run : Run}
    (h : run.stop ≤ buffer.length) :
    plan.scan? buffer run = some (plan.walk run.start
      (plan.initial (buffer.take run.start).getLast?) ((buffer.drop run.start).take run.length)
      (buffer.drop run.stop).head?).report := by
  have hprevious : (if run.start = 0 then none else buffer[run.start - 1]?) =
      (buffer.take run.start).getLast? := by
    rw [List.getLast?_take]
    split
    · rfl
    · unfold Run.stop at h
      rw [List.getElem?_eq_getElem (by omega)]
      rfl
  rw [scan?, if_pos h]
  simp only [hprevious, List.drop_drop, Run.stop]

/-- A run that lies in the partition has a report. -/
theorem scan?_accounts {buffer : List UInt16} (hp : plan.Covers buffer.length)
    (start length : Nat) (h : start + length ≤ buffer.length) :
    ∃ r, plan.scan? buffer ⟨start, length⟩ = some r ∧ ∀ o,
      plan.Accounts start (buffer.take start).getLast? ((buffer.drop start).take length)
        (buffer.drop (start + length)).head? o ([r.shift o], o.pass r) := by
  refine ⟨_, plan.scan?_eq h, fun o => walk_accounts hp ?_ rfl o⟩
  rw [List.length_take, List.length_drop]
  omega

/-- Reports on runs that cover the partition, merged. -/
theorem tiles_accounts {buffer : List UInt16} (hp : plan.Covers buffer.length) {start : Nat}
    {runs : List Run} (h : Tiles start buffer.length runs) :
    ∃ reports, runs.map (plan.scan? buffer) = reports.map some ∧ ∀ o,
      plan.Accounts start (buffer.take start).getLast? (buffer.drop start) none o
        (shiftAll o reports) := by
  generalize hstop : buffer.length = stop at h
  induction h with
  | nil place =>
    subst hstop
    refine ⟨[], rfl, ?_⟩
    intro o
    rw [List.drop_length]
    exact .nil
  | @cons start length stop runs h ih =>
    obtain ⟨reports, hreports, hrest⟩ := ih hstop
    have hle := h.le
    obtain ⟨r, hr, hrun⟩ := scan?_accounts hp start length (by omega)
    refine ⟨r :: reports, by rw [List.map_cons, hr, hreports]; rfl, ?_⟩
    intro o
    have hsplit := (List.take_append_drop length (buffer.drop start)).symm
    rw [List.drop_drop] at hsplit
    have hlen : ((buffer.drop start).take length).length = length := by
      rw [List.length_take, List.length_drop]
      omega
    have hlast : ((buffer.drop start).take length).getLast?.or (buffer.take start).getLast? =
        (buffer.take (start + length)).getLast? := by
      rw [← List.getLast?_append, List.take_add]
    have hfirst : plan.Accounts start (buffer.take start).getLast?
        ((buffer.drop start).take length) ((buffer.drop (start + length)).head?.or none) o
        ([r.shift o], o.pass r) := by
      rw [Option.or_none]
      exact hrun o
    have hbehind := hrest (o.pass r)
    rw [← hlast] at hbehind
    rw [hsplit]
    refine hfirst.append ?_
    rw [hlen]
    exact hbehind

theorem scanAll_ok {buffer : List UInt16} {runs : List Run} {reports : List Report}
    (h : runs.map (plan.scan? buffer) = reports.map some) :
    plan.scanAll buffer runs = .ok reports := by
  unfold scanAll
  generalize 0 = number
  induction runs generalizing reports number with
  | nil =>
    rw [List.map_nil, eq_comm, List.map_eq_nil_iff] at h
    subst h
    rfl
  | cons run rest ih =>
    cases reports with
    | nil => cases h
    | cons r reports =>
      obtain ⟨hr, hrest⟩ := List.cons.inj h
      rw [List.zipIdx_cons, List.mapM_cons, ih hrest]
      simp only [hr]
      rfl

end ScanPlan

/-! ## One partition -/

def Partition.charMarks (p : Partition) (encoding : Encoding) (o : Offsets) : List Mark :=
  Kind.char.marks encoding 0 ⟨o.chars, o.bytes⟩ none p.units

def Partition.lineMarks (p : Partition) (encoding : Encoding) (o : Offsets) : List Mark :=
  (Kind.line p.startsLine).marks encoding 0 ⟨o.lines, o.bytes⟩ none p.units

/-- The entries that a partition places, picked from its marks. -/
def Partition.placement (p : Partition) (encoding : Encoding) (charQuota lineQuota : Nat)
    (o : Offsets) : Placement where
  chars :=
    addLast (selectEntries ((Grid.ofQuota charQuota p.units.length).hits (p.charMarks encoding o)))
      charQuota ((p.charMarks encoding o).getLast?.map Mark.entry)
  lines := selectEntries ((Grid.ofQuota lineQuota p.units.length).hits (p.lineMarks encoding o))

def Partition.behind (p : Partition) (encoding : Encoding) (o : Offsets) : Offsets :=
  ⟨o.chars + p.units.length, o.lines + lineEnds p.units none,
    o.bytes + encoding.encodedLength p.units⟩

/-- What a partition adds to the index. -/
def Indexing.grow (rule : Budget → UInt64 → Float) (encoding : Encoding) (s : Indexing)
    (p : Partition) : Indexing :=
  let charQuota := s.charBudget.quotaBy rule p.bytes.toUInt64
  let lineQuota := s.lineBudget.quotaBy rule p.bytes.toUInt64
  let placement := p.placement encoding charQuota.1.toNat lineQuota.1.toNat s.draft.offsets
  { draft :=
      { chars := s.draft.chars.append placement.chars
        lines := s.draft.lines.append placement.lines
        offsets := p.behind encoding s.draft.offsets }
    charBudget := charQuota.2.record charQuota.1 placement.chars.length.toUInt64
    lineBudget := lineQuota.2.record lineQuota.1 placement.lines.length.toUInt64 }

theorem selectEntries_congr {a b : List Hit} (h : joinHits a = joinHits b) :
    selectEntries a = selectEntries b := by
  rw [selectEntries, h, selectEntries]

/-- How a partition is scanned when it is granted so many entries. -/
def Partition.plan (p : Partition) (encoding : Encoding) (charQuota lineQuota : UInt64) :
    ScanPlan where
  encoding := encoding
  charGrid := .ofQuota charQuota.toNat p.units.length
  lineGrid := .ofQuota lineQuota.toNat p.units.length
  startsLine := p.startsLine

theorem Partition.plan_covers (p : Partition) (encoding : Encoding)
    (charQuota lineQuota : UInt64) :
    (p.plan encoding charQuota lineQuota).Covers p.units.length :=
  ⟨Grid.ofQuota_numbered _ _, Grid.ofQuota_numbered _ _, rfl, rfl⟩

/-- Reports on all units of a partition place what its marks place. -/
theorem Draft.merge_eq {d : Draft} {p : Partition} {encoding : Encoding}
    {charQuota lineQuota : UInt64} {reports : List Report}
    (h : (p.plan encoding charQuota lineQuota).Accounts 0 none p.units none d.offsets
      (shiftAll d.offsets reports)) :
    d.merge charQuota.toNat reports =
      let placement := p.placement encoding charQuota.toNat lineQuota.toNat d.offsets
      (placement, {
        chars := d.chars.append placement.chars
        lines := d.lines.append placement.lines
        offsets := p.behind encoding d.offsets }) := by
  have hplace : Placement.ofReports charQuota.toNat (shiftAll d.offsets reports).1 =
      p.placement encoding charQuota.toNat lineQuota.toNat d.offsets := by
    simp only [Placement.ofReports, lastCharOf, selectEntries_congr h.chars,
      selectEntries_congr h.lines, h.lastChar, Option.or_none]
    rfl
  simp only [Draft.merge, hplace, h.behind]
  rfl

/-- Runs that cover a partition of any units have reports, and these place what its marks
place. -/
theorem Draft.merge_tiles (p : Partition) (encoding : Encoding) (charQuota lineQuota : UInt64)
    (d : Draft) {runs : List Run} (h : Tiles 0 p.units.length runs) :
    let placement := p.placement encoding charQuota.toNat lineQuota.toNat d.offsets
    ∃ reports, runs.map ((p.plan encoding charQuota lineQuota).scan? p.units) =
        reports.map some ∧
      d.merge charQuota.toNat reports = (placement, {
        chars := d.chars.append placement.chars
        lines := d.lines.append placement.lines
        offsets := p.behind encoding d.offsets }) := by
  intro placement
  obtain ⟨reports, hreports, haccounts⟩ :=
    ScanPlan.tiles_accounts (p.plan_covers encoding charQuota lineQuota) h
  exact ⟨reports, hreports, merge_eq (haccounts d.offsets)⟩

/-- However a partition of any units is cut into runs, also between the two units of a
line end or of a pair, the reports on the runs, merged in order, leave the index as the
report on one run over all units does, and place the same entries. -/
theorem Draft.merge_division (p : Partition) (encoding : Encoding) (charQuota lineQuota : UInt64)
    (d : Draft) {runs : List Run} (h : Tiles 0 p.units.length runs) :
    let plan := p.plan encoding charQuota lineQuota
    ∃ reports whole, runs.map (plan.scan? p.units) = reports.map some ∧
      plan.scan? p.units ⟨0, p.units.length⟩ = some whole ∧
      d.merge charQuota.toNat reports = d.merge charQuota.toNat [whole] := by
  intro plan
  have hall : Tiles 0 p.units.length [⟨0, p.units.length⟩] :=
    .cons (by rw [Nat.zero_add]; exact .nil _)
  obtain ⟨reports, hreports, hmerge⟩ := merge_tiles p encoding charQuota lineQuota d h
  obtain ⟨ones, hones, hone⟩ := merge_tiles p encoding charQuota lineQuota d hall
  obtain ⟨whole, rfl, hwhole⟩ := List.map_eq_singleton_iff.1 hones.symm
  exact ⟨reports, whole, hreports, hwhole.symm, hmerge.trans hone.symm⟩

/-- Runs that part a line end and a pair, one without units, and half a pair at the
end. -/
theorem Draft.merge_division_torn :
    Tiles 0 6 [⟨0, 2⟩, ⟨2, 0⟩, ⟨2, 2⟩, ⟨4, 2⟩] ∧
    let p : Partition := ⟨[0x61, 0x0D, 0x0A, 0xD83D, 0xDE00, 0xDC00], 7, true⟩
    let d : Draft := { offsets := ⟨5, 1, 9⟩ }
    ∃ reports whole,
      [⟨0, 2⟩, ⟨2, 0⟩, ⟨2, 2⟩, ⟨4, 2⟩].map ((p.plan .utf8 3 2).scan? p.units) =
        reports.map some ∧
      (p.plan .utf8 3 2).scan? p.units ⟨0, 6⟩ = some whole ∧
      d.merge 3 reports = d.merge 3 [whole] := by
  have h : Tiles 0 6 [⟨0, 2⟩, ⟨2, 0⟩, ⟨2, 2⟩, ⟨4, 2⟩] :=
    .cons (.cons (.cons (.cons (.nil 6))))
  exact ⟨h, merge_division ⟨[0x61, 0x0D, 0x0A, 0xD83D, 0xDE00, 0xDC00], 7, true⟩ .utf8 3 2
    { offsets := ⟨5, 1, 9⟩ } h⟩

/-- However a partition is divided, it adds what its marks add. -/
theorem Indexing.addBy_eq (rule : Budget → UInt64 → Float) (config : Config)
    (encoding : Encoding) (dataBytes : Nat) (s : Indexing) (p : Partition) :
    s.addBy rule config encoding dataBytes p = .ok (s.grow rule encoding p) := by
  obtain ⟨reports, hreports, hmerge⟩ := Draft.merge_tiles p encoding
    (s.charBudget.quotaBy rule p.bytes.toUInt64).1 (s.lineBudget.quotaBy rule p.bytes.toUInt64).1
    s.draft (splitRuns_tiles p.units (config.runCount dataBytes p.bytes))
  have hok := ScanPlan.scanAll_ok hreports
  unfold Partition.plan at hok
  simp only [addBy, hok, bind, Except.bind, hmerge]
  rfl

/-! ## All partitions -/

theorem foldlM_addBy (rule : Budget → UInt64 → Float) (config : Config) (encoding : Encoding)
    (dataBytes : Nat) (parts : List Partition) (s : Indexing) :
    parts.foldlM (Indexing.addBy rule config encoding dataBytes) s =
      .ok (parts.foldl (Indexing.grow rule encoding) s) := by
  induction parts generalizing s with
  | nil => rfl
  | cons p rest ih =>
    rw [List.foldlM_cons, Indexing.addBy_eq]
    exact ih _

theorem indexPartitionsBy_eq (rule : Budget → UInt64 → Float) (config : Config)
    (encoding : Encoding) (dataBytes : Nat) (parts : List Partition) :
    indexPartitionsBy rule config encoding dataBytes parts =
      .ok (((parts.foldl (Indexing.grow rule encoding) (.start config dataBytes)).draft).finish
        config.headerSkip parts) := by
  rw [indexPartitionsBy, foldlM_addBy]
  rfl

/-- How the work on a partition is divided shows neither in the index nor in the
error. -/
theorem buildIndex_division (config : Config) (encoding : Encoding) (source : Source)
    (workers workers' threshold threshold' : Nat) :
    buildIndex { config with workers := workers, splitThreshold := threshold } encoding source =
      buildIndex { config with workers := workers', splitThreshold := threshold' } encoding
        source := by
  simp only [buildIndex, buildIndexBy, indexPartitionsBy_eq]
  rfl

/-- Nor does the machine on which the work is done. -/
theorem buildIndex_machine (config : Config) (encoding : Encoding) (source : Source)
    (offered offered' : Nat) :
    buildIndex { config with machineWorkers := offered } encoding source =
      buildIndex { config with machineWorkers := offered' } encoding source := by
  simp only [buildIndex, buildIndexBy, indexPartitionsBy_eq]
  rfl

end TextSeek

import Mathlib.Order.Bounds.Basic
import TextSeek.Proofs.Index.Offers
import TextSeek.Proofs.Index.Geometry
import TextSeek.Proofs.Index.Selection

/-!
# What is reported of a run

A collector works out the bounds of a window once, when it enters it, and holds what comes
next against them. What it keeps is nevertheless what each window holds on its own
(`Grid.Reports`): the first candidate, and the first one in the second half. For a window
without candidates there is no hit, and none is entered twice, since a candidate behind the
end of the last window lies in a later one.

Results:
* `Collector.take_descends`: windows are entered in their order.
* `Collector.collect_eq`: what a collector keeps of marks.
* `Grid.collect_reports`: the same, window by window.
* `Partition.scan_reports`: the report on any run of a partition.
-/
namespace TextSeek

/-! ## The order of hits -/

/-- Hits on windows in ascending order are not changed when they are joined. -/
theorem joinHits_ascending {hits : List Hit} (h : hits.Pairwise (·.window < ·.window)) :
    joinHits hits = hits := by
  rw [joinHits, List.reverse_eq_iff]
  induction hits using List.reverseRecOn with
  | nil => rfl
  | append_singleton hits hit ih =>
    obtain ⟨hhits, -, hlt⟩ := List.pairwise_append.1 h
    rw [List.foldl_append, ih hhits, List.reverse_append, List.reverse_singleton,
      List.singleton_append, List.foldl_cons, List.foldl_nil]
    cases hr : hits.reverse with
    | nil => rfl
    | cons last earlier =>
      have hmem : last ∈ hits := by
        rw [← List.mem_reverse, hr]
        exact List.mem_cons_self
      have := hlt last hmem hit (List.mem_singleton_self hit)
      rw [joinHit, if_neg (by omega)]

theorem Grid.Numbered.lt_windowOf {g : Grid} (hg : g.Numbered) (hs : g.span < UInt64.size)
    (hne : g.isEmpty = false) {place window : Nat} (hp : place < g.span)
    (hw : window < g.windows) (h : g.windowStart (window + 1) ≤ place) :
    window < g.windowOf place := by
  by_contra hle
  obtain ⟨-, hlt⟩ := (hg.windowOf_eq_iff hne hp).1 rfl
  have hmono : (g.windowOf place + 1) * g.span / g.windows ≤ (window + 1) * g.span / g.windows :=
    Nat.div_le_div_right (Nat.mul_le_mul_right g.span (by omega))
  rw [windowStart_eq hs (show window + 1 ≤ g.windows from hw)] at h
  omega

namespace Collector

variable {c : Collector} {marks : List Mark} {m : Mark}

/-- A window is entered only behind all those that have been. -/
theorem take_descends (hc : c.Keeps marks) (hg : c.grid.Numbered) (hs : c.grid.span < UInt64.size)
    (hne : c.grid.isEmpty = false) (hm : m.place < c.grid.span)
    (hd : c.hits.Pairwise (·.window > ·.window)) :
    (c.take m).hits.Pairwise (·.window > ·.window) := by
  unfold Collector.take offer
  rw [if_neg (by simp [hne])]
  split
  · next hh =>
    rw [show (c.enter m.place m.entry).hits = c.grid.hitAt m :: c.hits from rfl, hh]
    exact List.pairwise_singleton _ _
  · next hit earlier hh =>
    obtain ⟨hlt, -, hend, -⟩ := hc.window hit earlier hh
    rw [hh] at hd
    obtain ⟨hlast, hearlier⟩ := List.pairwise_cons.1 hd
    split
    · split
      · exact List.pairwise_cons.2 ⟨hlast, hearlier⟩
      · rw [hh]
        exact hd
    · next hbehind =>
      have hword : word (hit.window + 1) = hit.window + 1 := by
        unfold Grid.Numbered at hg
        exact word_eq_self (by omega)
      rw [hend, hword, Nat.not_lt] at hbehind
      have hnew := hg.lt_windowOf hs hne hm hlt hbehind
      rw [show (c.enter m.place m.entry).hits = c.grid.hitAt m :: c.hits from rfl, hh]
      refine List.pairwise_cons.2 ⟨?_, hd⟩
      intro other hother
      rcases List.mem_cons.1 hother with rfl | hother
      · exact hnew
      · exact Nat.lt_trans (hlast other hother) hnew

theorem collect_descends {g : Grid} (hg : g.Numbered) (hs : g.span < UInt64.size)
    (hne : g.isEmpty = false) (hp : ∀ m ∈ marks, m.place < g.span)
    (ho : marks.Pairwise (·.place < ·.place)) :
    (marks.foldl Collector.take { grid := g }).hits.Pairwise (·.window > ·.window) := by
  induction marks using List.reverseRecOn with
  | nil => exact .nil
  | append_singleton marks m ih =>
    have hfront : ∀ m ∈ marks, m.place < g.span := fun m hm => hp m (List.mem_append_left _ hm)
    have horder := (List.pairwise_append.1 ho).1
    have hstart : Collector.Keeps { grid := g } [] := ⟨rfl, fun _ _ h => nomatch h⟩
    obtain ⟨hk, hgrid⟩ := foldl_take_keeps hstart hg hne hfront horder
    rw [List.foldl_append, List.foldl_cons, List.foldl_nil]
    refine take_descends hk ?_ ?_ ?_ ?_ (ih hfront horder)
    · rwa [hgrid]
    · rwa [hgrid]
    · rwa [hgrid]
    · rw [hgrid]
      exact hp m (by simp)

/-- What a collector keeps of marks is what each window is offered. -/
theorem collect_eq {g : Grid} (hg : g.Numbered) (hs : g.span < UInt64.size)
    (hp : ∀ m ∈ marks, m.place < g.span) (ho : marks.Pairwise (·.place < ·.place)) :
    (marks.foldl Collector.take { grid := g }).hits.reverse =
      (List.range g.windows).filterMap (g.hit? marks) := by
  rw [← Grid.joinHits_hits hg hp ho, ← collect_hits hg hp ho]
  cases hne : g.isEmpty with
  | true =>
    rw [collect_empty hne]
    rfl
  | false =>
    exact (joinHits_ascending (List.pairwise_reverse.2
      (collect_descends hg hs hne hp ho))).symm

end Collector

/-! ## Window by window -/

/-- There is one hit for each window with a candidate, in the order of the windows: it has
the first of them, and the first one in the second half of the window. -/
structure Grid.Reports (g : Grid) (candidate : Nat → Prop) (entryAt : Nat → Entry)
    (hits : List Hit) : Prop where
  ascending : hits.Pairwise (·.window < ·.window)
  windows : ∀ k, (∃ hit ∈ hits, hit.window = k) ↔
    k < g.windows ∧ ∃ i, candidate i ∧ g.Holds k i
  first : ∀ hit ∈ hits, ∃ i, IsLeast {i | candidate i ∧ g.Holds hit.window i} i ∧
    hit.first = entryAt i
  backup : ∀ hit ∈ hits, ∀ e, hit.backup = some e ↔
    ∃ i, IsLeast {i | candidate i ∧ g.Holds hit.window i ∧ g.backupStart hit.window ≤ i} i ∧
      e = entryAt i

/-- A list of marks, in their order, is the candidates and their entries. -/
structure Lists (marks : List Mark) (candidate : Nat → Prop) (entryAt : Nat → Entry) : Prop where
  ordered : marks.Pairwise (·.place < ·.place)
  mem_iff : ∀ m, m ∈ marks ↔ ∃ i, candidate i ∧ m = ⟨i, entryAt i⟩

namespace Lists

theorem congr {marks : List Mark} {candidate candidate' : Nat → Prop}
    {entryAt entryAt' : Nat → Entry} (h : Lists marks candidate entryAt) (hc : ∀ i, candidate i ↔ candidate' i)
    (he : ∀ i, candidate i → entryAt i = entryAt' i) : Lists marks candidate' entryAt' where
  ordered := h.ordered
  mem_iff m := by
    rw [h.mem_iff]
    constructor
    · rintro ⟨i, hi, rfl⟩
      exact ⟨i, (hc i).1 hi, by rw [he i hi]⟩
    · rintro ⟨i, hi, rfl⟩
      exact ⟨i, (hc i).2 hi, by rw [he i ((hc i).2 hi)]⟩

variable {marks : List Mark} {candidate : Nat → Prop} {entryAt : Nat → Entry}

theorem find?_eq_some (h : Lists marks candidate entryAt) (holds : Nat → Prop)
    [DecidablePred holds] {m : Mark} :
    marks.find? (fun m => holds m.place) = some m ↔
      ∃ i, IsLeast {i | candidate i ∧ holds i} i ∧ m = ⟨i, entryAt i⟩ := by
  have hleast {m : Mark} (hf : marks.find? (fun m => holds m.place) = some m) :
      ∃ i, IsLeast {i | candidate i ∧ holds i} i ∧ m = ⟨i, entryAt i⟩ := by
    have hholds : holds m.place := by simpa using List.find?_some hf
    obtain ⟨i, hi, rfl⟩ := (h.mem_iff m).1 (List.mem_of_find?_eq_some hf)
    refine ⟨i, ⟨⟨hi, hholds⟩, ?_⟩, rfl⟩
    rintro j ⟨hj, hjholds⟩
    obtain ⟨-, front, back, hmarks, hfront⟩ := List.find?_eq_some_iff_append.1 hf
    have hmem := (h.mem_iff ⟨j, entryAt j⟩).2 ⟨j, hj, rfl⟩
    have ho := h.ordered
    rw [hmarks] at hmem ho
    rcases List.mem_append.1 hmem with hmem | hmem
    · have := hfront _ hmem
      simp [hjholds] at this
    · rcases List.mem_cons.1 hmem with hmem | hmem
      · exact Nat.le_of_eq (congrArg Mark.place hmem).symm
      · exact Nat.le_of_lt ((List.pairwise_cons.1 (List.pairwise_append.1 ho).2.1).1 _ hmem)
  refine ⟨hleast, ?_⟩
  rintro ⟨i, hi, rfl⟩
  obtain ⟨m, hf⟩ : ∃ m, marks.find? (fun m => holds m.place) = some m := by
    rw [← Option.isSome_iff_exists, List.find?_isSome]
    exact ⟨⟨i, entryAt i⟩, (h.mem_iff _).2 ⟨i, hi.1.1, rfl⟩, by simpa using hi.1.2⟩
  obtain ⟨j, hj, rfl⟩ := hleast hf
  rw [hf, hi.unique hj]

/-- What each window is offered, one window after another. -/
theorem reports (h : Lists marks candidate entryAt) (g : Grid) :
    g.Reports candidate entryAt ((List.range g.windows).filterMap (g.hit? marks)) := by
  have hhit {hit : Hit} (hmem : hit ∈ (List.range g.windows).filterMap (g.hit? marks)) :
      g.hit? marks hit.window = some hit := by
    obtain ⟨k, -, hk⟩ := List.mem_filterMap.1 hmem
    rwa [Grid.window_of_hit? hk]
  have hfirst (k : Nat) {m : Mark} : g.first? marks k = some m ↔
      ∃ i, IsLeast {i | candidate i ∧ g.Holds k i} i ∧ m = ⟨i, entryAt i⟩ :=
    h.find?_eq_some (g.Holds k)
  have hbackup (k : Nat) {m : Mark} : g.backup? marks k = some m ↔
      ∃ i, IsLeast {i | candidate i ∧ g.Holds k i ∧ g.backupStart k ≤ i} i ∧
        m = ⟨i, entryAt i⟩ := h.find?_eq_some fun i => g.Holds k i ∧ g.backupStart k ≤ i
  refine ⟨g.hits_ascend marks, ?_, ?_, ?_⟩
  · intro k
    constructor
    · rintro ⟨hit, hmem, rfl⟩
      obtain ⟨m, hm, -⟩ := Option.map_eq_some_iff.1 (hhit hmem)
      obtain ⟨i, hi, -⟩ := (hfirst _).1 hm
      obtain ⟨j, hj, hjhit⟩ := List.mem_filterMap.1 hmem
      rw [Grid.window_of_hit? hjhit]
      rw [Grid.window_of_hit? hjhit] at hi
      exact ⟨List.mem_range.1 hj, i, hi.1⟩
    · rintro ⟨hk, i, hi, hholds⟩
      obtain ⟨m, hm⟩ := Grid.exists_first? ((h.mem_iff _).2 ⟨i, hi, rfl⟩) hholds
      have hit : g.hit? marks k = some _ := congrArg _ hm
      exact ⟨_, List.mem_filterMap.2 ⟨k, List.mem_range.2 hk, hit⟩, rfl⟩
  · intro hit hmem
    obtain ⟨m, hm, heq⟩ := Option.map_eq_some_iff.1 (hhit hmem)
    obtain ⟨i, hi, rfl⟩ := (hfirst _).1 hm
    exact ⟨i, hi, congrArg Hit.first heq.symm⟩
  · intro hit hmem e
    obtain ⟨m, hm, heq⟩ := Option.map_eq_some_iff.1 (hhit hmem)
    rw [← congrArg Hit.backup heq, Option.map_eq_some_iff]
    constructor
    · rintro ⟨m, hm, rfl⟩
      obtain ⟨i, hi, rfl⟩ := (hbackup _).1 hm
      exact ⟨i, hi, rfl⟩
    · rintro ⟨i, hi, rfl⟩
      exact ⟨_, (hbackup _).2 ⟨i, hi, rfl⟩, rfl⟩

end Lists

/-- What a collector keeps is what is to be reported. -/
theorem Grid.collect_reports {g : Grid} (hg : g.Numbered) (hs : g.span < UInt64.size)
    {marks : List Mark} {candidate : Nat → Prop} {entryAt : Nat → Entry}
    (h : Lists marks candidate entryAt) (hp : ∀ i, candidate i → i < g.span) :
    g.Reports candidate entryAt (marks.foldl Collector.take { grid := g }).hits.reverse := by
  rw [Collector.collect_eq hg hs ?_ h.ordered]
  · exact h.reports g
  · intro m hm
    obtain ⟨i, hi, rfl⟩ := (h.mem_iff m).1 hm
    exact hp i hi

theorem Grid.Reports.eq_nil {g : Grid} {candidate : Nat → Prop} {entryAt : Nat → Entry}
    {hits : List Hit} (h : g.Reports candidate entryAt hits) (hne : g.isEmpty = true) :
    hits = [] := by
  rw [List.eq_nil_iff_forall_not_mem]
  intro hit hmem
  have hlt := ((h.windows hit.window).1 ⟨hit, hmem, rfl⟩).1
  rw [show g.windows = 0 by simpa [isEmpty] using hne] at hlt
  exact Nat.not_lt_zero _ hlt

/-! ## A run -/

/-- Unit `i` of the partition is one of the run. -/
def Run.Has (run : Run) (i : Nat) : Prop := run.start ≤ i ∧ i < run.stop

def Run.before (run : Run) (units : List UInt16) (i : Nat) : List UInt16 :=
  (units.drop run.start).take (i - run.start)

section

variable {run : Run} {units : List UInt16} {i : Nat}

theorem Run.Has.lt_length (h : run.Has i) (hrun : run.stop ≤ units.length) : i < units.length :=
  Nat.lt_of_lt_of_le h.2 hrun

theorem Run.getLast?_before (hle : run.start ≤ i) :
    (run.before units i).getLast?.or (units.take run.start).getLast? =
      (units.take i).getLast? := by
  have hsplit : units.take run.start ++ run.before units i = units.take i := by
    rw [before, ← List.take_add, Nat.add_sub_cancel' hle]
  rw [← hsplit, List.getLast?_append]

theorem Run.before_getElem? (units : List UInt16) (h : run.Has i) :
    (run.before units run.stop)[i - run.start]? = units[i]? := by
  obtain ⟨hle, hlt⟩ := h
  rw [before, List.getElem?_take_of_lt (by omega), List.getElem?_drop, Nat.add_sub_cancel' hle]

theorem Run.before_take (units : List UInt16) (h : run.Has i) :
    (run.before units run.stop).take (i - run.start) = run.before units i := by
  obtain ⟨hle, hlt⟩ := h
  rw [before, List.take_take, Nat.min_eq_left (by omega)]
  rfl

/-- The marks of a run are the places in it at which entries may point; an entry counts
what is in the run in front of it. -/
theorem Kind.marks_lists (k : Kind) (encoding : Encoding) (run : Run) (units : List UInt16) :
    Lists (k.marks encoding run.start ⟨0, 0⟩ (units.take run.start).getLast?
        (run.before units run.stop))
      (fun i => run.Has i ∧ ∃ unit, units[i]? = some unit ∧
        k.starts (units.take i).getLast? unit = true)
      (fun i => k.pass encoding ⟨0, 0⟩ (run.before units i) units[i]?) where
  ordered := marks_places ..
  mem_iff m := by
    rw [mem_marks_iff]
    constructor
    · rintro ⟨j, unit, hu, hs, rfl⟩
      have hj : j < (run.before units run.stop).length := (List.getElem?_eq_some_iff.1 hu).1
      have hhas : run.Has (run.start + j) := by
        rw [Run.before, List.length_take] at hj
        exact ⟨Nat.le_add_right _ _, by omega⟩
      have hget := Run.before_getElem? units hhas
      have htake := Run.before_take units hhas
      rw [Nat.add_sub_cancel_left] at hget htake
      rw [hget] at hu
      rw [htake, Run.getLast?_before hhas.1] at hs
      exact ⟨run.start + j, ⟨hhas, unit, hu, hs⟩, by rw [htake, hu]⟩
    · rintro ⟨i, ⟨hhas, unit, hu, hs⟩, rfl⟩
      refine ⟨i - run.start, unit, ?_, ?_, ?_⟩
      · rw [Run.before_getElem? units hhas, hu]
      · rwa [Run.before_take units hhas, Run.getLast?_before hhas.1]
      · rw [Run.before_take units hhas, hu, Nat.add_sub_cancel' hhas.1]

theorem Run.before_stop (run : Run) (units : List UInt16) :
    run.before units run.stop = (units.drop run.start).take run.length := by
  rw [before, stop, Nat.add_sub_cancel_left]

/-- A report on a run has what two collectors keep of its marks. -/
theorem ScanPlan.scan?_collects (plan : ScanPlan) (hrun : run.stop ≤ units.length) :
    let marks (k : Kind) := k.marks plan.encoding run.start ⟨0, 0⟩
      (units.take run.start).getLast? (run.before units run.stop)
    ∃ r, plan.scan? units run = some r ∧
      r.chars = ((marks .char).foldl Collector.take { grid := plan.charGrid }).hits.reverse ∧
      r.lines = ((marks (.line plan.startsLine)).foldl Collector.take
        { grid := plan.lineGrid }).hits.reverse := by
  intro marks
  obtain ⟨hchars, hlines, -⟩ := plan.walk_marks run.start
    (plan.initial (units.take run.start).getLast?) (run.before units run.stop)
    (units.drop run.stop).head?
  have hscan := plan.scan?_eq hrun
  rw [← run.before_stop] at hscan
  refine ⟨_, hscan, ?_, ?_⟩
  · rw [ScanState.report, hchars]
    rfl
  · rw [ScanState.report, hlines]
    rfl

end

namespace Partition

/-- The entry for the character at unit `i`, as a report on the run has it. -/
def charEntryIn (p : Partition) (encoding : Encoding) (run : Run) (i : Nat) : Entry :=
  ⟨i - run.start, encoding.encodedLength (run.before p.units i)⟩

def lineEntryIn (p : Partition) (encoding : Encoding) (run : Run) (i : Nat) : Entry :=
  ⟨lineEnds (run.before p.units i) p.units[i]?, encoding.encodedLength (run.before p.units i)⟩

/-- What a report says of a run of the partition. -/
structure Reported (p : Partition) (plan : ScanPlan) (run : Run) (r : Report) : Prop where
  chars : plan.charGrid.Reports (fun i => run.Has i ∧ p.CharAt i)
    (p.charEntryIn plan.encoding run) r.chars
  lines : plan.lineGrid.Reports (fun i => run.Has i ∧ p.LineAt i)
    (p.lineEntryIn plan.encoding run) r.lines
  charsRead : r.charsRead = run.length
  bytesRead : r.bytesRead = plan.encoding.encodedLength (run.before p.units run.stop)
  /-- Whether the last unit ends a line is seen from the one behind the run. -/
  linesRead : r.linesRead = lineEnds (run.before p.units run.stop) p.units[run.stop]?
  no_chars : plan.charGrid.isEmpty = true → r.chars = []
  no_lines : plan.lineGrid.isEmpty = true → r.lines = []

section

variable (p : Partition) (encoding : Encoding) {run : Run}

theorem charMarks_lists (hrun : run.stop ≤ p.units.length) :
    Lists (Kind.char.marks encoding run.start ⟨0, 0⟩ (p.units.take run.start).getLast?
        (run.before p.units run.stop))
      (fun i => run.Has i ∧ p.CharAt i) (p.charEntryIn encoding run) := by
  refine (Kind.char.marks_lists encoding run p.units).congr ?_ ?_
  · intro i
    simp only [CharAt, Kind.char, Bool.not_eq_true']
  · rintro i ⟨hhas, -⟩
    have hlt := hhas.lt_length hrun
    have hlen : (run.before p.units i).length = i - run.start := by
      rw [Run.before, List.length_take, List.length_drop]
      omega
    rw [Kind.pass, Kind.count_char, hlen, charEntryIn, Entry.shift, Nat.zero_add, Nat.zero_add]

theorem lineMarks_lists :
    Lists ((Kind.line p.startsLine).marks encoding run.start ⟨0, 0⟩
        (p.units.take run.start).getLast? (run.before p.units run.stop))
      (fun i => run.Has i ∧ p.LineAt i) (p.lineEntryIn encoding run) := by
  refine ((Kind.line p.startsLine).marks_lists encoding run p.units).congr ?_ ?_
  · intro i
    rfl
  · intro i _
    rw [Kind.pass, Kind.count_line, lineEntryIn, Entry.shift, Nat.zero_add, Nat.zero_add]

end

/-- Whatever the units of a partition and the quotas are, if words can count the units:
every run that lies in the partition has a report. It has one hit for each window with a
candidate in the run, with the first of them and the first one in the second half of the
window; entries count from the start of the run, and the totals are those of the run. -/
theorem scan_reports (p : Partition) (encoding : Encoding) (charQuota lineQuota : UInt64)
    (run : Run) (hsize : p.units.length < UInt64.size) (hrun : run.stop ≤ p.units.length) :
    ∃ r, (p.plan encoding charQuota lineQuota).scan? p.units run = some r ∧
      p.Reported (p.plan encoding charQuota lineQuota) run r := by
  obtain ⟨hcn, hln, -, -⟩ := p.plan_covers encoding charQuota lineQuota
  have hplace (candidate : Nat → Prop) (i : Nat) (hi : run.Has i ∧ candidate i) :
      i < p.units.length := hi.1.lt_length hrun
  obtain ⟨r, hr, hchars, hlines⟩ := (p.plan encoding charQuota lineQuota).scan?_collects hrun
  obtain ⟨hread, hbytes, hends⟩ := ScanPlan.scan_totals hr
  have hc := Grid.collect_reports hcn hsize (p.charMarks_lists encoding hrun) (hplace p.CharAt)
  have hl := Grid.collect_reports hln hsize (p.lineMarks_lists encoding) (hplace p.LineAt)
  rw [← run.before_stop] at hbytes hends
  rw [List.drop_drop, List.head?_drop] at hends
  refine ⟨r, hr, ?_, ?_, hread, hbytes, hends, ?_, ?_⟩
  · rw [hchars]
    exact hc
  · rw [hlines]
    exact hl
  · rw [hchars]
    exact hc.eq_nil
  · rw [hlines]
    exact hl.eq_nil

/-- A run that starts between the units of a pair and ends between those of a line end. -/
theorem scan_reports_torn :
    let p : Partition := ⟨[0x61, 0xD83D, 0xDE00, 0x0A, 0x0D, 0x0A, 0x62, 0x63], 11, true⟩
    p.units.length < UInt64.size ∧ Run.stop ⟨2, 3⟩ ≤ p.units.length ∧
    ∃ r, (p.plan .utf8 4 3).scan? p.units ⟨2, 3⟩ = some r ∧
      p.Reported (p.plan .utf8 4 3) ⟨2, 3⟩ r := by
  intro p
  have hsize : p.units.length < UInt64.size := by decide
  have hrun : Run.stop ⟨2, 3⟩ ≤ p.units.length := by decide
  exact ⟨hsize, hrun, p.scan_reports .utf8 4 3 ⟨2, 3⟩ hsize hrun⟩

/-- The only line that starts in the run does so in the second half of a window. -/
example :
    let p : Partition := ⟨[0x61, 0xD83D, 0xDE00, 0x0A, 0x0D, 0x0A, 0x62, 0x63], 11, true⟩
    (p.plan .utf8 4 3).scan? p.units ⟨2, 3⟩ = some {
      chars := [⟨1, ⟨1, 0⟩, some ⟨1, 0⟩⟩, ⟨2, ⟨2, 1⟩, none⟩]
      lines := [⟨1, ⟨1, 1⟩, some ⟨1, 1⟩⟩]
      lastChar := some ⟨2, 1⟩
      charsRead := 3
      linesRead := 1
      bytesRead := 2 } := by
  decide +kernel

end Partition

end TextSeek

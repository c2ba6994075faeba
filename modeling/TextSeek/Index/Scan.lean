import TextSeek.Index.Grid
import TextSeek.Index.SparseIndex
import TextSeek.Text.ByteLength
import TextSeek.Text.Lines

/-!
# Scanning a run of units

A scan walks over a run of a partition's units and reports, for every window
of the partition's grids, the first unit that an entry may point at and the
first such unit in the second half of the window. A character entry may point
at any unit but a low surrogate, a line entry at the first unit of a line.
Which of them become entries is decided later, so a report depends only on
the units of the run and their two neighbours.

**Results.**
* `scan_totals`: the totals of a report.
* `scan?_isSome`: a run can be scanned exactly if it lies in the partition.
-/
namespace TextSeek

/-- What a run offers for one window. -/
structure Hit where
  window : Nat
  /-- The first candidate in the window. -/
  first : Entry
  /-- The first candidate in the window's second half. -/
  backup : Option Entry
  deriving DecidableEq, Repr

def Hit.shift (hit : Hit) (ordinals bytes : Nat) : Hit where
  window := hit.window
  first := hit.first.shift ordinals bytes
  backup := hit.backup.map (·.shift ordinals bytes)

/-! ## Collecting candidates -/

/-- The candidates seen so far, sorted into the windows of a grid. -/
structure Collector where
  grid : Grid
  /-- The windows with a candidate, the last one first. -/
  hits : List Hit := []
  /-- The unit behind the last window seen. -/
  windowEnd : Nat := 0
  /-- Where the second half of that window starts. -/
  backupStart : Nat := 0

namespace Collector

/-- Starts on the window of a candidate. -/
def enter (c : Collector) (place : Nat) (entry : Entry) : Collector :=
  let window := c.grid.windowOf place
  let backupStart := c.grid.backupStart window
  { c with
    hits := ⟨window, entry, if backupStart ≤ place then some entry else none⟩ :: c.hits
    windowEnd := c.grid.windowStart (word (window + 1))
    backupStart }

def offer (c : Collector) (place : Nat) (entry : Entry) : Collector :=
  if c.grid.isEmpty then c
  else
    match c.hits with
    | [] => c.enter place entry
    | hit :: earlier =>
      if place < c.windowEnd then
        if hit.backup.isNone && c.backupStart ≤ place then
          { c with hits := { hit with backup := some entry } :: earlier }
        else c
      else c.enter place entry

end Collector

/-! ## Scanning -/

/-- What is found out about a run. Ordinals and positions count from its
start. -/
structure Report where
  chars : List Hit
  lines : List Hit
  /-- The last unit that a character entry may point at. -/
  lastChar : Option Entry
  charsRead : Nat
  linesRead : Nat
  bytesRead : Nat
  deriving DecidableEq, Repr

/-- How the runs of a partition are scanned. -/
structure ScanPlan where
  encoding : Encoding
  charGrid : Grid
  lineGrid : Grid
  /-- The first unit of the partition starts a line. -/
  startsLine : Bool

structure ScanState where
  chars : Collector
  lines : Collector
  lastChar : Option Entry := none
  /-- The units passed. -/
  units : Nat := 0
  /-- The bytes passed. -/
  bytes : Nat := 0
  /-- The line ends passed. -/
  lineEnds : Nat := 0
  /-- The unit before the one to look at. -/
  previous : Option UInt16

def ScanPlan.initial (plan : ScanPlan) (previous : Option UInt16) : ScanState :=
  { chars := { grid := plan.charGrid }, lines := { grid := plan.lineGrid }, previous }

/-- Looks at one unit. The run starts at the unit `base` of the partition. -/
def ScanPlan.step (plan : ScanPlan) (base : Nat) (s : ScanState) (unit : UInt16)
    (next : Option UInt16) : ScanState :=
  let place := base + s.units
  let entry : Entry := ⟨s.units, s.bytes⟩
  let isLow := CodeUnit.isLowSurrogate unit
  { chars := if isLow then s.chars else s.chars.offer place entry
    lines :=
      if TextSeek.startsLine plan.startsLine s.previous unit then
        s.lines.offer place ⟨s.lineEnds, s.bytes⟩
      else s.lines
    lastChar := if isLow then s.lastChar else some entry
    units := s.units + 1
    bytes := s.bytes + plan.encoding.byteLength unit
    lineEnds := s.lineEnds + if endsLine unit next then 1 else 0
    previous := some unit }

/-- Looks at all units; `after` is the one behind them. -/
def ScanPlan.walk (plan : ScanPlan) (base : Nat) (s : ScanState) (units : List UInt16)
    (after : Option UInt16) : ScanState :=
  match units with
  | [] => s
  | unit :: rest => plan.walk base (plan.step base s unit (rest.head?.or after)) rest after

def ScanState.report (s : ScanState) : Report where
  chars := s.chars.hits.reverse
  lines := s.lines.hits.reverse
  lastChar := s.lastChar
  charsRead := s.units
  linesRead := s.lineEnds
  bytesRead := s.bytes

/-- A run of units of a partition. -/
structure Run where
  /-- Its first unit. -/
  start : Nat
  length : Nat
  deriving DecidableEq, Repr

def Run.stop (run : Run) : Nat := run.start + run.length

/-- Scans a run of the partition `buffer` (`run`); a run that does not lie in it cannot
be scanned. -/
def ScanPlan.scan? (plan : ScanPlan) (buffer : List UInt16) (run : Run) : Option Report :=
  if run.stop ≤ buffer.length then
    let previous := if run.start = 0 then none else buffer[run.start - 1]?
    let here := buffer.drop run.start
    let after := (here.drop run.length).head?
    some (plan.walk run.start (plan.initial previous) (here.take run.length) after).report
  else none

theorem ScanPlan.scan?_isSome (plan : ScanPlan) (buffer : List UInt16) (run : Run) :
    (plan.scan? buffer run).isSome = true ↔ run.stop ≤ buffer.length := by
  unfold scan?
  split <;> simp_all

theorem ScanPlan.walk_totals (plan : ScanPlan) (base : Nat) (s : ScanState)
    (units : List UInt16) (after : Option UInt16) :
    (plan.walk base s units after).units = s.units + units.length ∧
      (plan.walk base s units after).bytes = s.bytes + plan.encoding.encodedLength units ∧
      (plan.walk base s units after).lineEnds = s.lineEnds + lineEnds units after := by
  induction units generalizing s with
  | nil => simp [walk, lineEnds]
  | cons unit rest ih =>
    obtain ⟨h1, h2, h3⟩ := ih (plan.step base s unit (rest.head?.or after))
    rw [walk, h1, h2, h3]
    simp only [step, List.length_cons, Encoding.encodedLength_cons, lineEnds]
    omega

/-- The totals of a scan are those of the run: its units, their encoded length
and the line ends among them. -/
theorem ScanPlan.scan_totals {plan : ScanPlan} {buffer : List UInt16} {run : Run}
    {report : Report} (h : plan.scan? buffer run = some report) :
    let here := buffer.drop run.start
    report.charsRead = run.length ∧
      report.bytesRead = plan.encoding.encodedLength (here.take run.length) ∧
      report.linesRead = lineEnds (here.take run.length) (here.drop run.length).head? := by
  unfold scan? at h
  split at h
  · next hle =>
    cases h
    simp only [Run.stop] at hle
    obtain ⟨h1, h2, h3⟩ := plan.walk_totals run.start
      (plan.initial (if run.start = 0 then none else buffer[run.start - 1]?))
      ((buffer.drop run.start).take run.length)
      ((buffer.drop run.start).drop run.length).head?
    simp only [ScanState.report]
    rw [h1, h2, h3]
    simp only [initial, Nat.zero_add, List.length_take, List.length_drop]
    exact ⟨by omega, trivial, trivial⟩
  · cases h

end TextSeek

import TextSeek.Index.Scan

/-!
# Merging reports into an index

The reports on the runs of a partition are merged in order. Hits on one window
from two runs become one, and from the hits of all windows the entries are
picked: the first candidate of each window, and for every window without any
candidate one second candidate from a later window. The last character of a
partition is added if the partition was granted more entries than that.

**Results.**
* `shiftAll_length`: one shifted report for each report.
-/
namespace TextSeek

/-- What lies before a place of the text. -/
structure Offsets where
  chars : Nat := 0
  lines : Nat := 0
  bytes : Nat
  deriving DecidableEq, Repr

/-- The place behind a run. -/
def Offsets.pass (o : Offsets) (r : Report) : Offsets :=
  ⟨o.chars + r.charsRead, o.lines + r.linesRead, o.bytes + r.bytesRead⟩

/-- The report on a run as seen from the start of the text. -/
def Report.shift (r : Report) (o : Offsets) : Report :=
  { r with
    chars := r.chars.map (·.shift o.chars o.bytes)
    lines := r.lines.map (·.shift o.lines o.bytes)
    lastChar := r.lastChar.map (·.shift o.chars o.bytes) }

/-- The reports on consecutive runs as seen from the start of the text, and the
place behind the last run. -/
def shiftAll (o : Offsets) : List Report → List Report × Offsets
  | [] => ([], o)
  | r :: rest =>
    let (shifted, behind) := shiftAll (o.pass r) rest
    (r.shift o :: shifted, behind)

theorem shiftAll_length (o : Offsets) (reports : List Report) :
    (shiftAll o reports).1.length = reports.length := by
  induction reports generalizing o with
  | nil => rfl
  | cons r rest ih => simp [shiftAll, ih]

/-- Scans runs one after another: each report as it is, and as seen from the
start of the first run. A run that cannot be scanned has no report and counts
for nothing. -/
def scanInTurn (plan : ScanPlan) (buffer : List UInt16) (o : Offsets) :
    List Run → List (Option (Report × Report))
  | [] => []
  | run :: rest =>
    match plan.scan? buffer run with
    | none => none :: scanInTurn plan buffer o rest
    | some r => some (r, r.shift o) :: scanInTurn plan buffer (o.pass r) rest

/-! ## Picking entries -/

/-- Adds a hit behind `joined`, whose last hit comes first. A hit on the same
window only fills in a missing second candidate. -/
def joinHit (joined : List Hit) (hit : Hit) : List Hit :=
  match joined with
  | [] => [hit]
  | last :: earlier =>
    if last.window = hit.window then { last with backup := last.backup.or hit.backup } :: earlier
    else hit :: joined

def joinHits (hits : List Hit) : List Hit := (hits.foldl joinHit []).reverse

structure Picking where
  /-- The entries, the last one first. -/
  entries : List Entry := []
  /-- The windows without a candidate that no second candidate stands in for. -/
  owed : Nat := 0
  /-- The window behind the last one with a candidate. -/
  nextWindow : Nat := 0

def Picking.take (p : Picking) (hit : Hit) : Picking :=
  let owed := p.owed + (hit.window - p.nextWindow)
  let entries := hit.first :: p.entries
  let nextWindow := hit.window + 1
  match hit.backup with
  | none => { entries, owed, nextWindow }
  | some backup =>
    if 0 < owed && backup != hit.first then
      { entries := backup :: entries, owed := owed - 1, nextWindow }
    else { entries, owed, nextWindow }

/-- The entries picked from the hits of all runs (`select_entries`). -/
def selectEntries (hits : List Hit) : List Entry :=
  ((joinHits hits).foldl Picking.take {}).entries.reverse

/-- Adds the last character if there is room for it and it is not there. -/
def addLast (entries : List Entry) (quota : Nat) (last : Option Entry) : List Entry :=
  match last with
  | none => entries
  | some entry =>
    if entries.length < quota && entries.getLast?.all (·.ordinal < entry.ordinal) then
      entries ++ [entry]
    else entries

/-! ## The growing index -/

structure Draft where
  chars : SparseIndex := {}
  lines : SparseIndex := {}
  /-- The end of the text indexed so far. -/
  offsets : Offsets
  deriving DecidableEq, Repr

/-- The last character that reports speak of. -/
def lastCharOf (reports : List Report) : Option Entry :=
  reports.foldl (fun last r => r.lastChar.or last) none

structure Placement where
  chars : List Entry
  lines : List Entry
  deriving DecidableEq, Repr

/-- The entries placed from shifted reports when `quota` character entries were
granted. -/
def Placement.ofReports (quota : Nat) (reports : List Report) : Placement where
  chars := addLast (selectEntries (reports.flatMap Report.chars)) quota (lastCharOf reports)
  lines := selectEntries (reports.flatMap Report.lines)

/-- Merges the reports on all runs of a partition; gives what was placed. -/
def Draft.merge (d : Draft) (quota : Nat) (reports : List Report) : Placement × Draft :=
  let (shifted, offsets) := shiftAll d.offsets reports
  let placement := Placement.ofReports quota shifted
  (placement,
    { chars := d.chars.append placement.chars, lines := d.lines.append placement.lines, offsets })

end TextSeek

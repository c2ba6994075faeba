import TextSeek.Index.Scan

/-!
# Dividing a partition into runs

Several workers may share the scan of a partition. `splitRuns` divides its
units into runs of nearly equal length, none of which ends between the two
units of a line end or of a surrogate pair.

**Results.**
* `runEnd_bounds`: an end moves by at most one unit, and never before the
  start of the run.
-/
namespace TextSeek

/-- A run must not end behind this unit: what follows may belong to it. -/
def bindsNext (unit : UInt16) : Bool := unit == carriageReturn || CodeUnit.isHighSurrogate unit

/-- Where a run that starts at `start` ends if it should end at `ideal`. -/
def runEnd (units : List UInt16) (start ideal : Nat) : Nat :=
  let stop := max ideal start
  if start < stop && units[stop - 1]?.any bindsNext then stop - 1 else stop

theorem runEnd_bounds (units : List UInt16) (start ideal : Nat) :
    start ≤ runEnd units start ideal ∧ runEnd units start ideal ≤ max ideal start ∧
      ideal ≤ runEnd units start ideal + 1 := by
  unfold runEnd
  simp only
  split
  · next h =>
    simp only [Bool.and_eq_true, decide_eq_true_eq] at h
    omega
  · omega

/-- The runs so far, the last one first, and where the next one starts. -/
structure SplitState where
  start : Nat := 0
  runs : List Run := []

/-- Ends a run at `ideal` or near it, unless that leaves it empty. -/
def SplitState.cut (units : List UInt16) (s : SplitState) (ideal : Nat) : SplitState :=
  let stop := runEnd units s.start ideal
  if s.start < stop then ⟨stop, ⟨s.start, stop - s.start⟩ :: s.runs⟩ else s

/-- Divides `units` into at most `parts` runs (`split_bounds`). -/
def splitRuns (units : List UInt16) (parts : Nat) : List Run :=
  let size := units.length
  let parts := min (max parts 1) (max size 1)
  let s := ((List.range' 1 (parts - 1)).map (· * size / parts)).foldl (SplitState.cut units) {}
  (if s.start < size then ⟨s.start, size - s.start⟩ :: s.runs else s.runs).reverse

end TextSeek

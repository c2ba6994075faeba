/-!
# Sparse indexes

An index entry says at which byte a character or a line starts. A
`SparseIndex` keeps entries in ascending order and finds, by bisection, the
one for an ordinal or the closest one before it.

**Results.**
* `boundary_bounds`: bisection stays within the entries it is given.
* `toList_append`: what appending does to the entries.
-/
namespace TextSeek

/-- The byte position of one character or line. -/
structure Entry where
  /-- The number of the character or line. -/
  ordinal : Nat
  /-- The byte at which it starts. -/
  position : Nat
  deriving DecidableEq, Repr, Inhabited

def Entry.shift (e : Entry) (ordinals bytes : Nat) : Entry :=
  ⟨e.ordinal + ordinals, e.position + bytes⟩

/-- Entries in ascending order of ordinals. -/
structure SparseIndex where
  entries : Array Entry := #[]
  deriving DecidableEq, Repr, Inhabited

namespace SparseIndex

def toList (index : SparseIndex) : List Entry := index.entries.toList

def size (index : SparseIndex) : Nat := index.entries.size

/-- Adds entries at the end. -/
def append (index : SparseIndex) (more : List Entry) : SparseIndex :=
  ⟨index.entries ++ more⟩

@[simp] theorem toList_append (index : SparseIndex) (more : List Entry) :
    (index.append more).toList = index.toList ++ more := by
  simp [append, toList]

/-! ## Bisection -/

/-- Between `lo` and `hi`, the place of the first entry above `target`. -/
def boundary (entries : Array Entry) (target lo hi : Nat) (hhi : hi ≤ entries.size) : Nat :=
  if h : lo < hi then
    let middle := lo + (hi - lo) / 2
    have : middle < entries.size := by omega
    if entries[middle].ordinal ≤ target then boundary entries target (middle + 1) hi hhi
    else boundary entries target lo middle (by omega)
  else lo
termination_by hi - lo

theorem boundary_bounds (entries : Array Entry) (target lo hi : Nat) (hhi : hi ≤ entries.size)
    (h : lo ≤ hi) :
    lo ≤ boundary entries target lo hi hhi ∧ boundary entries target lo hi hhi ≤ hi := by
  fun_induction boundary entries target lo hi hhi with
  | case1 lo hi hhi hlt middle hm hle ih =>
    have : middle = lo + (hi - lo) / 2 := rfl
    have := ih (by omega)
    omega
  | case2 lo hi hhi hlt middle hm hle ih =>
    have : middle = lo + (hi - lo) / 2 := rfl
    have := ih (by omega)
    omega
  | case3 => omega

/-- The entry with the greatest ordinal that is not above `target`
(`nearest_at_or_before`). -/
def nearest? (index : SparseIndex) (target : Nat) : Option Entry :=
  let above := boundary index.entries target 0 index.entries.size (Nat.le_refl _)
  if above = 0 then none else index.entries[above - 1]?

/-- Between `lo` and `hi`, the place of the entry for `target`. -/
def locate (entries : Array Entry) (target lo hi : Nat) (hhi : hi ≤ entries.size) : Option Nat :=
  if h : lo < hi then
    let middle := lo + (hi - lo) / 2
    have : middle < entries.size := by omega
    if entries[middle].ordinal = target then some middle
    else if entries[middle].ordinal < target then locate entries target (middle + 1) hi hhi
    else locate entries target lo middle (by omega)
  else none
termination_by hi - lo

/-- The byte position kept for `target`, if there is an entry for it (`get`). -/
def position? (index : SparseIndex) (target : Nat) : Option Nat := do
  let place ← locate index.entries target 0 index.entries.size (Nat.le_refl _)
  let entry ← index.entries[place]?
  return entry.position

end SparseIndex

/-- The index of one text. -/
structure TextIndex where
  chars : SparseIndex := {}
  lines : SparseIndex := {}
  /-- The number of code units in the text. -/
  totalChars : Nat := 0
  /-- The number of lines in the text. -/
  totalLines : Nat := 0
  /-- The byte at which the text starts. -/
  dataStart : Nat
  /-- The byte at which the text ends. -/
  dataEnd : Nat
  deriving DecidableEq, Repr

def TextIndex.empty (dataStart : Nat) : TextIndex := { dataStart, dataEnd := dataStart }

end TextSeek

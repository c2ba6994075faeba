import TextSeek.Word

/-!
# Grids of windows

The entries that a partition may place are laid out as a `Grid`: windows of
even size over the partition's units. All numbers are 64-bit words; products
are taken exactly, and a result is cut to a word.

**Results.**
* `windows_le_span`: a grid never has more windows than units.
* `answer?_eq_none`: exactly the queries on an empty grid have no answer.
-/
namespace TextSeek

def ceilDiv (a b : Nat) : Nat := a / b + if a % b = 0 then 0 else 1

/-- Windows of even size over `span` units. -/
structure Grid where
  windows : Nat
  span : Nat
  deriving DecidableEq, Repr

namespace Grid

/-- One window for each entry, but no more windows than units. -/
def ofQuota (quota span : Nat) : Grid := ⟨min quota span, span⟩

theorem windows_le_span (quota span : Nat) : (ofQuota quota span).windows ≤ span :=
  Nat.min_le_right quota span

def isEmpty (g : Grid) : Bool := g.windows == 0

/-- The first unit of window `k` (`window_start`). -/
def windowStart (g : Grid) (k : Nat) : Nat := word (k * g.span / g.windows)

/-- The window of the unit at `position` (`window_of`). -/
def windowOf (g : Grid) (position : Nat) : Nat :=
  wordSub (word (ceilDiv ((position + 1) * g.windows) g.span)) 1

/-- The first unit of the second half of window `k` (`backup_start`). -/
def backupStart (g : Grid) (k : Nat) : Nat :=
  let first := g.windowStart k
  word (first + ceilDiv (wordSub (g.windowStart (word (k + 1))) first) 2)

/-! ## Queries -/

inductive Query where
  /-- Where does a window start? -/
  | start (window : Nat)
  /-- In which window is a unit? -/
  | windowOf (position : Nat)
  /-- Where does the second half of a window start? -/
  | backup (window : Nat)
  deriving DecidableEq, Repr

/-- The answer to a query. On an empty grid there is none. -/
def answer? (g : Grid) (query : Query) : Option Nat :=
  if g.isEmpty then none
  else
    match query with
    | .start k => some (g.windowStart k)
    | .windowOf position => some (g.windowOf position)
    | .backup k => some (g.backupStart k)

theorem answer?_eq_none (g : Grid) (query : Query) : g.answer? query = none ↔ g.isEmpty := by
  unfold answer?
  split
  · next h => simp [h]
  · next h => cases query <;> simp [h]

end Grid
end TextSeek

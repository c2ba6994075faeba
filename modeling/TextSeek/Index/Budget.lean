/-!
# Entry budgets

A `Budget` hands out the entries of one index partition by partition, in
proportion to the bytes of each partition. What a partition is owed in
fractions of an entry, and the entries that it could not place, go on to the
next one. The first partition that holds a byte gets an entry even when its
share is smaller, so that the text always starts with one.

Counts are 64-bit words and shares are binary floating point. How a share is
worked out is a parameter of `quotaBy`: it decides how many entries a partition
gets, and none of the bounds rests on it.

**Results.**
* `quotaBy_le_remaining`: no partition is granted more than is left.
* `remaining_record`: what is placed is taken off the rest.
-/
namespace TextSeek

/-- The entries of one index that are still to be placed. -/
structure Budget where
  /-- The most entries that may be placed; at least one. -/
  maxEntries : UInt64
  /-- The bytes for each entry when all are spread evenly. -/
  distance : UInt64
  /-- The fraction of an entry that is carried on; negative after an advance. -/
  delta : Float := 0.0
  /-- The entries granted and not placed. -/
  lost : UInt64 := 0
  /-- The entries placed. -/
  placed : UInt64 := 0

namespace Budget

/-- The budget for a text of `dataBytes` bytes. -/
def start (dataBytes maxEntries : UInt64) : Budget :=
  let limit := if maxEntries = 0 then 1 else maxEntries
  let even := (dataBytes.toNat + (limit.toNat - 1)) / limit.toNat
  { maxEntries := limit, distance := (max even 1).toUInt64 }

/-- The entries that may still be placed. -/
def remaining (b : Budget) : UInt64 := b.maxEntries - b.placed

/-- The share of a partition: its part of all bytes, what was lost before it
and the fraction carried on. -/
def share (b : Budget) (bytes : UInt64) : Float :=
  bytes.toFloat / b.distance.toFloat + b.lost.toFloat + b.delta

/-- The whole entries in a share; a debt counts as none. -/
def wholePart (share : Float) : Float := if 0.0 < share.floor then share.floor else 0.0

/-- The entries granted to a partition of `bytes` bytes when its share is worked out by
`rule` (`partition_quota`). -/
def quotaBy (rule : Budget → UInt64 → Float) (b : Budget) (bytes : UInt64) : UInt64 × Budget :=
  let share := rule b bytes
  let carried := { b with lost := 0, delta := share - wholePart share }
  let granted := (wholePart share).toUInt64
  if granted == 0 && b.placed == 0 && 0 < bytes then
    (min 1 b.remaining, { carried with delta := carried.delta - 1.0 })
  else (min granted b.remaining, carried)

def quota (b : Budget) (bytes : UInt64) : UInt64 × Budget := b.quotaBy share bytes

/-- Records how many of the entries granted to a partition were placed. -/
def record (b : Budget) (granted placed : UInt64) : Budget :=
  { b with
    placed := b.placed + placed
    lost := b.lost + (if placed ≤ granted then granted - placed else 0) }

/-- Grants entries to a partition that can place up to `wanted`, and records
what it places: the entries granted, those placed, and the budget behind. -/
def spend (b : Budget) (bytes wanted : UInt64) : UInt64 × UInt64 × Budget :=
  let (granted, b) := b.quota bytes
  let placed := min granted wanted
  (granted, placed, b.record granted placed)

theorem remaining_quotaBy (rule : Budget → UInt64 → Float) (b : Budget) (bytes : UInt64) :
    (b.quotaBy rule bytes).2.remaining = b.remaining := by
  simp only [quotaBy, remaining]
  split <;> rfl

theorem quotaBy_le_remaining (rule : Budget → UInt64 → Float) (b : Budget) (bytes : UInt64) :
    (b.quotaBy rule bytes).1 ≤ b.remaining := by
  have hmin (x y : UInt64) : min x y ≤ y := by
    simp only [min]
    split
    · assumption
    · exact UInt64.le_refl y
  simp only [quotaBy]
  split
  · exact hmin _ _
  · exact hmin _ _

theorem remaining_record (b : Budget) (granted placed : UInt64) :
    (b.record granted placed).remaining = b.remaining - placed := by
  simp only [record, remaining, UInt64.sub_eq_add_neg, UInt64.neg_add, UInt64.add_assoc]

end Budget
end TextSeek

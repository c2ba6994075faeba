import TextSeek.Proofs.Index.CheckedRun

/-!
# A budget under any use

A run asks its budget once for each partition and records what the partition has placed. Here
a budget may be asked and told anything in between: partitions of any bytes, in any number and
order, each placing what it likes of its grant (`Budget.Spends`). How a share is worked out
may change from one partition to the next, so no rounding of a share, and no debt carried on
from the partitions before, has a part in what follows.

What carries the run is that the budget counts (`Budget.Counts`): a grant is cut to what is
left, so a record within the grant keeps the count within the limit.

Results:
* `Budget.Spends.counts`: what has been placed is counted, and stays within the limit.
* `Budget.spends_within_limit`: grants, and what is left, after any use.
-/
namespace TextSeek
namespace Budget

/-- `first.Spends total b` : from `first` the budget has come to `b` by grants to partitions
that have placed `total` entries together, none of them more than it was granted. -/
inductive Spends (first : Budget) : Nat → Budget → Prop
  | start : Spends first 0 first
  | next {total placed : Nat} {b : Budget} (rule : Budget → UInt64 → Float) (bytes : UInt64)
      (spent : Spends first total b) (within : placed ≤ (b.quotaBy rule bytes).1.toNat) :
      Spends first (total + placed)
        ((b.quotaBy rule bytes).2.record (b.quotaBy rule bytes).1 placed.toUInt64)

theorem Spends.counts {first b : Budget} {total limit : Nat} (hfirst : first.Counts 0 limit)
    (h : first.Spends total b) : b.Counts total limit := by
  induction h with
  | start => exact hfirst
  | next rule bytes _ within ih => exact ih.record rule bytes within

/-- However a budget of at most `maxEntries` entries has been used, and whatever shares its
partitions were given: they have placed no more than it allows, and what is left is what they
have not placed. The next partition may ask for any share: it is granted no more than is left,
and one entry at least if it holds a byte while nothing has been placed; and whatever it
places of that can be recorded. Neither side of the grant has a difference that falls below
zero. -/
theorem spends_within_limit (dataBytes maxEntries : UInt64) {total : Nat} {b : Budget}
    (h : (start dataBytes maxEntries).Spends total b) :
    total ≤ max maxEntries.toNat 1 ∧
    Checked.remaining b = some b.remaining ∧
    b.remaining.toNat = max maxEntries.toNat 1 - total ∧
    ∀ (rule : Budget → UInt64 → Float) (bytes : UInt64),
      Checked.quotaBy rule b bytes = some (b.quotaBy rule bytes) ∧
      (b.quotaBy rule bytes).1 ≤ b.remaining ∧
      Checked.remaining (b.quotaBy rule bytes).2 = some b.remaining ∧
      (total = 0 → 0 < bytes → 0 < (b.quotaBy rule bytes).1) ∧
      ∀ placed ≤ (b.quotaBy rule bytes).1.toNat,
        ∃ next, Checked.record (b.quotaBy rule bytes).2 (b.quotaBy rule bytes).1 placed =
            some next ∧
          (start dataBytes maxEntries).Spends (total + placed) next := by
  have hcounts := h.counts (start_counts_zero dataBytes maxEntries)
  refine ⟨hcounts.le, Checked.remaining_eq hcounts, hcounts.remaining_eq, fun rule bytes => ?_⟩
  refine ⟨Checked.quotaBy_eq rule hcounts bytes, b.quotaBy_le_remaining rule bytes, ?_, ?_, ?_⟩
  · rw [Checked.remaining_eq (hcounts.granted rule bytes), remaining_quotaBy]
  · rintro rfl hbytes
    exact UInt64.lt_iff_toNat_lt.2 (hcounts.quotaBy_pos (by omega) rule hbytes)
  · intro placed hplaced
    exact ⟨_, Checked.record_eq _ hplaced, h.next rule bytes hplaced⟩

/-- A partition with a debt of a thousand entries is granted one and places none; the next one
is granted one by the budget's own share, and places it. -/
theorem spends_within_limit_debt :
    let first := start 10000 2
    let debt : Budget → UInt64 → Float := fun _ _ => -1000.0
    let behind := (first.quotaBy debt 100).2.record (first.quotaBy debt 100).1 0
    let last := (behind.quotaBy share 100).2.record (behind.quotaBy share 100).1 1
    first.Spends 1 last ∧ last.remaining.toNat = 1 ∧
      ∀ rule bytes, (last.quotaBy rule bytes).1 ≤ last.remaining := by
  intro first debt behind last
  have hbehind : first.Spends 0 behind := Spends.start.next debt 100 (Nat.zero_le _)
  have hgrant : 0 < (behind.quotaBy share 100).1 :=
    ((spends_within_limit 10000 2 hbehind).2.2.2 share 100).2.2.2.1 rfl (by decide)
  have hwithin : 1 ≤ (behind.quotaBy share 100).1.toNat := UInt64.lt_iff_toNat_lt.1 hgrant
  have hlast : first.Spends 1 last := hbehind.next share 100 hwithin
  obtain ⟨-, -, hleft, hnext⟩ := spends_within_limit 10000 2 hlast
  exact ⟨hlast, hleft, fun rule bytes => (hnext rule bytes).2.1⟩

end Budget
end TextSeek

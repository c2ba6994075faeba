import TextSeek.Index.Budget
import TextSeek.Proofs.Index.Choosing

/-!
# The entries picked from a partition

From each window the first mark is picked, and sometimes a later one, so the
entries are some of the marks in their order, and never more than there are
windows.

The budget keeps count of what is placed. No bound rests on the share that it
works out for a partition: what is granted is cut to what is left.

Results:
* `selectEntries_sublist`, `selectEntries_length_le`, `selectEntries_head`: what
  is picked from marks.
* `addLast_sublist`, `addLast_length_le`: the last character added to it.
* `Budget.Counts.record`, `Budget.quotaBy_pos`: what a budget grants.
-/
namespace TextSeek

/-! ## Picking -/

section

variable {g : Grid} {marks : List Mark}

theorem selectEntries_sublist (hg : g.Numbered) (hp : ∀ m ∈ marks, m.place < g.span)
    (hs : marks.Pairwise (·.place < ·.place)) :
    (selectEntries (g.hits marks)).Sublist (marks.map Mark.entry) := by
  rw [selectEntries_hits hg hp hs]
  exact (Grid.chosen_sublist hs g.windows).map Mark.entry

theorem selectEntries_length_le (hg : g.Numbered) (hp : ∀ m ∈ marks, m.place < g.span)
    (hs : marks.Pairwise (·.place < ·.place)) :
    (selectEntries (g.hits marks)).length ≤ g.windows := by
  rw [selectEntries_hits hg hp hs, List.length_map]
  exact Grid.chosen_length_le g.windows

theorem selectEntries_head (hg : g.Numbered) (hne : g.isEmpty = false)
    (hp : ∀ m ∈ marks, m.place < g.span) (hs : marks.Pairwise (·.place < ·.place)) :
    (selectEntries (g.hits marks)).head? = marks.head?.map Mark.entry := by
  cases marks with
  | nil =>
    rw [Grid.hits, if_neg (by simp [hne])]
    rfl
  | cons m rest =>
    have hm := hp m List.mem_cons_self
    rw [selectEntries_hits hg hp hs, List.head?_map,
      Grid.chosen_head? hs (hg.windowOf_lt hne hm) ((hg.windowOf_eq_iff hne hm).1 rfl)]
    rfl

end

/-! ## The last character -/

/-- The last mark goes behind marks of which it is not one. -/
theorem addLast_sublist {entries all : List Entry} (h : entries.Sublist all) (quota : Nat) :
    (addLast entries quota all.getLast?).Sublist all := by
  unfold addLast
  split
  · exact h
  · next last hl =>
    split
    · next hroom =>
      simp only [Bool.and_eq_true, decide_eq_true_eq] at hroom
      obtain ⟨front, rfl⟩ := List.getLast?_eq_some_iff.1 hl
      obtain ⟨a, b, rfl, ha, hb⟩ := List.sublist_append_iff.1 h
      cases b with
      | nil => rw [List.append_nil]; exact ha.append (List.Sublist.refl _)
      | cons e rest =>
        have he : e = last ∧ rest = [] := by
          have := hb.eq_of_length_le (by simp)
          simpa using this
        have := hroom.2
        rw [he.1, he.2, List.getLast?_concat] at this
        simp at this
    · exact h

theorem addLast_length_le {entries : List Entry} {quota : Nat} (h : entries.length ≤ quota)
    (last : Option Entry) : (addLast entries quota last).length ≤ quota := by
  unfold addLast
  split
  · exact h
  · split
    · next hroom =>
      simp only [Bool.and_eq_true, decide_eq_true_eq] at hroom
      rw [List.length_append, List.length_singleton]
      omega
    · exact h

theorem addLast_head {entries : List Entry} {first : Entry} (h : entries.head? = some first)
    (quota : Nat) (last : Option Entry) : (addLast entries quota last).head? = some first := by
  unfold addLast
  split
  · exact h
  · split
    · rw [List.head?_append, h]
      rfl
    · exact h

/-! ## Budgets -/

namespace Budget

/-- The budget has recorded `count` entries and allows no more than `limit`. -/
structure Counts (b : Budget) (count limit : Nat) : Prop where
  placed_eq : b.placed.toNat = count
  max_eq : b.maxEntries.toNat = limit
  le : count ≤ limit

variable {b : Budget} {count limit : Nat}

theorem Counts.remaining_eq (h : b.Counts count limit) : b.remaining.toNat = limit - count := by
  have hle : b.placed ≤ b.maxEntries := by
    rw [UInt64.le_iff_toNat_le, h.placed_eq, h.max_eq]
    exact h.le
  rw [remaining, UInt64.toNat_sub_of_le _ _ hle, h.placed_eq, h.max_eq]

theorem Counts.granted (h : b.Counts count limit) (rule : Budget → UInt64 → Float)
    (bytes : UInt64) : (b.quotaBy rule bytes).2.Counts count limit := by
  have hsame : (b.quotaBy rule bytes).2.placed = b.placed ∧
      (b.quotaBy rule bytes).2.maxEntries = b.maxEntries := by
    simp only [quotaBy]
    split <;> exact ⟨rfl, rfl⟩
  exact ⟨hsame.1 ▸ h.placed_eq, hsame.2 ▸ h.max_eq, h.le⟩

theorem Counts.record (h : b.Counts count limit) (rule : Budget → UInt64 → Float) (bytes : UInt64)
    {n : Nat} (hn : n ≤ (b.quotaBy rule bytes).1.toNat) :
    (((b.quotaBy rule bytes).2.record (b.quotaBy rule bytes).1 n.toUInt64).Counts (count + n)
      limit) := by
  have hgrant := UInt64.le_iff_toNat_le.1 (b.quotaBy_le_remaining rule bytes)
  rw [h.remaining_eq] at hgrant
  have hword := (b.quotaBy rule bytes).1.toNat_lt
  have hle := h.le
  have hmax := h.max_eq
  have hmaxlt := b.maxEntries.toNat_lt
  have hgranted := h.granted rule bytes
  refine ⟨?_, hgranted.max_eq, by omega⟩
  simp only [Budget.record]
  rw [UInt64.toNat_add, hgranted.placed_eq, UInt64.toNat_ofNat',
    Nat.mod_eq_of_lt (a := n) (by omega), Nat.mod_eq_of_lt (by omega)]

/-- The first partition that holds a byte is granted an entry. -/
theorem Counts.quotaBy_pos (h : b.Counts 0 limit) (hl : 0 < limit)
    (rule : Budget → UInt64 → Float) {bytes : UInt64} (hb : 0 < bytes) :
    0 < (b.quotaBy rule bytes).1.toNat := by
  have hrem := h.remaining_eq
  have hplaced : b.placed = 0 := UInt64.toNat_inj.1 (by rw [h.placed_eq]; rfl)
  have hmin {x : UInt64} (hx : 0 < x.toNat) : 0 < (min x b.remaining).toNat := by
    simp only [min]
    split
    · exact hx
    · omega
  simp only [quotaBy]
  split
  · exact hmin (by decide)
  · next hc =>
    simp only [hplaced, hb, decide_true, Bool.and_true, beq_self_eq_true, beq_iff_eq] at hc
    refine hmin (Nat.pos_of_ne_zero fun h0 => hc ?_)
    exact UInt64.toNat_inj.1 h0

/-- A new budget has counted nothing, and allows one entry at least. -/
theorem start_counts_zero (dataBytes maxEntries : UInt64) :
    (start dataBytes maxEntries).Counts 0 (max maxEntries.toNat 1) := by
  refine ⟨rfl, ?_, Nat.zero_le _⟩
  simp only [start]
  split
  · next h0 =>
    subst h0
    rfl
  · next h0 =>
    have hpos : maxEntries.toNat ≠ 0 := fun h => h0 (UInt64.toNat_inj.1 h)
    omega

theorem start_counts (dataBytes maxEntries : Nat) (h : 1 ≤ maxEntries) :
    ∃ limit, 0 < limit ∧ limit ≤ maxEntries ∧
      (start dataBytes.toUInt64 maxEntries.toUInt64).Counts 0 limit := by
  have hle : maxEntries.toUInt64.toNat ≤ maxEntries := by
    rw [UInt64.toNat_ofNat']
    exact Nat.mod_le _ _
  exact ⟨_, Nat.lt_of_lt_of_le Nat.one_pos (Nat.le_max_right _ _), Nat.max_le.2 ⟨hle, h⟩,
    start_counts_zero _ _⟩

end Budget
end TextSeek

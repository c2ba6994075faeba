import Mathlib.Data.List.Sort
import TextSeek.Proofs.Index.Offers

/-!
# The choice among marks

Of every window that holds a mark the first one is chosen. A window without any leaves an
entry owed, and a later window that has a second mark to give, one in its second half,
pays it back: it gives two exactly if the windows without a mark in front of it outnumber
those that have given two (`Grid.Repays`). What is owed is never more than the windows
without a mark, so there are no more entries than windows.

Results:
* `Picked.windows`, `selectEntries_hits`: picking from hits is this choice.
* `chosen_sublist`, `chosen_length_le`, `chosen_head?`: the marks chosen are some of the
  marks in their order, no more than there are windows, the first mark among them.
* `exists_chosen_near`: no mark is far behind a chosen one.
-/
namespace TextSeek

/-! ## Which marks are chosen -/

namespace Grid

/-- The first mark in the second half of a window, if it is not the first one of
the window. -/
def second? (g : Grid) (marks : List Mark) (k : Nat) : Option Mark :=
  (g.backup? marks k).filter fun m => (g.first? marks k).all (·.entry != m.entry)

/-- How many windows before `k` have no mark. -/
def bare (g : Grid) (marks : List Mark) (k : Nat) : Nat :=
  (List.range k).countP fun j => (g.first? marks j).isNone

/-- `twice` tells the windows that give two entries: those with a second mark, as
long as the windows without any mark before it outnumber the second entries. -/
def Repays (g : Grid) (marks : List Mark) (twice : Nat → Bool) : Prop :=
  ∀ k < g.windows, twice k = true ↔
    (g.second? marks k).isSome = true ∧ (List.range k).countP twice < g.bare marks k

/-- The marks picked from window `k`, where `twice` tells the windows that give two. -/
def picks (g : Grid) (marks : List Mark) (twice : Nat → Bool) (k : Nat) : List Mark :=
  (g.first? marks k).toList ++ if twice k then (g.second? marks k).toList else []

/-- The marks picked from the windows before `k`. -/
def chosen (g : Grid) (marks : List Mark) (twice : Nat → Bool) (k : Nat) : List Mark :=
  (List.range k).flatMap (g.picks marks twice)

def repaid (g : Grid) (marks : List Mark) : Nat → Nat
  | 0 => 0
  | k + 1 => g.repaid marks k +
    if (g.second? marks k).isSome && g.repaid marks k < g.bare marks k then 1 else 0

def givesTwo (g : Grid) (marks : List Mark) (k : Nat) : Bool :=
  (g.second? marks k).isSome && g.repaid marks k < g.bare marks k

variable {g : Grid} {marks : List Mark} {m first : Mark} {k : Nat} {twice : Nat → Bool}

theorem repaid_succ (k : Nat) : g.repaid marks (k + 1) =
    g.repaid marks k + if g.givesTwo marks k then 1 else 0 := rfl

theorem repaid_eq (k : Nat) : g.repaid marks k = (List.range k).countP (g.givesTwo marks) := by
  induction k with
  | zero => rfl
  | succ k ih =>
    rw [repaid_succ, List.range_succ, List.countP_append, List.countP_singleton, ← ih]

theorem repays_givesTwo (g : Grid) (marks : List Mark) : g.Repays marks (g.givesTwo marks) := by
  intro k _
  rw [← repaid_eq, givesTwo, Bool.and_eq_true, decide_eq_true_eq]

theorem bare_succ (k : Nat) :
    g.bare marks (k + 1) = g.bare marks k + if (g.first? marks k).isNone then 1 else 0 := by
  rw [bare, List.range_succ, List.countP_append, List.countP_singleton]
  rfl

theorem chosen_succ (k : Nat) :
    g.chosen marks twice (k + 1) = g.chosen marks twice k ++ g.picks marks twice k := by
  rw [chosen, List.range_succ, List.flatMap_append, List.flatMap_singleton, chosen]

theorem second?_eq_none (h : g.first? marks k = none) : g.second? marks k = none := by
  rw [second?, backup?_eq_none h]
  rfl

end Grid

/-! ## Picking from one window after another -/

theorem Picking.take_one {p : Picking} {hit : Hit} (h : ∀ backup, hit.backup = some backup →
      backup ≠ hit.first → p.owed + (hit.window - p.nextWindow) = 0) :
    p.take hit = ⟨hit.first :: p.entries, p.owed + (hit.window - p.nextWindow),
      hit.window + 1⟩ := by
  unfold Picking.take
  simp only
  split
  · rfl
  · next backup hb =>
    rw [if_neg]
    simp only [Bool.and_eq_true, decide_eq_true_eq, bne_iff_ne, not_and]
    intro howed hne
    rw [h backup hb hne] at howed
    exact Nat.lt_irrefl 0 howed

theorem Picking.take_two {p : Picking} {hit : Hit} {backup : Entry} (hb : hit.backup = some backup)
    (hne : backup ≠ hit.first) (howed : 0 < p.owed + (hit.window - p.nextWindow)) :
    p.take hit = ⟨backup :: hit.first :: p.entries, p.owed + (hit.window - p.nextWindow) - 1,
      hit.window + 1⟩ := by
  unfold Picking.take
  simp only [hb]
  rw [if_pos]
  simp only [Bool.and_eq_true, decide_eq_true_eq, bne_iff_ne]
  exact ⟨howed, hne⟩

theorem Picking.take_nextWindow (p : Picking) (hit : Hit) :
    (p.take hit).nextWindow = hit.window + 1 := by
  unfold Picking.take
  simp only
  split
  · rfl
  · split <;> rfl

/-- What has been picked from the windows before `k`. -/
structure Picked (g : Grid) (marks : List Mark) (k : Nat) (p : Picking) : Prop where
  entries_eq : p.entries.reverse = (g.chosen marks (g.givesTwo marks) k).map Mark.entry
  next_le : p.nextWindow ≤ k
  /-- What is owed, also for the windows behind the last hit, and what is repaid make
  up the windows without a mark. -/
  owed_eq : p.owed + (k - p.nextWindow) + g.repaid marks k = g.bare marks k

namespace Picked

variable {g : Grid} {marks : List Mark} {k : Nat} {p : Picking}

theorem start (g : Grid) (marks : List Mark) : Picked g marks 0 {} := ⟨rfl, Nat.le_refl _, rfl⟩

theorem pass (h : Picked g marks k p) (hf : g.first? marks k = none) :
    Picked g marks (k + 1) p := by
  obtain ⟨hentries, hnext, howed⟩ := h
  have hsecond := Grid.second?_eq_none hf
  refine ⟨?_, by omega, ?_⟩
  · rw [Grid.chosen_succ, Grid.picks, hf, hsecond, hentries]
    simp
  · rw [Grid.bare_succ, hf, Grid.repaid_succ, Grid.givesTwo, hsecond]
    simp only [Option.isNone_none, Option.isSome_none, Bool.false_and, if_true, Bool.false_eq_true,
      if_false]
    omega

theorem take (h : Picked g marks k p) {first : Mark} (hf : g.first? marks k = some first) :
    Picked g marks (k + 1)
      (p.take ⟨k, first.entry, (g.backup? marks k).map Mark.entry⟩) := by
  obtain ⟨hentries, hnext, howed⟩ := h
  have hbare : g.bare marks (k + 1) = g.bare marks k := by
    rw [Grid.bare_succ, hf]
    rfl
  have hsecond : g.second? marks k =
      (g.backup? marks k).filter (first.entry != ·.entry) := by
    rw [Grid.second?, hf]
    rfl
  cases htwo : g.givesTwo marks k with
  | true =>
    obtain ⟨hsome, howing⟩ := Bool.and_eq_true_iff.1 htwo
    rw [decide_eq_true_eq] at howing
    obtain ⟨second, hs⟩ := Option.isSome_iff_exists.1 hsome
    have hback := hs
    rw [hsecond, Option.filter_eq_some_iff, bne_iff_ne] at hback
    rw [hback.1, Option.map_some, Picking.take_two rfl (Ne.symm hback.2) (by simp only; omega)]
    refine ⟨?_, Nat.le_refl _, ?_⟩
    · rw [Grid.chosen_succ, Grid.picks, htwo, if_pos rfl, hf, hs]
      simp [hentries]
    · rw [hbare, Grid.repaid_succ, if_pos htwo]
      simp only
      omega
  | false =>
    rw [Picking.take_one]
    · refine ⟨?_, Nat.le_refl _, ?_⟩
      · rw [Grid.chosen_succ, Grid.picks, htwo, hf]
        simp [hentries]
      · rw [hbare, Grid.repaid_succ, htwo, if_neg Bool.false_ne_true]
        simp only
        omega
    · intro backup hb hne
      obtain ⟨second, hs, rfl⟩ := Option.map_eq_some_iff.1 hb
      have hsome : (g.second? marks k).isSome = true := by
        rw [hsecond, hs]
        simp [Option.filter, Ne.symm hne]
      simp only [Grid.givesTwo, hsome, Bool.true_and, decide_eq_false_iff_not] at htwo
      simp only
      omega

theorem windows (g : Grid) (marks : List Mark) (k : Nat) :
    Picked g marks k (((List.range k).filterMap (g.hit? marks)).foldl Picking.take {}) := by
  induction k with
  | zero => exact start g marks
  | succ k ih =>
    rw [List.range_succ, List.filterMap_append, List.foldl_append]
    cases hf : g.first? marks k with
    | none => simpa [Grid.hit?, hf] using ih.pass hf
    | some first => simpa [Grid.hit?, hf] using ih.take hf

end Picked

/-- What is picked from marks: the first of each window, and second ones for windows
without any. -/
theorem selectEntries_hits {g : Grid} {marks : List Mark} (hg : g.Numbered)
    (hp : ∀ m ∈ marks, m.place < g.span) (hs : marks.Pairwise (·.place < ·.place)) :
    selectEntries (g.hits marks) =
      (g.chosen marks (g.givesTwo marks) g.windows).map Mark.entry := by
  rw [selectEntries, Grid.joinHits_hits hg hp hs]
  exact (Picked.windows g marks g.windows).entries_eq

/-! ## The marks chosen -/

namespace Grid

variable {g : Grid} {marks : List Mark} {m first : Mark} {k : Nat} {twice : Nat → Bool}

theorem mem_of_second? (hs : marks.Pairwise (·.place < ·.place))
    (h : g.second? marks k = some m) : ∃ first, g.first? marks k = some first ∧
      first.place < m.place ∧ m ∈ marks ∧ g.Holds k m.place := by
  obtain ⟨hb, hne⟩ := Option.filter_eq_some_iff.1 h
  have hm := List.mem_of_find?_eq_some hb
  have hh : g.Holds k m.place ∧ g.backupStart k ≤ m.place := by simpa using List.find?_some hb
  obtain ⟨first, hf⟩ := exists_first? hm hh.1
  refine ⟨first, hf, ?_, hm, hh.1⟩
  rw [hf, Option.all_some, bne_iff_ne] at hne
  rcases first?_le hs hf hm hh.1 with rfl | hlt
  · exact absurd rfl hne
  · exact hlt

theorem mem_picks (hs : marks.Pairwise (·.place < ·.place)) (h : m ∈ g.picks marks twice k) :
    m ∈ marks ∧ g.Holds k m.place := by
  rcases List.mem_append.1 h with h | h
  · exact mem_of_first? (Option.mem_toList.1 h)
  · split at h
    · obtain ⟨-, -, -, hm⟩ := mem_of_second? hs (Option.mem_toList.1 h)
      exact hm
    · cases h

theorem picks_ascend (hs : marks.Pairwise (·.place < ·.place)) :
    (g.picks marks twice k).Pairwise (·.place < ·.place) := by
  unfold picks
  rw [List.pairwise_append]
  refine ⟨?_, ?_, ?_⟩
  · cases g.first? marks k <;> simp
  · split
    · cases g.second? marks k <;> simp
    · exact .nil
  · intro m hm m' hm'
    split at hm'
    · obtain ⟨first, hf, hlt, -⟩ := mem_of_second? hs (Option.mem_toList.1 hm')
      rw [Option.mem_toList.1 hm, Option.some.injEq] at hf
      rw [hf]
      exact hlt
    · cases hm'

theorem mem_chosen (hs : marks.Pairwise (·.place < ·.place))
    (h : m ∈ g.chosen marks twice k) : m ∈ marks ∧ ∃ j < k, g.Holds j m.place := by
  obtain ⟨j, hj, hm⟩ := List.mem_flatMap.1 h
  obtain ⟨hmem, hh⟩ := mem_picks hs hm
  exact ⟨hmem, j, List.mem_range.1 hj, hh⟩

theorem chosen_ascend (hs : marks.Pairwise (·.place < ·.place)) (k : Nat) :
    (g.chosen marks twice k).Pairwise (·.place < ·.place) := by
  induction k with
  | zero => exact .nil
  | succ k ih =>
    rw [chosen_succ, List.pairwise_append]
    refine ⟨ih, picks_ascend hs, ?_⟩
    intro m hm m' hm'
    obtain ⟨-, j, hj, hh⟩ := mem_chosen hs hm
    exact hh.lt (mem_picks hs hm').2 hj

theorem chosen_sublist (hs : marks.Pairwise (·.place < ·.place)) (k : Nat) :
    (g.chosen marks twice k).Sublist marks := by
  have hasymm : Std.Antisymm fun a b : Mark => a.place < b.place :=
    ⟨fun a b h h' => absurd h (Nat.lt_asymm h')⟩
  have hirrefl : Std.Irrefl fun a b : Mark => a.place < b.place := ⟨fun a => Nat.lt_irrefl _⟩
  have hascend : (g.chosen marks twice k).Pairwise (·.place < ·.place) := chosen_ascend hs k
  apply List.sublist_of_subperm_of_pairwise _ hascend hs
  apply List.subperm_of_subset hascend.nodup
  intro m hm
  exact (mem_chosen hs hm).1

theorem repaid_le_bare (k : Nat) : g.repaid marks k ≤ g.bare marks k := by
  induction k with
  | zero => exact Nat.le_refl 0
  | succ k ih =>
    rw [repaid_succ, bare_succ]
    cases htwo : g.givesTwo marks k with
    | false => simp only [Bool.false_eq_true, if_false]; omega
    | true =>
      obtain ⟨-, howing⟩ := Bool.and_eq_true_iff.1 htwo
      rw [decide_eq_true_eq] at howing
      simp only [if_true]
      omega

/-- Second entries do no more than make up for windows without a mark. -/
theorem chosen_length_le (k : Nat) : (g.chosen marks (g.givesTwo marks) k).length ≤ k := by
  have hcount : (g.chosen marks (g.givesTwo marks) k).length + g.bare marks k ≤
      k + g.repaid marks k := by
    induction k with
    | zero => exact Nat.le_refl 0
    | succ k ih =>
      rw [chosen_succ, List.length_append, bare_succ, repaid_succ, picks]
      cases hf : g.first? marks k with
      | none =>
        simp [second?_eq_none hf]
        omega
      | some first =>
        have := Option.length_toList_le (o := g.second? marks k)
        cases g.givesTwo marks k <;> simp <;> omega
  have hle : g.repaid marks k ≤ g.bare marks k := repaid_le_bare k
  omega

/-- The first mark of a window is chosen. -/
theorem first?_mem_chosen {n : Nat} (hk : k < n) (hf : g.first? marks k = some first) :
    first ∈ g.chosen marks twice n :=
  List.mem_flatMap.2 ⟨k, List.mem_range.2 hk,
    List.mem_append_left _ (Option.mem_toList.2 hf)⟩

/-- In front of every mark, by less than the width of a window, or at its place a mark is
chosen. -/
theorem exists_chosen_near (hg : g.Numbered) (hne : g.isEmpty = false)
    (hs : marks.Pairwise (·.place < ·.place)) (hm : m ∈ marks) (hp : m.place < g.span) :
    ∃ first ∈ g.chosen marks twice g.windows,
      first.place ≤ m.place ∧ m.place < first.place + ceilDiv g.span g.windows := by
  have hlt := hg.windowOf_lt hne hp
  have hh := (hg.windowOf_eq_iff hne hp).1 rfl
  generalize g.windowOf m.place = k at hlt hh
  obtain ⟨first, hf⟩ := exists_first? hm hh
  refine ⟨first, first?_mem_chosen hlt hf, ?_, ?_⟩
  · rcases first?_le hs hf hm hh with rfl | hle
    · exact Nat.le_refl _
    · exact Nat.le_of_lt hle
  · exact (mem_of_first? hf).2.lt_add_ceilDiv (by omega) hh

/-- The first mark of all is chosen first. -/
theorem chosen_head? {rest : List Mark} (hs : (m :: rest).Pairwise (·.place < ·.place))
    (hk : k < g.windows) (hh : g.Holds k m.place) :
    (g.chosen (m :: rest) twice g.windows).head? = some m := by
  have hf : g.first? (m :: rest) k = some m := List.find?_cons_of_pos (by simpa using hh)
  have hchosen : m ∈ g.chosen (m :: rest) twice g.windows := first?_mem_chosen hk hf
  have hsub : (g.chosen (m :: rest) twice g.windows).Sublist (m :: rest) :=
    chosen_sublist hs g.windows
  cases hc : g.chosen (m :: rest) twice g.windows with
  | nil =>
    rw [hc] at hchosen
    cases hchosen
  | cons head tail =>
    rw [hc] at hchosen hsub
    rcases List.mem_cons.1 hchosen with rfl | hm
    · rfl
    · -- then `m` would stand behind itself
      have hbehind : m ∈ rest := (List.cons_sublist_cons'.1 hsub).elim
        (fun h => h.subset (List.mem_cons_of_mem head hm)) (fun h => h.2.subset hm)
      have := (List.pairwise_cons.1 hs).1 m hbehind
      omega

end Grid

end TextSeek

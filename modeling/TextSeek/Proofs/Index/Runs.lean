import TextSeek.Proofs.Index.Division

/-!
# How a partition is divided among workers

The ends of the runs are first laid out evenly, and each moves back by one unit where it
would part a line end or a pair. Moved, it may fall on the start of its run: then there is
no such run, and the next one begins where it would have begun. So there are at most as
many runs as asked for, and none is longer than an even part by more than one unit
(`Spread`).

Results:
* `runEnd_whole`: an end parts nothing that belongs together.
* `Spread.cut`, `spread_ideals`: what one end cuts off, and what all of them do.
* `splitRuns_divides`: the runs of a partition.
-/
namespace TextSeek

/-! ## Ends of runs -/

/-- The units on both sides of a place are a line end or a pair. -/
def Torn (units : List UInt16) (place : Nat) : Prop :=
  (units[place - 1]? = some carriageReturn ∧ units[place]? = some lineFeed) ∨
    (units[place - 1]?.any CodeUnit.isHighSurrogate = true ∧
      units[place]?.any CodeUnit.isLowSurrogate = true)

theorem Torn.binds {units : List UInt16} {place : Nat} (h : Torn units place) :
    units[place - 1]?.any bindsNext = true := by
  rcases h with ⟨h, -⟩ | ⟨h, -⟩
  · rw [h]
    rfl
  · obtain ⟨unit, hu, hhigh⟩ := (Option.any_eq_true ..).1 h
    rw [hu, Option.any_some, bindsNext, hhigh, Bool.or_true]

theorem Torn.binds_behind {units : List UInt16} {place : Nat} (h : Torn units place) :
    units[place]?.any bindsNext = false := by
  rcases h with ⟨-, h⟩ | ⟨-, h⟩
  · rw [h]
    decide
  · obtain ⟨unit, hu, hlow⟩ := (Option.any_eq_true ..).1 h
    have hhigh : CodeUnit.isHighSurrogate unit = false := by
      cases hhigh : CodeUnit.isHighSurrogate unit with
      | false => rfl
      | true =>
        rw [CodeUnit.isLowSurrogate_eq_false_of_high hhigh] at hlow
        cases hlow
    have hreturn : (unit == carriageReturn) = false := by
      rw [beq_eq_false_iff_ne]
      rintro rfl
      revert hlow
      decide
    rw [hu, Option.any_some, bindsNext, hhigh, hreturn]
    rfl

/-- An end that has moved stands in front of a unit to which something belongs, and one
that has not stands behind a unit to which nothing does. -/
theorem runEnd_whole (units : List UInt16) (start ideal : Nat) :
    start < runEnd units start ideal → ¬ Torn units (runEnd units start ideal) := by
  unfold runEnd
  simp only
  split
  · next h =>
    simp only [Bool.and_eq_true, decide_eq_true_eq] at h
    intro _ htorn
    have := htorn.binds_behind
    rw [h.2] at this
    cases this
  · next h =>
    intro hlt htorn
    simp only [Bool.and_eq_true, decide_eq_true_eq, not_and] at h
    exact h hlt htorn.binds

/-! ## Ends one after another -/

/-- How the units are divided when ends up to `ideal` have been laid out, `count` of them
and none further than `width` from the one before. -/
structure Spread (units : List UInt16) (width count ideal : Nat) (s : SplitState) : Prop where
  near : ideal ≤ s.start + 1
  few : s.runs.length ≤ count
  runs : ∀ run ∈ s.runs, 0 < run.length ∧ run.length ≤ width + 1 ∧ ¬ Torn units run.stop

theorem spread_start (units : List UInt16) (width : Nat) : Spread units width 0 0 {} :=
  ⟨Nat.zero_le _, Nat.le_refl _, fun _ h => nomatch h⟩

theorem Spread.cut {units : List UInt16} {width count ideal next : Nat} {s : SplitState}
    (h : Spread units width count ideal s) (hnext : next ≤ ideal + width) :
    Spread units width (count + 1) next (s.cut units next) := by
  obtain ⟨hle, hmax, hnear⟩ := runEnd_bounds units s.start next
  have hwhole := runEnd_whole units s.start next
  have hprevious := h.near
  simp only [SplitState.cut]
  generalize runEnd units s.start next = stop at *
  split
  · next hlt =>
    have hstop : s.start + (stop - s.start) = stop := by omega
    refine ⟨hnear, Nat.succ_le_succ h.few, ?_⟩
    intro run hrun
    rcases List.mem_cons.1 hrun with rfl | hrun
    · refine ⟨by simp only; omega, by simp only; omega, ?_⟩
      rw [Run.stop, hstop]
      exact hwhole hlt
    · exact h.runs run hrun
  · next hstay => exact ⟨by omega, Nat.le_succ_of_le h.few, h.runs⟩

/-- The ends of even parts, laid out one after another. -/
theorem spread_ideals (units : List UInt16) {parts : Nat} (hparts : 0 < parts) (count : Nat) :
    Spread units (ceilDiv units.length parts) count (count * units.length / parts)
      (((List.range' 1 count).map (· * units.length / parts)).foldl (SplitState.cut units) {}) := by
  induction count with
  | zero =>
    rw [Nat.zero_mul, Nat.zero_div]
    exact spread_start units _
  | succ count ih =>
    rw [List.range'_1_concat, List.map_append, List.foldl_append, Nat.add_comm 1 count]
    exact ih.cut (succ_mul_div_le count hparts)

/-! ## All runs -/

/-- The runs divide the units into parts without units between them. -/
structure Divides (units : List UInt16) (parts : Nat) (runs : List Run) : Prop where
  tiles : Tiles 0 units.length runs
  nonempty : ∀ run ∈ runs, 0 < run.length
  few : runs.length ≤ parts
  even : ∀ run ∈ runs, run.length ≤ ceilDiv units.length parts + 1
  /-- No cut parts a line end or a pair. -/
  whole : ∀ front a b back, runs = front ++ a :: b :: back →
    b.start = a.stop ∧ ¬ Torn units a.stop

theorem Tiles.next_start {start stop : Nat} {front back : List Run} {a b : Run}
    (h : Tiles start stop (front ++ a :: b :: back)) : b.start = a.stop := by
  induction front generalizing start with
  | nil =>
    cases h with
    | cons h => cases h with
      | cons _ => rfl
  | cons run front ih =>
    cases h with
    | cons h => exact ih h

theorem Spread.mem_runs {units : List UInt16} {width count ideal : Nat} {s : SplitState}
    (h : Spread units width count ideal s) (hlast : units.length - s.start ≤ width + 1)
    {run : Run} (hrun : run ∈ (if s.start < units.length then
      ⟨s.start, units.length - s.start⟩ :: s.runs else s.runs).reverse) :
    0 < run.length ∧ run.length ≤ width + 1 := by
  have hcut (hrun : run ∈ s.runs) : 0 < run.length ∧ run.length ≤ width + 1 := by
    obtain ⟨hpos, hle, -⟩ := h.runs run hrun
    exact ⟨hpos, hle⟩
  rw [List.mem_reverse] at hrun
  split at hrun
  · next hlt =>
    rcases List.mem_cons.1 hrun with rfl | hrun
    · simp only
      omega
    · exact hcut hrun
  · exact hcut hrun

theorem mem_runs_of_next {s : SplitState} {last a b : Run} {front back : List Run} {left : Prop}
    [Decidable left]
    (h : (if left then last :: s.runs else s.runs).reverse = front ++ a :: b :: back) :
    a ∈ s.runs := by
  rw [List.reverse_eq_iff, List.reverse_append, List.reverse_cons, List.reverse_cons,
    List.append_assoc, List.append_assoc, List.singleton_append, List.singleton_append] at h
  split at h
  · cases hback : back.reverse with
    | nil =>
      rw [hback, List.nil_append] at h
      rw [(List.cons.inj h).2]
      exact List.mem_cons_self
    | cons first rest =>
      rw [hback, List.cons_append] at h
      rw [(List.cons.inj h).2]
      simp
  · rw [h]
    simp

/-- However many runs are asked for, there are no more of them, and no more than units;
each has a unit, and at most one more than an even part; together they are the units, and
no cut parts a line end or a pair. -/
theorem splitRuns_divides (units : List UInt16) (parts : Nat) :
    Divides units (min (max parts 1) (max units.length 1)) (splitRuns units parts) := by
  have htiles := splitRuns_tiles units parts
  unfold splitRuns at htiles ⊢
  simp only at htiles ⊢
  have hpos : 0 < min (max parts 1) (max units.length 1) := by omega
  generalize min (max parts 1) (max units.length 1) = parts at *
  have hspread := spread_ideals units hpos (parts - 1)
  generalize List.foldl (SplitState.cut units) {} _ = s at *
  -- behind the last end the units of one even part are left, and one more at most
  have hlast : units.length - s.start ≤ ceilDiv units.length parts + 1 := by
    have hstep := succ_mul_div_le (parts - 1) (a := units.length) hpos
    rw [Nat.sub_add_cancel hpos, Nat.mul_div_cancel_left _ hpos] at hstep
    have hnear := hspread.near
    omega
  have hfew := hspread.few
  refine ⟨htiles, ?_, ?_, ?_, ?_⟩
  · intro run hrun
    exact (hspread.mem_runs hlast hrun).1
  · split
    · rw [List.length_reverse, List.length_cons]
      omega
    · rw [List.length_reverse]
      omega
  · intro run hrun
    exact (hspread.mem_runs hlast hrun).2
  · intro front a b back hruns
    have hmem : a ∈ s.runs := mem_runs_of_next hruns
    rw [hruns] at htiles
    exact ⟨htiles.next_start, (hspread.runs a hmem).2.2⟩

/-- More parts than units: line ends and pairs stay whole, and there are fewer runs. -/
example : splitRuns [0x61, 0x0D, 0x0D, 0x0A, 0xD83D, 0xDE00] 6 =
    [⟨0, 1⟩, ⟨1, 1⟩, ⟨2, 2⟩, ⟨4, 2⟩] := by decide

end TextSeek

import TextSeek.Proofs.Text.Characters
import TextSeek.Text.Lines

/-!
# The lines of a text

`lineStarts` walks over a text once. A walk that starts in the middle finds the
same places if it starts where a line starts, so the lines can be found from
any of them on; and the lines are counted by their ends.

Results:
* `mem_lineStarts`: a line starts at the first unit, and behind every line end.
* `lineStarts_drop`: the lines from one of them on.
* `lineStarts_succ_of_end`, `lineStarts_succ_of_pair`, `lineStarts_succ_of_inside`:
  how one unit, or a carriage return with its line feed, is passed.
* `lineEnds_cons_feed`, `lineEnds_cons_pair`, `lineEnds_cons_return`,
  `lineEnds_cons_inside`: which units count as line ends.
* `lineStarts_length`: lines are line ends, and one more if text is left over.
* `lineStarts_of_start`: a line is numbered by the line ends in front of it.
-/
namespace TextSeek

/-! ## Walks -/

theorem lineStarts_go_add (k offset : Nat) (previous : Option UInt16) (units : List UInt16) :
    lineStarts.go (offset + k) previous units =
      (lineStarts.go offset previous units).map (· + k) := by
  induction units generalizing offset previous with
  | nil => rfl
  | cons unit rest ih =>
    simp only [lineStarts.go]
    rw [show offset + k + 1 = offset + 1 + k by omega, ih]
    split <;> rfl

theorem lineStarts_go_eq (offset : Nat) (previous : Option UInt16) (units : List UInt16)
    (h : ∀ unit, units.head? = some unit → startsLine true previous unit = true) :
    lineStarts.go offset previous units = (lineStarts units).map (· + offset) := by
  rw [lineStarts, ← lineStarts_go_add, Nat.zero_add]
  cases units with
  | nil => rfl
  | cons unit rest => simp only [lineStarts.go, h unit rfl]; rfl

/-- Whether a unit starts a line is settled by the unit before it. -/
theorem mem_lineStarts_go {j offset : Nat} {previous : Option UInt16} {units : List UInt16} :
    j ∈ lineStarts.go offset previous units ↔ ∃ i unit, j = offset + i ∧ units[i]? = some unit ∧
      startsLine true (if i = 0 then previous else units[i - 1]?) unit = true := by
  induction units generalizing offset previous with
  | nil => simp [lineStarts.go]
  | cons unit rest ih =>
    have htail : j ∈ lineStarts.go (offset + 1) (some unit) rest ↔ ∃ i u, j = offset + (i + 1) ∧
        (unit :: rest)[i + 1]? = some u ∧
        startsLine true (if i + 1 = 0 then previous else (unit :: rest)[i + 1 - 1]?) u = true := by
      rw [ih]
      apply exists_congr
      intro i
      apply exists_congr
      intro u
      cases i with
      | zero => simp
      | succ i => simp; omega
    constructor
    · intro h
      simp only [lineStarts.go] at h
      split at h
      · next hs =>
        rcases List.mem_cons.1 h with rfl | h
        · exact ⟨0, unit, rfl, rfl, hs⟩
        · obtain ⟨i, u, h⟩ := htail.1 h
          exact ⟨i + 1, u, h⟩
      · obtain ⟨i, u, h⟩ := htail.1 h
        exact ⟨i + 1, u, h⟩
    · rintro ⟨i, u, hj, hu, hs⟩
      simp only [lineStarts.go]
      cases i with
      | zero =>
        simp only [List.getElem?_cons_zero, Option.some.injEq] at hu
        subst hu
        rw [if_pos (by simpa using hs)]
        exact List.mem_cons.2 (.inl hj)
      | succ i =>
        have := htail.2 ⟨i, u, hj, hu, hs⟩
        split
        · exact List.mem_cons_of_mem _ this
        · exact this

/-- A line starts at the first unit, and at every unit behind a line end. -/
theorem mem_lineStarts {j : Nat} {units : List UInt16} :
    j ∈ lineStarts units ↔ ∃ unit, units[j]? = some unit ∧
      (j = 0 ∨ ∃ previous, units[j - 1]? = some previous ∧
        endsLine previous (some unit) = true) := by
  rw [lineStarts, mem_lineStarts_go]
  constructor
  · rintro ⟨i, unit, rfl, hu, hs⟩
    rw [Nat.zero_add]
    refine ⟨unit, hu, ?_⟩
    by_cases h0 : i = 0
    · exact .inl h0
    · rw [if_neg h0] at hs
      obtain ⟨hlt, -⟩ := List.getElem?_eq_some_iff.1 hu
      have hp := List.getElem?_eq_getElem (show i - 1 < units.length by omega)
      rw [hp] at hs
      exact .inr ⟨_, hp, hs⟩
  · rintro ⟨unit, hu, h⟩
    refine ⟨j, unit, (Nat.zero_add j).symm, hu, ?_⟩
    split
    · rfl
    next h0 =>
      rcases h with rfl | ⟨previous, hp, he⟩
      · exact absurd rfl h0
      · rw [hp]; exact he

/-! ## Lines from one of them on -/

theorem lineStarts_go_drop {k j offset : Nat} {previous : Option UInt16} {units : List UInt16}
    (h : (lineStarts.go offset previous units)[k]? = some j) :
    offset ≤ j ∧ (lineStarts.go offset previous units).drop k =
      (lineStarts (units.drop (j - offset))).map (· + j) := by
  induction units generalizing offset previous k with
  | nil => simp [lineStarts.go] at h
  | cons unit rest ih =>
    have later {k : Nat} (h : (lineStarts.go (offset + 1) (some unit) rest)[k]? = some j) :
        offset ≤ j ∧ (lineStarts.go (offset + 1) (some unit) rest).drop k =
          (lineStarts ((unit :: rest).drop (j - offset))).map (· + j) := by
      obtain ⟨hle, hd⟩ := ih h
      rw [hd, show j - offset = (j - (offset + 1)) + 1 by omega, List.drop_succ_cons]
      exact ⟨by omega, rfl⟩
    by_cases hs : startsLine true previous unit = true
    · cases k with
      | zero =>
        simp only [lineStarts.go, hs, if_true, List.getElem?_cons_zero, Option.some.injEq] at h
        subst h
        rw [List.drop_zero, Nat.sub_self, List.drop_zero]
        exact ⟨Nat.le_refl _, lineStarts_go_eq _ _ _ fun u hu => by cases hu; exact hs⟩
      | succ k =>
        simp only [lineStarts.go, hs, if_true, List.getElem?_cons_succ, List.drop_succ_cons] at h ⊢
        exact later h
    · simp only [lineStarts.go, hs] at h ⊢
      exact later h

/-- The lines behind the start of one of them are those of the rest of the
text. -/
theorem lineStarts_drop {units : List UInt16} {k j : Nat} (h : (lineStarts units)[k]? = some j)
    (m : Nat) :
    (lineStarts units)[k + m]? = ((lineStarts (units.drop j))[m]?).map (· + j) := by
  have := (lineStarts_go_drop h).2
  rw [Nat.sub_zero] at this
  rw [← List.getElem?_map, ← this, List.getElem?_drop]
  rfl

theorem take_append_cons_drop {α : Type} {l : List α} {i : Nat} {a : α} (h : l[i]? = some a) :
    l.take i ++ a :: l.drop (i + 1) = l := by
  obtain ⟨hi, rfl⟩ := List.getElem?_eq_some_iff.1 h
  rw [List.getElem_cons_drop, List.take_append_drop]

theorem getLast?_cons_or {α : Type} (unit : α) (rest : List α) (previous : Option α) :
    (unit :: rest).getLast?.or previous = rest.getLast?.or (some unit) := by
  rw [List.getLast?_cons]
  cases rest.getLast? <;> rfl

theorem lineStarts_go_append (offset : Nat) (previous : Option UInt16) (a b : List UInt16) :
    lineStarts.go offset previous (a ++ b) = lineStarts.go offset previous a ++
      lineStarts.go (offset + a.length) (a.getLast?.or previous) b := by
  induction a generalizing offset previous with
  | nil => rfl
  | cons unit rest ih =>
    rw [List.cons_append, lineStarts.go, lineStarts.go, ih, getLast?_cons_or, List.length_cons,
      show offset + 1 + rest.length = offset + (rest.length + 1) by omega]
    split <;> rfl

/-- More text adds lines and moves none. -/
theorem lineStarts_append (a b : List UInt16) :
    lineStarts (a ++ b) = lineStarts a ++ lineStarts.go a.length a.getLast? b := by
  have := lineStarts_go_append 0 none a b
  rw [Option.or_none, Nat.zero_add] at this
  exact this

theorem lineStarts_lt {units : List UInt16} {k j : Nat} (h : (lineStarts units)[k]? = some j) :
    j < units.length := by
  obtain ⟨unit, hu, -⟩ := mem_lineStarts.1 (List.mem_of_getElem? h)
  exact (List.getElem?_eq_some_iff.1 hu).1

theorem lineStarts_zero {units : List UInt16} (h : units ≠ []) :
    (lineStarts units)[0]? = some 0 := by
  cases units with
  | nil => exact absurd rfl h
  | cons unit rest => rfl

/-! ## Passing units -/

theorem lineStarts_succ_of_end {unit : UInt16} {rest : List UInt16}
    (h : ∀ next, rest.head? = some next → endsLine unit (some next) = true) (m : Nat) :
    (lineStarts (unit :: rest))[m + 1]? = ((lineStarts rest)[m]?).map (· + 1) := by
  rw [show lineStarts (unit :: rest) = 0 :: lineStarts.go 1 (some unit) rest from rfl,
    List.getElem?_cons_succ, lineStarts_go_eq _ _ _ h, List.getElem?_map]

theorem lineStarts_succ_of_inside {unit : UInt16} {rest : List UInt16}
    (h : ∀ next, rest.head? = some next → endsLine unit (some next) = false) (m : Nat) :
    (lineStarts (unit :: rest))[m + 1]? = ((lineStarts rest)[m + 1]?).map (· + 1) := by
  cases rest with
  | nil => rfl
  | cons next rest =>
    have hs : startsLine true (some unit) next = false := h next rfl
    rw [show lineStarts (unit :: next :: rest) = 0 :: lineStarts.go 1 (some unit) (next :: rest)
        from rfl, List.getElem?_cons_succ,
      show lineStarts (next :: rest) = 0 :: lineStarts.go 1 (some next) rest from rfl,
      List.getElem?_cons_succ, lineStarts.go, hs, if_neg (by simp), lineStarts_go_add 1 1,
      List.getElem?_map]

theorem lineStarts_succ_of_pair (rest : List UInt16) (m : Nat) :
    (lineStarts (carriageReturn :: lineFeed :: rest))[m + 1]? =
      ((lineStarts rest)[m]?).map (· + 2) := by
  rw [lineStarts_succ_of_inside (fun _ h => by cases h; decide),
    lineStarts_succ_of_end (fun _ _ => rfl), Option.map_map]
  rfl

/-! ## Counting -/

theorem lineEnds_cons_feed (rest : List UInt16) :
    lineEnds (lineFeed :: rest) none = 1 + lineEnds rest none := rfl

theorem lineEnds_cons_pair (rest : List UInt16) :
    lineEnds (carriageReturn :: lineFeed :: rest) none = 1 + lineEnds rest none := by
  rw [lineEnds, lineEnds, List.head?_cons, Option.some_or, if_neg (by decide), if_pos (by rfl),
    Nat.zero_add]

theorem lineEnds_cons_return {rest : List UInt16} (h : rest.head? ≠ some lineFeed) :
    lineEnds (carriageReturn :: rest) none = 1 + lineEnds rest none := by
  rw [lineEnds, Option.or_none, if_pos]
  simp [endsLine, h]

theorem lineEnds_cons_inside {unit : UInt16} (hn : unit ≠ lineFeed) (hr : unit ≠ carriageReturn)
    (rest : List UInt16) : lineEnds (unit :: rest) none = lineEnds rest none := by
  rw [lineEnds, if_neg, Nat.zero_add]
  simp [endsLine, hn, hr]

theorem lineStarts_go_length (offset : Nat) (previous : Option UInt16) (unit : UInt16)
    (rest : List UInt16) :
    (lineStarts.go offset previous (unit :: rest)).length +
        (if startsLine true previous unit then 0 else 1) =
      lineEnds (unit :: rest) none +
        (if ((unit :: rest).getLast?.all fun last => endsLine last none) then 0 else 1) := by
  induction rest generalizing offset previous unit with
  | nil =>
    cases hs : startsLine true previous unit <;> cases he : endsLine unit none <;>
      simp [lineStarts.go, lineEnds, hs, he]
  | cons next rest ih =>
    have ih := ih (offset + 1) (some unit) next
    have hs : startsLine true (some unit) next = endsLine unit (some next) := rfl
    rw [hs] at ih
    rw [List.getLast?_cons_cons, lineEnds, List.head?_cons, Option.some_or, lineStarts.go]
    cases h : startsLine true previous unit <;> cases he : endsLine unit (some next) <;>
      simp only [he, Bool.false_eq_true, if_true, if_false, List.length_cons] at ih ⊢ <;> omega

/-- A text has as many lines as line ends, and one more if text is left over
behind the last of them. -/
theorem lineStarts_length (units : List UInt16) :
    (lineStarts units).length = lineEnds units none +
      (if (units.getLast?.all fun last => endsLine last none) then 0 else 1) := by
  cases units with
  | nil => rfl
  | cons unit rest => exact lineStarts_go_length 0 none unit rest

theorem endsLine_none {unit : UInt16} {next : Option UInt16} (h : endsLine unit next = true) :
    endsLine unit none = true := by
  simp only [endsLine, Bool.or_eq_true, Bool.and_eq_true] at h ⊢
  exact h.imp_right fun h => ⟨h.1, rfl⟩

/-- Unless a line end is divided, the unit at its end decides alone. -/
theorem endsLine_eq {unit : UInt16} {next : Option UInt16}
    (h : ¬ (unit = carriageReturn ∧ next = some lineFeed)) :
    endsLine unit next = (unit == lineFeed || unit == carriageReturn) := by
  unfold endsLine
  by_cases hcr : unit = carriageReturn
  · have hne : next ≠ some lineFeed := fun hn => h ⟨hcr, hn⟩
    have : (next != some lineFeed) = true := by simpa using hne
    rw [this, Bool.and_true]
  · have : (unit == carriageReturn) = false := by simpa using hcr
    rw [this, Bool.false_and]

theorem endsLine_not_high {unit : UInt16} {next : Option UInt16} (h : endsLine unit next = true) :
    CodeUnit.isHighSurrogate unit = false := by
  simp only [endsLine, Bool.or_eq_true, Bool.and_eq_true, beq_iff_eq] at h
  rcases h with rfl | ⟨rfl, -⟩ <;> decide

/-- No line starts in the middle of a pair. -/
theorem Paired.lineStart_not_low {units : List UInt16} (hp : Paired units) {n start : Nat}
    {unit : UInt16} (hs : (lineStarts units)[n]? = some start) (hu : units[start]? = some unit) :
    CodeUnit.isLowSurrogate unit = false := by
  rw [← take_append_cons_drop hu] at hp
  apply hp.not_low
  intro last hlast
  rcases mem_lineStarts.1 (List.mem_of_getElem? hs) with ⟨_, _, rfl | ⟨previous, hprev, he⟩⟩
  · rw [List.take_zero] at hlast
    cases hlast
  · by_cases h0 : start = 0
    · rw [h0, List.take_zero] at hlast
      cases hlast
    · rw [List.getLast?_take, if_neg h0, hprev, Option.some_or, Option.some.injEq] at hlast
      rw [← hlast]
      exact endsLine_not_high he

/-- In front of a line start there are as many lines as line ends. -/
theorem lineStarts_length_of_start {front : List UInt16} {unit : UInt16}
    (h : startsLine true front.getLast? unit = true) :
    (lineStarts front).length = lineEnds front (some unit) := by
  rw [lineStarts_length]
  cases hl : front.getLast? with
  | none => rw [List.getLast?_eq_none_iff.1 hl]; rfl
  | some last =>
    rw [hl] at h
    obtain ⟨init, rfl⟩ := List.getLast?_eq_some_iff.1 hl
    have he : endsLine last (some unit) = true := h
    have hn := endsLine_none he
    rw [lineEnds_append, lineEnds_append]
    simp [lineEnds, he, hn]

/-- The number of the line that starts at a unit. -/
theorem lineStarts_of_start {front back : List UInt16} {unit : UInt16}
    (h : startsLine true front.getLast? unit = true) :
    (lineStarts (front ++ unit :: back))[lineEnds front (some unit)]? = some front.length := by
  have hgo : lineStarts.go front.length front.getLast? (unit :: back) =
      front.length :: lineStarts.go (front.length + 1) (some unit) back := by
    rw [lineStarts.go, if_pos h]
  have happ : lineStarts (front ++ unit :: back) = lineStarts front ++
      front.length :: lineStarts.go (front.length + 1) (some unit) back := by
    rw [lineStarts_append, hgo]
  rw [← lineStarts_length_of_start h, happ, List.getElem?_append_right (Nat.le_refl _),
    Nat.sub_self, List.getElem?_cons_zero]

end TextSeek

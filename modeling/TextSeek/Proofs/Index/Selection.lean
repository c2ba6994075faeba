import TextSeek.Proofs.Index.Growth

/-!
# What a partition places

A partition offers one candidate for each unit that an entry may point at. However it is
divided into runs, it places of each window the first candidate, and a second one where
the windows without any outnumber the second ones placed so far (`Grid.Repays`); and it
places its last character if it was granted more than that.

Results:
* `mem_charMarks_iff`, `mem_lineMarks_iff`: the candidates of a partition.
* `addLast_eq_addMissing`: comparing ordinals tells whether an entry is there already.
* `merge_selects`: what is placed, how much of it, and when the last character is there.
-/
namespace TextSeek

/-! ## The candidates of a partition -/

namespace Partition

/-- An entry for a character may point at unit `i`. -/
def CharAt (p : Partition) (i : Nat) : Prop :=
  ∃ unit, p.units[i]? = some unit ∧ CodeUnit.isLowSurrogate unit = false

/-- A line starts at unit `i`. -/
def LineAt (p : Partition) (i : Nat) : Prop :=
  ∃ unit, p.units[i]? = some unit ∧
    TextSeek.startsLine p.startsLine (p.units.take i).getLast? unit = true

def charEntry (p : Partition) (encoding : Encoding) (o : Offsets) (i : Nat) : Entry :=
  ⟨o.chars + i, o.bytes + encoding.encodedLength (p.units.take i)⟩

def lineEntry (p : Partition) (encoding : Encoding) (o : Offsets) (i : Nat) : Entry :=
  ⟨o.lines + lineEnds (p.units.take i) p.units[i]?,
    o.bytes + encoding.encodedLength (p.units.take i)⟩

variable {p : Partition} {encoding : Encoding} {o : Offsets} {m : Mark}

theorem mem_charMarks_iff :
    m ∈ p.charMarks encoding o ↔ ∃ i, p.CharAt i ∧ m = ⟨i, p.charEntry encoding o i⟩ := by
  have hentry {i : Nat} {unit : UInt16} (hu : p.units[i]? = some unit) :
      Kind.char.pass encoding ⟨o.chars, o.bytes⟩ (p.units.take i) (some unit) =
        p.charEntry encoding o i := by
    have hi : i < p.units.length := (List.getElem?_eq_some_iff.1 hu).1
    rw [Kind.pass, Kind.count_char, List.length_take_of_le (Nat.le_of_lt hi)]
    rfl
  rw [charMarks, Kind.mem_marks_iff]
  constructor
  · rintro ⟨i, unit, hu, hs, rfl⟩
    exact ⟨i, ⟨unit, hu, by simpa [Kind.char] using hs⟩, by rw [hentry hu, Nat.zero_add]⟩
  · rintro ⟨i, ⟨unit, hu, hlow⟩, rfl⟩
    exact ⟨i, unit, hu, by simpa [Kind.char] using hlow, by rw [hentry hu, Nat.zero_add]⟩

theorem mem_lineMarks_iff :
    m ∈ p.lineMarks encoding o ↔ ∃ i, p.LineAt i ∧ m = ⟨i, p.lineEntry encoding o i⟩ := by
  have hentry {i : Nat} {unit : UInt16} (hu : p.units[i]? = some unit) :
      (Kind.line p.startsLine).pass encoding ⟨o.lines, o.bytes⟩ (p.units.take i) (some unit) =
        p.lineEntry encoding o i := by
    rw [Kind.pass, Kind.count_line, lineEntry, hu]
    rfl
  rw [lineMarks, Kind.mem_marks_iff]
  constructor
  · rintro ⟨i, unit, hu, hs, rfl⟩
    rw [Option.or_none] at hs
    exact ⟨i, ⟨unit, hu, hs⟩, by rw [hentry hu, Nat.zero_add]⟩
  · rintro ⟨i, ⟨unit, hu, hs⟩, rfl⟩
    exact ⟨i, unit, hu, by rwa [Option.or_none], by rw [hentry hu, Nat.zero_add]⟩

theorem charMarks_getLast? {i : Nat} (hi : p.CharAt i) (hlast : ∀ j, i < j → ¬ p.CharAt j) :
    (p.charMarks encoding o).getLast? = some ⟨i, p.charEntry encoding o i⟩ := by
  have hmem : (⟨i, p.charEntry encoding o i⟩ : Mark) ∈ p.charMarks encoding o :=
    mem_charMarks_iff.2 ⟨i, hi, rfl⟩
  have hs : (p.charMarks encoding o).Pairwise (·.place < ·.place) := Kind.marks_places ..
  cases hl : (p.charMarks encoding o).getLast? with
  | none =>
    rw [List.getLast?_eq_none_iff.1 hl] at hmem
    cases hmem
  | some last =>
    obtain ⟨j, hj, rfl⟩ := mem_charMarks_iff.1 (List.mem_of_getLast? hl)
    obtain ⟨front, hfront⟩ := List.getLast?_eq_some_iff.1 hl
    rw [hfront, List.pairwise_append] at hs
    rw [hfront] at hmem
    rcases List.mem_append.1 hmem with hm | hm
    · have hlt : i < j := hs.2.2 _ hm _ (List.mem_singleton_self _)
      exact absurd hj (hlast j hlt)
    · rw [List.mem_singleton.1 hm]

end Partition

/-! ## The last character -/

/-- Adds the last entry behind others if there is room for it and it is not one of them. -/
def addMissing (entries : List Entry) (quota : Nat) (last : Option Entry) : List Entry :=
  match last with
  | none => entries
  | some entry =>
    if entries.length < quota ∧ entry ∉ entries then entries ++ [entry] else entries

/-- Among entries in ascending order the last one is the only one that is not in front of
the last of all. -/
theorem getLast?_ordinal_lt_iff {entries front : List Entry} {last : Entry}
    (h : entries.Sublist (front ++ [last])) (hs : (front ++ [last]).Pairwise Entry.Before) :
    entries.getLast?.all (·.ordinal < last.ordinal) = true ↔ last ∉ entries := by
  obtain ⟨-, -, hbefore⟩ := List.pairwise_append.1 hs
  have hentries := hs.sublist h
  cases hl : entries.getLast? with
  | none =>
    rw [List.getLast?_eq_none_iff.1 hl]
    simp
  | some e =>
    rw [Option.all_some, decide_eq_true_eq]
    constructor
    · intro hlt hmem
      obtain ⟨init, rfl⟩ := List.getLast?_eq_some_iff.1 hl
      rcases List.mem_append.1 hmem with hmem | hmem
      · have := ((List.pairwise_append.1 hentries).2.2 last hmem e (by simp)).1
        omega
      · rw [List.mem_singleton.1 hmem] at hlt
        omega
    · intro hmem
      have he := List.mem_of_getLast? hl
      rcases List.mem_append.1 (h.subset he) with hf | hf
      · exact (hbefore e hf last (List.mem_singleton_self last)).1
      · rw [List.mem_singleton.1 hf] at he
        exact absurd he hmem

theorem addLast_eq_addMissing {entries all : List Entry} (h : entries.Sublist all)
    (hs : all.Pairwise Entry.Before) (quota : Nat) :
    addLast entries quota all.getLast? = addMissing entries quota all.getLast? := by
  unfold addLast addMissing
  cases hl : all.getLast? with
  | none => rfl
  | some last =>
    obtain ⟨front, rfl⟩ := List.getLast?_eq_some_iff.1 hl
    simp only [Bool.and_eq_true, decide_eq_true_eq, getLast?_ordinal_lt_iff h hs]

/-- Where room is left the last entry is there. -/
theorem mem_addMissing {entries : List Entry} {quota : Nat} {last : Entry}
    (h : (addMissing entries quota (some last)).length < quota) :
    last ∈ addMissing entries quota (some last) := by
  unfold addMissing at h ⊢
  simp only at h ⊢
  split
  · exact List.mem_append_right _ List.mem_cons_self
  · next hfull =>
    rw [if_neg hfull] at h
    by_contra hmem
    exact hfull ⟨h, hmem⟩

/-! ## What is placed -/

section

variable {encoding : Encoding} (p : Partition) (charQuota lineQuota : UInt64) (o : Offsets)

theorem Partition.placement_chars :
    let grid := Grid.ofQuota charQuota.toNat p.units.length
    let marks := p.charMarks encoding o
    (p.placement encoding charQuota.toNat lineQuota.toNat o).chars =
      addMissing ((grid.chosen marks (grid.givesTwo marks) grid.windows).map Mark.entry)
        charQuota.toNat (marks.getLast?.map Mark.entry) := by
  intro grid marks
  have hs : marks.Pairwise (·.place < ·.place) := Kind.marks_places ..
  have hchosen : (grid.chosen marks (grid.givesTwo marks) grid.windows).Sublist marks :=
    Grid.chosen_sublist hs grid.windows
  have hpicked : selectEntries (grid.hits marks) =
      (grid.chosen marks (grid.givesTwo marks) grid.windows).map Mark.entry :=
    selectEntries_hits (Grid.ofQuota_numbered charQuota _) marks_place hs
  change addLast (selectEntries (grid.hits marks)) _ (marks.getLast?.map Mark.entry) = _
  rw [hpicked, ← List.getLast?_map]
  exact addLast_eq_addMissing (hchosen.map Mark.entry) Kind.charMarks_ascend _

theorem Partition.placement_lines :
    let grid := Grid.ofQuota lineQuota.toNat p.units.length
    let marks := p.lineMarks encoding o
    (p.placement encoding charQuota.toNat lineQuota.toNat o).lines =
      (grid.chosen marks (grid.givesTwo marks) grid.windows).map Mark.entry :=
  selectEntries_hits (Grid.ofQuota_numbered lineQuota _) marks_place (Kind.marks_places ..)

/-- A partition that places fewer entries than it was granted places its last character. -/
theorem Partition.last_mem_placement
    (h : (p.placement encoding charQuota.toNat lineQuota.toNat o).chars.length <
      charQuota.toNat) {i : Nat} (hi : p.CharAt i) (hlast : ∀ j, i < j → ¬ p.CharAt j) :
    p.charEntry encoding o i ∈
      (p.placement encoding charQuota.toNat lineQuota.toNat o).chars := by
  rw [p.placement_chars, Partition.charMarks_getLast? hi hlast] at h ⊢
  exact mem_addMissing h

end

/-- However a partition of any units is divided into runs, merging the reports places of
each window its first candidate, and its first one in the second half, if that is another
one, exactly where the windows without any in front outnumber the second ones placed; and
the last character, if there is room for it and it is not among them. That is no more than
was granted, and if it is less for characters, the last one is there. -/
theorem Draft.merge_selects (p : Partition) (encoding : Encoding) (charQuota lineQuota : UInt64)
    (d : Draft) {runs : List Run} (h : Tiles 0 p.units.length runs) :
    let plan := p.plan encoding charQuota lineQuota
    let chars := p.charMarks encoding d.offsets
    let lines := p.lineMarks encoding d.offsets
    ∃ reports, runs.map (plan.scan? p.units) = reports.map some ∧
      let placed := (d.merge charQuota.toNat reports).1
      (∃ twice, plan.charGrid.Repays chars twice ∧
        placed.chars = addMissing
          ((plan.charGrid.chosen chars twice plan.charGrid.windows).map Mark.entry)
          charQuota.toNat (chars.getLast?.map Mark.entry)) ∧
      (∃ twice, plan.lineGrid.Repays lines twice ∧
        placed.lines = (plan.lineGrid.chosen lines twice plan.lineGrid.windows).map Mark.entry) ∧
      placed.chars.length ≤ charQuota.toNat ∧ placed.lines.length ≤ lineQuota.toNat ∧
      (placed.chars.length < charQuota.toNat → ∀ i, p.CharAt i → (∀ j, i < j → ¬ p.CharAt j) →
        p.charEntry encoding d.offsets i ∈ placed.chars) := by
  intro plan chars lines
  obtain ⟨reports, hreports, hmerge⟩ := merge_tiles p encoding charQuota lineQuota d h
  obtain ⟨hchars, hlines⟩ := p.placement_length_le charQuota lineQuota d.offsets
  refine ⟨reports, hreports, ?_⟩
  rw [hmerge]
  refine ⟨⟨_, plan.charGrid.repays_givesTwo chars, p.placement_chars ..⟩,
    ⟨_, plan.lineGrid.repays_givesTwo lines, p.placement_lines ..⟩, hchars, hlines, ?_⟩
  intro hroom i hi hlast
  exact p.last_mem_placement _ _ _ hroom hi hlast

/-- A run ends in the middle of a pair, and one in the middle of a window. The half of the
pair has a window of its own for characters, and no line starts in the second window for
lines. -/
theorem Draft.merge_selects_repaid :
    Tiles 0 8 [⟨0, 2⟩, ⟨2, 3⟩, ⟨5, 3⟩] ∧
    let p : Partition := ⟨[0x61, 0xD83D, 0xDE00, 0x0A, 0x0A, 0x0A, 0x62, 0x63], 10, true⟩
    let d : Draft := { offsets := ⟨5, 1, 9⟩ }
    let plan := p.plan .utf8 7 4
    let chars := p.charMarks .utf8 d.offsets
    let lines := p.lineMarks .utf8 d.offsets
    ∃ reports, [⟨0, 2⟩, ⟨2, 3⟩, ⟨5, 3⟩].map (plan.scan? p.units) = reports.map some ∧
      let placed := (d.merge 7 reports).1
      (∃ twice, plan.charGrid.Repays chars twice ∧
        placed.chars = addMissing
          ((plan.charGrid.chosen chars twice plan.charGrid.windows).map Mark.entry) 7
          (chars.getLast?.map Mark.entry)) ∧
      (∃ twice, plan.lineGrid.Repays lines twice ∧
        placed.lines = (plan.lineGrid.chosen lines twice plan.lineGrid.windows).map Mark.entry) ∧
      placed.chars.length ≤ 7 ∧ placed.lines.length ≤ 4 ∧
      (placed.chars.length < 7 → ∀ i, p.CharAt i → (∀ j, i < j → ¬ p.CharAt j) →
        p.charEntry .utf8 d.offsets i ∈ placed.chars) := by
  have h : Tiles 0 8 [⟨0, 2⟩, ⟨2, 3⟩, ⟨5, 3⟩] := .cons (.cons (.cons (.nil 8)))
  exact ⟨h, merge_selects ⟨[0x61, 0xD83D, 0xDE00, 0x0A, 0x0A, 0x0A, 0x62, 0x63], 10, true⟩ .utf8
    7 4 { offsets := ⟨5, 1, 9⟩ } h⟩

/-- The last window for characters, and the third one for lines, give two entries. -/
example :
    let p : Partition := ⟨[0x61, 0xD83D, 0xDE00, 0x0A, 0x0A, 0x0A, 0x62, 0x63], 10, true⟩
    let reports := [⟨0, 2⟩, ⟨2, 3⟩, ⟨5, 3⟩].filterMap ((p.plan .utf8 7 4).scan? p.units)
    (Draft.merge { offsets := ⟨5, 1, 9⟩ } 7 reports).1 =
      ⟨[⟨5, 9⟩, ⟨6, 10⟩, ⟨8, 14⟩, ⟨9, 15⟩, ⟨10, 16⟩, ⟨11, 17⟩, ⟨12, 18⟩],
        [⟨1, 9⟩, ⟨2, 15⟩, ⟨3, 16⟩, ⟨4, 17⟩]⟩ := by
  decide +kernel

end TextSeek

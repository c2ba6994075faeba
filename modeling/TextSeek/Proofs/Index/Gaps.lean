import TextSeek.Proofs.Index.Selection

/-!
# How far it is back to an entry

Every window that holds a candidate has its first one placed, so no character and no line of
a partition lies behind an entry by more than the width of a window, which is the number of
units divided by the number of windows, rounded up. Windows of one unit leave nothing out.

Results:
* `Paired.charAt_before`: in front of a low surrogate stands a character.
* `picked_reaches`, `placement_chars_near`, `placement_lines_near`: the entry in front of a
  character or a line.
* `merge_reaches`: from every unit back to an entry that a merge places.
-/
namespace TextSeek

/-- A place where something starts has its entry among those placed, and unit `i` is that
place or stands behind it by less than `width`. -/
def Reaches (starts : Nat → Prop) (entryAt : Nat → Entry) (placed : List Entry)
    (width i : Nat) : Prop :=
  ∃ start, starts start ∧ entryAt start ∈ placed ∧ start ≤ i ∧ i < start + width

section

variable {starts : Nat → Prop} {entryAt : Nat → Entry} {placed more : List Entry}
  {width span quota i : Nat}

theorem Reaches.mono (hsub : placed ⊆ more) (h : Reaches starts entryAt placed width i) :
    Reaches starts entryAt more width i := by
  obtain ⟨start, hs, he, hle, hlt⟩ := h
  exact ⟨start, hs, hsub he, hle, hlt⟩

theorem Reaches.next (h : Reaches starts entryAt placed width i) :
    Reaches starts entryAt placed (width + 1) (i + 1) := by
  obtain ⟨start, hs, he, hle, hlt⟩ := h
  exact ⟨start, hs, he, by omega, by omega⟩

theorem ceilDiv_self {a : Nat} (ha : 0 < a) : ceilDiv a a = 1 := by
  rw [ceilDiv, Nat.div_self ha, Nat.mod_self]
  rfl

theorem Reaches.mem_of_le (h : Reaches starts entryAt placed (ceilDiv span (min quota span)) i)
    (hi : i < span) (hle : span ≤ quota) : entryAt i ∈ placed := by
  rw [Nat.min_eq_right hle, ceilDiv_self (by omega)] at h
  obtain ⟨start, -, he, hstart, hlt⟩ := h
  rwa [show i = start by omega]

end

/-- A low surrogate stands right behind a character. -/
theorem Paired.charAt_before {p : Partition} (hp : Paired p.units) {i : Nat} {unit : UInt16}
    (hu : p.units[i]? = some unit) (hlow : CodeUnit.isLowSurrogate unit = true) :
    ∃ j, i = j + 1 ∧ p.CharAt j := by
  have hi : i < p.units.length := (List.getElem?_eq_some_iff.1 hu).1
  rw [← take_append_cons_drop hu] at hp
  obtain ⟨high, hl, hhigh⟩ := hp.exists_high hlow
  cases i with
  | zero => cases hl
  | succ j =>
    rw [List.getLast?_take, if_neg (Nat.succ_ne_zero j), Nat.add_sub_cancel,
      List.getElem?_eq_getElem (by omega)] at hl
    refine ⟨j, rfl, high, ?_, CodeUnit.isLowSurrogate_eq_false_of_high hhigh⟩
    rw [List.getElem?_eq_getElem (by omega)]
    exact hl

/-! ## One partition -/

theorem subset_addLast (entries : List Entry) (quota : Nat) (last : Option Entry) :
    entries ⊆ addLast entries quota last := by
  unfold addLast
  split
  · exact List.Subset.refl _
  · split
    · exact List.subset_append_left _ _
    · exact List.Subset.refl _

/-- If the marks are those of the places where something starts, the entry picked from the
window of a place is near. -/
theorem picked_reaches {k : Kind} {encoding : Encoding} {here : Entry} {units : List UInt16}
    {previous : Option UInt16} {quota : UInt64} (hq : 1 ≤ quota.toNat) {starts : Nat → Prop}
    {entryAt : Nat → Entry} (hmarks : ∀ m, m ∈ k.marks encoding 0 here previous units ↔
      ∃ i, starts i ∧ m = ⟨i, entryAt i⟩) {i : Nat} (hi : starts i) :
    Reaches starts entryAt
      (selectEntries ((Grid.ofQuota quota.toNat units.length).hits
        (k.marks encoding 0 here previous units)))
      (ceilDiv units.length (min quota.toNat units.length)) i := by
  have hg := Grid.ofQuota_numbered quota units.length
  have hs : (k.marks encoding 0 here previous units).Pairwise (·.place < ·.place) :=
    Kind.marks_places ..
  have hm := (hmarks _).2 ⟨i, hi, rfl⟩
  have hp : i < (Grid.ofQuota quota.toNat units.length).span := marks_place _ hm
  have hne : (Grid.ofQuota quota.toNat units.length).isEmpty = false := by
    simp only [Grid.isEmpty, Grid.ofQuota, beq_eq_false_iff_ne] at hp ⊢
    omega
  rw [selectEntries_hits hg marks_place hs]
  obtain ⟨first, hfirst, hle, hlt⟩ := Grid.exists_chosen_near hg hne hs hm hp
  obtain ⟨start, hstart, rfl⟩ := (hmarks first).1 ((Grid.chosen_sublist hs _).subset hfirst)
  exact ⟨start, hstart, List.mem_map_of_mem hfirst, hle, hlt⟩

namespace Partition

variable (p : Partition) (encoding : Encoding) (charQuota lineQuota : UInt64) (o : Offsets)
  {i : Nat}

theorem CharAt.lt {p : Partition} (hi : p.CharAt i) : i < p.units.length := by
  obtain ⟨unit, hu, -⟩ := hi
  exact (List.getElem?_eq_some_iff.1 hu).1

theorem LineAt.lt {p : Partition} (hi : p.LineAt i) : i < p.units.length := by
  obtain ⟨unit, hu, -⟩ := hi
  exact (List.getElem?_eq_some_iff.1 hu).1

theorem placement_chars_near (hq : 1 ≤ charQuota.toNat) (hi : p.CharAt i) :
    Reaches p.CharAt (p.charEntry encoding o)
      (p.placement encoding charQuota.toNat lineQuota.toNat o).chars
      (ceilDiv p.units.length (min charQuota.toNat p.units.length)) i := by
  apply Reaches.mono (subset_addLast _ _ _)
  exact picked_reaches hq (fun _ => mem_charMarks_iff) hi

theorem placement_lines_near (hq : 1 ≤ lineQuota.toNat) (hi : p.LineAt i) :
    Reaches p.LineAt (p.lineEntry encoding o)
      (p.placement encoding charQuota.toNat lineQuota.toNat o).lines
      (ceilDiv p.units.length (min lineQuota.toNat p.units.length)) i :=
  picked_reaches hq (fun _ => mem_lineMarks_iff) hi

end Partition

/-- However a partition of decoded units is divided into runs: granted an entry for
characters, it places one at every character or in front of it by less than the number of
units divided by the number of windows, rounded up, and by no more in front of every low
surrogate. The same goes for lines. Granted one for each unit, it leaves out no character
and no line. -/
theorem Draft.merge_reaches {p : Partition} (hp : Paired p.units) (encoding : Encoding)
    (charQuota lineQuota : UInt64) (d : Draft) {runs : List Run}
    (h : Tiles 0 p.units.length runs) :
    let plan := p.plan encoding charQuota lineQuota
    let width (quota : UInt64) := ceilDiv p.units.length (min quota.toNat p.units.length)
    ∃ reports, runs.map (plan.scan? p.units) = reports.map some ∧
      let placed := (d.merge charQuota.toNat reports).1
      let charReaches := Reaches p.CharAt (p.charEntry encoding d.offsets) placed.chars
      let lineReaches := Reaches p.LineAt (p.lineEntry encoding d.offsets) placed.lines
      (1 ≤ charQuota.toNat → (∀ i, p.CharAt i → charReaches (width charQuota) i) ∧
        ∀ i unit, p.units[i]? = some unit → CodeUnit.isLowSurrogate unit = true →
          charReaches (width charQuota + 1) i) ∧
      (1 ≤ lineQuota.toNat → ∀ i, p.LineAt i → lineReaches (width lineQuota) i) ∧
      (p.units.length ≤ charQuota.toNat → ∀ i, p.CharAt i →
        p.charEntry encoding d.offsets i ∈ placed.chars) ∧
      (p.units.length ≤ lineQuota.toNat → ∀ i, p.LineAt i →
        p.lineEntry encoding d.offsets i ∈ placed.lines) := by
  intro plan width
  obtain ⟨reports, hreports, hmerge⟩ := merge_tiles p encoding charQuota lineQuota d h
  refine ⟨reports, hreports, ?_⟩
  rw [hmerge]
  have hchars (hq : 1 ≤ charQuota.toNat) (i : Nat) (hi : p.CharAt i) :=
    p.placement_chars_near encoding charQuota lineQuota d.offsets hq hi
  have hlines (hq : 1 ≤ lineQuota.toNat) (i : Nat) (hi : p.LineAt i) :=
    p.placement_lines_near encoding charQuota lineQuota d.offsets hq hi
  refine ⟨fun hq => ⟨hchars hq, ?_⟩, hlines, ?_, ?_⟩
  · intro i unit hu hlow
    obtain ⟨j, rfl, hj⟩ := hp.charAt_before hu hlow
    exact (hchars hq j hj).next
  · intro hall i hi
    exact (hchars (by have := hi.lt; omega) i hi).mem_of_le hi.lt hall
  · intro hall i hi
    exact (hlines (by have := hi.lt; omega) i hi).mem_of_le hi.lt hall

/-- Two runs part a pair. Three windows are three units wide or less, and seven windows for
lines leave out none. -/
theorem Draft.merge_reaches_torn :
    let p : Partition := ⟨[0x61, 0xD83D, 0xDE00, 0x0A, 0x62, 0x63, 0x0A], 9, true⟩
    let d : Draft := { offsets := ⟨5, 1, 9⟩ }
    Paired p.units ∧ Tiles 0 7 [⟨0, 2⟩, ⟨2, 5⟩] ∧
    ∃ reports, [⟨0, 2⟩, ⟨2, 5⟩].map ((p.plan .utf8 3 7).scan? p.units) = reports.map some ∧
      let placed := (d.merge 3 reports).1
      (∀ i, p.CharAt i → Reaches p.CharAt (p.charEntry .utf8 d.offsets) placed.chars 3 i) ∧
      Reaches p.CharAt (p.charEntry .utf8 d.offsets) placed.chars 4 2 ∧
      ∀ i, p.LineAt i → p.lineEntry .utf8 d.offsets i ∈ placed.lines := by
  intro p d
  have hp : Paired p.units :=
    .one (by decide) (by decide) (.pair (by decide) (by decide) (.one (by decide) (by decide)
      (.one (by decide) (by decide) (.one (by decide) (by decide)
        (.one (by decide) (by decide) .nil)))))
  have h : Tiles 0 7 [⟨0, 2⟩, ⟨2, 5⟩] := .cons (.cons (.nil 7))
  obtain ⟨reports, hreports, hchars, -, -, hlines⟩ := merge_reaches hp .utf8 3 7 d h
  obtain ⟨hnear, hlow⟩ := hchars (by decide)
  have hwidth : ceilDiv p.units.length (min (UInt64.toNat 3) p.units.length) = 3 := by decide
  simp only [hwidth] at hnear hlow
  exact ⟨hp, h, reports, hreports, hnear, hlow 2 0xDE00 (by decide) (by decide),
    hlines (by decide)⟩

end TextSeek

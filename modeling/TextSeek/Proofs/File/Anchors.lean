import TextSeek.Proofs.File.Lookup
import TextSeek.Proofs.Index.Geometry

/-!
# Searches in an index, and the lookups that rest on them

An index is searched in two ways, for the entry closest before a target and for the entry
of the target itself, and each of them bisects the entries in its own way. In an index that
ascends both find what a look at every entry would find, and so they agree.

A lookup goes to the closest entry and skips as many characters or lines as the target is
behind it. `Checked.seek` has that difference worked out as a step that ends the lookup if it
falls below zero. It never does: what bisection answers with is not above its target, on
entries in any order, and where it answers with nothing the lookup starts at the first
character or line.

Results:
* `Checked.seek_eq`: every lookup knows how far it has to skip.
* `SparseIndex.Ascends.searches_agree`: both searches, and the lookups in the index.
-/
namespace TextSeek

/-- A lookup that ends without an answer if its target is in front of its anchor. -/
def Checked.seek (f : IndexedFile) (file : Source) (target : Target) (buffer : Nat) :
    Option (Except AccessError TextReader) :=
  match TextReader.openAt file f.encoding (f.anchor target).position buffer with
  | .error error => some (.error error)
  | .ok reader => do
    let wanted ← Checked.sub target.number (f.anchor target).ordinal
    let (outcome, next) := IndexedFile.skipTo reader target wanted
    return IndexedFile.settle target next outcome

theorem Checked.seek_eq (f : IndexedFile) (file : Source) (target : Target) (buffer : Nat) :
    Checked.seek f file target buffer = some (f.seek file target buffer) := by
  unfold Checked.seek
  cases hopen : TextReader.openAt file f.encoding (f.anchor target).position buffer with
  | error error =>
    unfold IndexedFile.anchor at hopen
    simp only [IndexedFile.seek, hopen, bind, Except.bind]
  | ok reader =>
    cases hskip : IndexedFile.skipTo reader target (target.number - (f.anchor target).ordinal) with
    | mk outcome next =>
      simp only [Checked.sub_eq (f.anchor_le target), Option.bind_eq_bind, Option.bind_some,
        Option.pure_def, hskip, IndexedFile.seek_eq hopen hskip]

namespace SparseIndex

variable {index : SparseIndex}

/-- In an index that ascends, the closest entry to a target is the one with the greatest
ordinal that is not above it, and there is none exactly if all ordinals are above it; a
position is kept for the target exactly if the closest entry is its own; and the closest entry
to a later target is there, too, and is not an earlier one. So a lookup in this index has a
number of characters or lines to skip, never less than none. -/
theorem Ascends.searches_agree (h : index.Ascends) (target : Nat) :
    (∀ e, index.nearest? target = some e ↔ index.IsNearest target e) ∧
    (index.nearest? target = none ↔ ∀ e ∈ index.toList, target < e.ordinal) ∧
    (∀ position, index.position? target = some position ↔
      index.nearest? target = some ⟨target, position⟩) ∧
    (∀ later, target ≤ later → ∀ e, index.nearest? target = some e →
      ∃ e', index.nearest? later = some e' ∧ e.ordinal ≤ e'.ordinal) ∧
    ∀ (f : IndexedFile) (place : Target), f.entries place = index → place.number = target →
      ∀ file buffer, Checked.seek f file place buffer = some (f.seek file place buffer) := by
  refine ⟨fun e => h.nearest?_eq_some_iff, h.nearest?_eq_none_iff,
    fun position => h.position?_eq_some_iff, fun later hle e hn => h.nearest?_mono hle hn, ?_⟩
  intro f place _ _ file buffer
  exact Checked.seek_eq f file place buffer

/-- Targets in front of the first entry, at an entry and between two entries. -/
theorem Ascends.searches_agree_between :
    let index : SparseIndex := ⟨#[⟨5, 7⟩, ⟨10, 14⟩, ⟨20, 30⟩]⟩
    let f : IndexedFile :=
      { path := "notes.txt", encoding := .utf8, config := {}, size := 36,
        index := { chars := index, totalChars := 25, dataStart := 2, dataEnd := 36 } }
    index.Ascends ∧
    index.nearest? 4 = none ∧ index.position? 4 = none ∧
    index.nearest? 10 = some ⟨10, 14⟩ ∧ index.position? 10 = some 14 ∧
    index.nearest? 15 = some ⟨10, 14⟩ ∧ index.position? 15 = none ∧
    ∀ file, Checked.seek f file (.character 15) 64 = some (f.seek file (.character 15) 64) := by
  intro index f
  have h : index.Ascends := by simp [Ascends, toList, index]
  obtain ⟨-, hnone, hfront, -⟩ := searches_agree h 4
  obtain ⟨hat, -, hposition, -⟩ := searches_agree h 10
  obtain ⟨hbetween, -, hpassed, -, hseek⟩ := searches_agree h 15
  have hnearest4 : index.nearest? 4 = none := hnone.2 (by simp [toList, index])
  have hnearest10 : index.nearest? 10 = some ⟨10, 14⟩ :=
    (hat _).2 ⟨by simp [toList, index], by simp, by simp [toList, index]⟩
  have hnearest15 : index.nearest? 15 = some ⟨10, 14⟩ :=
    (hbetween _).2 ⟨by simp [toList, index], by simp, by simp [toList, index]⟩
  refine ⟨h, hnearest4, ?_, hnearest10, (hposition 14).2 hnearest10, hnearest15, ?_,
    fun file => hseek f (.character 15) rfl rfl file 64⟩
  · refine Option.eq_none_iff_forall_ne_some.2 fun position hp => ?_
    simpa [hnearest4] using (hfront position).1 hp
  · refine Option.eq_none_iff_forall_ne_some.2 fun position hp => ?_
    simpa [hnearest15] using (hpassed position).1 hp

end SparseIndex
end TextSeek

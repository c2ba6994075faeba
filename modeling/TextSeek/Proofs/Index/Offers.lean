import Mathlib.Data.List.Basic
import Mathlib.Data.List.Induction
import TextSeek.Proofs.Index.Windows

/-!
# What marks offer for a window

Each window of a grid is offered the first mark that it holds, and the first one in its
second half. Joining hits, in whatever runs they were found, comes to nothing else: behind
one mark after another there is one hit for each window that holds a mark, in the order of
the windows.

Results:
* `first?_le`: the first mark of a window stands in front of the others.
* `joinHit_hitAt`, `joinHits_hits`: what is left of hits when they are joined.
-/
namespace TextSeek

namespace Grid

def first? (g : Grid) (marks : List Mark) (k : Nat) : Option Mark :=
  marks.find? fun m => g.Holds k m.place

/-- The first mark in the second half of a window. -/
def backup? (g : Grid) (marks : List Mark) (k : Nat) : Option Mark :=
  marks.find? fun m => g.Holds k m.place ∧ g.backupStart k ≤ m.place

/-- What marks offer for a window. -/
def hit? (g : Grid) (marks : List Mark) (k : Nat) : Option Hit :=
  (g.first? marks k).map fun m => ⟨k, m.entry, (g.backup? marks k).map Mark.entry⟩

variable {g : Grid} {marks : List Mark} {m first : Mark} {k : Nat}

theorem first?_eq_none : g.first? marks k = none ↔ ∀ m ∈ marks, ¬ g.Holds k m.place := by
  simp [first?]

theorem backup?_eq_none (h : g.first? marks k = none) : g.backup? marks k = none := by
  rw [backup?, List.find?_eq_none]
  intro m hm
  simp [first?_eq_none.1 h m hm]

theorem hit?_eq_none (h : ∀ m ∈ marks, ¬ g.Holds k m.place) : g.hit? marks k = none := by
  rw [hit?, first?_eq_none.2 h]
  rfl

theorem mem_of_first? (h : g.first? marks k = some first) :
    first ∈ marks ∧ g.Holds k first.place :=
  ⟨List.mem_of_find?_eq_some h, by simpa using List.find?_some h⟩

theorem first?_le (hs : marks.Pairwise (·.place < ·.place)) (hf : g.first? marks k = some first)
    (hm : m ∈ marks) (hh : g.Holds k m.place) : m = first ∨ first.place < m.place := by
  rw [first?, List.find?_eq_some_iff_append] at hf
  obtain ⟨-, front, back, rfl, hfront⟩ := hf
  rw [List.pairwise_append, List.pairwise_cons] at hs
  rcases List.mem_append.1 hm with hm | hm
  · have := hfront m hm
    simp [hh] at this
  · rcases List.mem_cons.1 hm with rfl | hm
    · exact .inl rfl
    · exact .inr (hs.2.1.1 m hm)

theorem exists_first? (hm : m ∈ marks) (hh : g.Holds k m.place) :
    ∃ first, g.first? marks k = some first := by
  apply Option.ne_none_iff_exists'.1
  intro h
  exact first?_eq_none.1 h m hm hh

/-- A mark behind others changes nothing for a window that it does not lie in. -/
theorem hit?_concat_of_not (h : ¬ g.Holds k m.place) :
    g.hit? (marks ++ [m]) k = g.hit? marks k := by
  simp [hit?, first?, backup?, List.find?_append, h]

/-- A mark behind others is joined to the hit on its window. -/
theorem hit?_concat_of_holds (h : g.Holds k m.place) (hk : g.windowOf m.place = k) :
    g.hit? (marks ++ [m]) k = some (match g.hit? marks k with
      | none => g.hitAt m
      | some hit => { hit with backup := hit.backup.or (g.hitAt m).backup }) := by
  have hbackup : (g.backup? (marks ++ [m]) k).map Mark.entry =
      ((g.backup? marks k).map Mark.entry).or (g.hitAt m).backup := by
    rw [backup?, List.find?_append, Option.map_or, backup?]
    by_cases hb : g.backupStart k ≤ m.place <;> simp [hitAt, hk, h, hb]
  have hfirst : g.first? (marks ++ [m]) k = (g.first? marks k).or (some m) := by
    rw [first?, List.find?_append, first?, List.find?_singleton, if_pos (by simpa using h)]
  unfold hit?
  rw [hbackup, hfirst]
  cases hf : g.first? marks k with
  | none =>
    rw [backup?_eq_none hf]
    simp [hitAt, hk]
  | some first => rfl

/-! ## Joining one mark after another -/

theorem filterMap_range_split {α : Type} {f : Nat → Option α} {k n : Nat} (hk : k < n)
    (h : ∀ j, k < j → f j = none) :
    (List.range n).filterMap f = (List.range k).filterMap f ++ (f k).toList := by
  have hbehind : ((List.range (n - (k + 1))).map (k + 1 + ·)).filterMap f = [] := by
    rw [List.filterMap_eq_nil_iff]
    intro j hj
    obtain ⟨i, -, rfl⟩ := List.mem_map.1 hj
    exact h _ (by omega)
  rw [show n = k + 1 + (n - (k + 1)) by omega, List.range_add, List.filterMap_append, hbehind,
    List.append_nil, List.range_succ, List.filterMap_append]
  cases hf : f k <;> simp [hf]

theorem window_of_hit? {hit : Hit} (h : g.hit? marks k = some hit) : hit.window = k := by
  obtain ⟨first, -, rfl⟩ := Option.map_eq_some_iff.1 h
  rfl

theorem hits_ascend (g : Grid) (marks : List Mark) :
    ((List.range g.windows).filterMap (g.hit? marks)).Pairwise (·.window < ·.window) := by
  refine List.pairwise_lt_range.filterMap (g.hit? marks) ?_
  intro j k hlt a ha b hb
  rwa [window_of_hit? ha, window_of_hit? hb]

/-- Joining the next mark. It lies in the last window with a mark or behind it. -/
theorem joinHit_hitAt (hk : k < g.windows) (hm : g.windowOf m.place = k)
    (hholds : g.Holds k m.place) (hother : ∀ j < k, ¬ g.Holds j m.place)
    (hbehind : ∀ j, k < j → ∀ m' ∈ marks ++ [m], ¬ g.Holds j m'.place) :
    joinHit ((List.range g.windows).filterMap (g.hit? marks)).reverse (g.hitAt m) =
      ((List.range g.windows).filterMap (g.hit? (marks ++ [m]))).reverse := by
  have hwindow : (g.hitAt m).window = k := hm
  rw [filterMap_range_split hk fun j hj =>
      hit?_eq_none fun m' h => hbehind j hj m' (List.mem_append_left _ h),
    filterMap_range_split hk fun j hj => hit?_eq_none (hbehind j hj),
    hit?_concat_of_holds hholds hm,
    List.filterMap_congr fun j hj => hit?_concat_of_not (hother j (List.mem_range.1 hj))]
  generalize g.hitAt m = new at hwindow
  cases hh : g.hit? marks k with
  | some hit =>
    have := window_of_hit? hh
    simp [joinHit, this, hwindow]
  | none =>
    -- the hits so far are on windows in front
    have hfront : ∀ last ∈ (List.range k).filterMap (g.hit? marks), last.window < k := by
      intro last hmem
      obtain ⟨j, hj, hhit⟩ := List.mem_filterMap.1 hmem
      rw [window_of_hit? hhit]
      exact List.mem_range.1 hj
    simp only [Option.toList_none, List.append_nil, Option.toList_some, List.reverse_append,
      List.reverse_cons, List.reverse_nil, List.nil_append, List.singleton_append]
    cases hr : ((List.range k).filterMap (g.hit? marks)).reverse with
    | nil => rfl
    | cons last earlier =>
      have := hfront last (by rw [← List.mem_reverse, hr]; exact List.mem_cons_self)
      rw [joinHit, if_neg (by omega)]

/-- Joining leaves one hit for each window with a mark, in the order of the windows. -/
theorem joinHits_hits (hg : g.Numbered) (hp : ∀ m ∈ marks, m.place < g.span)
    (hs : marks.Pairwise (·.place < ·.place)) :
    joinHits (g.hits marks) = (List.range g.windows).filterMap (g.hit? marks) := by
  cases hne : g.isEmpty with
  | true =>
    have hw : g.windows = 0 := by simpa [isEmpty] using hne
    rw [hits, if_pos hne, hw]
    rfl
  | false =>
    rw [hits, if_neg (by simp [hne]), joinHits, List.reverse_eq_iff]
    induction marks using List.reverseRecOn with
    | nil => simp [hit?_eq_none]
    | append_singleton marks m ih =>
      obtain ⟨hs, -, hlt⟩ := List.pairwise_append.1 hs
      have hm := hp m (by simp)
      have hlast : ∀ m' ∈ marks ++ [m], m'.place ≤ m.place := by
        intro m' hm'
        rcases List.mem_append.1 hm' with h | h
        · exact Nat.le_of_lt (hlt m' h m (by simp))
        · exact Nat.le_of_eq (congrArg Mark.place (List.mem_singleton.1 h))
      obtain ⟨k, hk⟩ : ∃ k, g.windowOf m.place = k := ⟨_, rfl⟩
      rw [List.map_append, List.foldl_append, ih (fun m' h => hp m' (by simp [h])) hs]
      refine joinHit_hitAt (hk ▸ hg.windowOf_lt hne hm) hk ((hg.windowOf_eq_iff hne hm).1 hk) ?_ ?_
      · intro j hj h
        have := (hg.windowOf_eq_iff hne hm).2 h
        omega
      · intro j hj m' hm' h
        have hj' := (hg.windowOf_eq_iff hne (hp m' hm')).2 h
        have := hg.windowOf_mono hne (hlast m' hm') hm
        omega

end Grid
end TextSeek

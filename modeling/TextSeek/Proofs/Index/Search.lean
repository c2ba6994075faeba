import TextSeek.Index.SparseIndex

/-!
# What bisection finds

An entry that a search answers with is an entry of the index, and one that was
asked for. This does not need the entries to be in order: on others a search
may miss an entry, but it does not make one up. In an index that ascends a
search misses none.

Results:
* `mem_of_nearest?`: the entry closest before a target.
* `mem_of_position?`: the entry for a target.
* `Ascends.nearest?_eq_some_iff`, `Ascends.nearest?_eq_none_iff`: no entry is closer, and
  one is found if there is any.
* `Ascends.position?_of_mem`, `Ascends.position?_eq_some_iff`: every entry is found, by
  both searches.
* `Ascends.nearest?_mono`: the entry for a later target is not an earlier one.
-/
namespace TextSeek.SparseIndex

variable {index : SparseIndex} {target : Nat}

theorem boundary_below {entries : Array Entry} {lo hi : Nat} {hhi : hi ≤ entries.size}
    (h : 0 < lo → ∀ e, entries[lo - 1]? = some e → e.ordinal ≤ target)
    (hb : 0 < boundary entries target lo hi hhi) {e : Entry}
    (he : entries[boundary entries target lo hi hhi - 1]? = some e) : e.ordinal ≤ target := by
  fun_induction boundary entries target lo hi hhi with
  | case1 lo hi hhi hlt middle hm hle ih =>
    refine ih ?_ hb he
    intro _ e' he'
    rw [Nat.add_sub_cancel, Array.getElem?_eq_getElem hm, Option.some.injEq] at he'
    rw [← he']
    exact hle
  | case2 lo hi hhi hlt middle hm hle ih => exact ih h hb he
  | case3 lo hi hhi hlt => exact h hb e he

theorem mem_of_getElem? {k : Nat} {e : Entry} (h : index.entries[k]? = some e) :
    e ∈ index.toList := by
  rw [toList, Array.mem_toList_iff]
  exact Array.mem_of_getElem? h

theorem mem_of_nearest? {e : Entry} (h : index.nearest? target = some e) :
    e ∈ index.toList ∧ e.ordinal ≤ target := by
  simp only [nearest?] at h
  split at h
  · cases h
  · next h0 =>
    exact ⟨mem_of_getElem? h,
      boundary_below (fun h => absurd h (Nat.lt_irrefl 0)) (Nat.pos_of_ne_zero h0) h⟩

theorem locate_eq {entries : Array Entry} {lo hi place : Nat} {hhi : hi ≤ entries.size}
    (h : locate entries target lo hi hhi = some place) {e : Entry}
    (he : entries[place]? = some e) : e.ordinal = target := by
  fun_induction locate entries target lo hi hhi with
  | case1 lo hi hhi hlt middle hm heq =>
    rw [← Option.some.inj h, Array.getElem?_eq_getElem hm, Option.some.injEq] at he
    rw [← he]
    exact heq
  | case2 lo hi hhi hlt middle hm hne hless ih => exact ih h
  | case3 lo hi hhi hlt middle hm hne hless ih => exact ih h
  | case4 => cases h

theorem mem_of_position? {position : Nat} (h : index.position? target = some position) :
    ⟨target, position⟩ ∈ index.toList := by
  simp only [position?, Option.bind_eq_bind, Option.bind_eq_some_iff, Option.pure_def,
    Option.some.injEq] at h
  obtain ⟨place, hplace, e, he, rfl⟩ := h
  rw [← locate_eq hplace he]
  exact mem_of_getElem? he

/-! ## Indexes that ascend -/

/-- The ordinals of the entries ascend. -/
def Ascends (index : SparseIndex) : Prop :=
  index.toList.Pairwise fun a b => a.ordinal < b.ordinal

theorem Ascends.lt (h : index.Ascends) {i j : Nat} (hij : i < j) (hj : j < index.entries.size) :
    index.entries[i].ordinal < index.entries[j].ordinal := by
  have hi : i < index.entries.size := Nat.lt_trans hij hj
  have := List.pairwise_iff_getElem.1 h i j (by simpa [toList] using hi)
    (by simpa [toList] using hj) hij
  simpa [toList] using this

theorem Ascends.le (h : index.Ascends) {i j : Nat} (hij : i ≤ j) (hj : j < index.entries.size) :
    index.entries[i].ordinal ≤ index.entries[j].ordinal := by
  rcases Nat.lt_or_eq_of_le hij with hij | rfl
  · exact Nat.le_of_lt (h.lt hij hj)
  · exact Nat.le_refl _

theorem exists_place {e : Entry} (h : e ∈ index.toList) :
    ∃ k, ∃ hk : k < index.entries.size, index.entries[k] = e := by
  rw [toList, Array.mem_toList_iff] at h
  exact Array.mem_iff_getElem.1 h

theorem Ascends.eq_of_ordinal (h : index.Ascends) {e e' : Entry} (he : e ∈ index.toList)
    (he' : e' ∈ index.toList) (heq : e.ordinal = e'.ordinal) : e = e' := by
  obtain ⟨k, hk, rfl⟩ := exists_place he
  obtain ⟨k', hk', rfl⟩ := exists_place he'
  rcases Nat.lt_trichotomy k k' with hlt | rfl | hlt
  · exact absurd heq (Nat.ne_of_lt (h.lt hlt hk'))
  · rfl
  · exact absurd heq (Nat.ne_of_gt (h.lt hlt hk))

/-- Behind the boundary all entries are above the target. -/
theorem Ascends.boundary_above (h : index.Ascends) {lo hi : Nat} {hhi : hi ≤ index.entries.size}
    (habove : ∀ k (hk : k < index.entries.size), hi ≤ k → target < index.entries[k].ordinal)
    {k : Nat} (hk : k < index.entries.size)
    (hle : boundary index.entries target lo hi hhi ≤ k) : target < index.entries[k].ordinal := by
  fun_induction boundary index.entries target lo hi hhi with
  | case1 lo hi hhi hlt middle hm hmle ih => exact ih habove hle
  | case2 lo hi hhi hlt middle hm hgt ih =>
    refine ih ?_ hle
    intro j hj hmj
    have := h.le hmj hj
    omega
  | case3 lo hi hhi hlt => exact habove k hk (by omega)

theorem Ascends.lt_boundary (h : index.Ascends) {k : Nat} (hk : k < index.entries.size)
    (hle : index.entries[k].ordinal ≤ target) :
    k < boundary index.entries target 0 index.entries.size (Nat.le_refl _) := by
  refine Nat.lt_of_not_le fun hb => ?_
  have := h.boundary_above (fun j hj hle => absurd hj (Nat.not_lt.2 hle)) hk hb
  omega

/-- The entry that is closest before a target, or at it. -/
structure IsNearest (index : SparseIndex) (target : Nat) (e : Entry) : Prop where
  mem : e ∈ index.toList
  le : e.ordinal ≤ target
  greatest : ∀ e' ∈ index.toList, e'.ordinal ≤ target → e'.ordinal ≤ e.ordinal

theorem Ascends.isNearest (h : index.Ascends) {e : Entry} (hn : index.nearest? target = some e) :
    index.IsNearest target e where
  mem := (mem_of_nearest? hn).1
  le := (mem_of_nearest? hn).2
  greatest e' he' hle := by
    obtain ⟨k, hk, rfl⟩ := exists_place he'
    have hlt := h.lt_boundary hk hle
    simp only [nearest?] at hn
    rw [if_neg (by omega)] at hn
    obtain ⟨hb, rfl⟩ := Array.getElem?_eq_some_iff.1 hn
    exact h.le (by omega) hb

theorem Ascends.exists_isNearest (h : index.Ascends) {e' : Entry} (he' : e' ∈ index.toList)
    (hle : e'.ordinal ≤ target) :
    ∃ e, index.nearest? target = some e ∧ index.IsNearest target e := by
  obtain ⟨k, hk, rfl⟩ := exists_place he'
  have hlt := h.lt_boundary hk hle
  have hb := (boundary_bounds index.entries target 0 index.entries.size (Nat.le_refl _)
    (Nat.zero_le _)).2
  obtain ⟨e, hn⟩ : ∃ e, index.nearest? target = some e := by
    simp only [nearest?]
    rw [if_neg (by omega)]
    exact ⟨_, Array.getElem?_eq_getElem (by omega)⟩
  exact ⟨e, hn, h.isNearest hn⟩

/-- A search for the closest entry answers with it and with no other. -/
theorem Ascends.nearest?_eq_some_iff (h : index.Ascends) {e : Entry} :
    index.nearest? target = some e ↔ index.IsNearest target e := by
  refine ⟨h.isNearest, fun hnearest => ?_⟩
  obtain ⟨e', hn, hnearest'⟩ := h.exists_isNearest hnearest.mem hnearest.le
  have heq : e'.ordinal = e.ordinal :=
    Nat.le_antisymm (hnearest.greatest e' hnearest'.mem hnearest'.le)
      (hnearest'.greatest e hnearest.mem hnearest.le)
  rw [hn, h.eq_of_ordinal hnearest'.mem hnearest.mem heq]

/-- There is no closest entry where all are behind the target. -/
theorem Ascends.nearest?_eq_none_iff (h : index.Ascends) :
    index.nearest? target = none ↔ ∀ e ∈ index.toList, target < e.ordinal := by
  constructor
  · intro hnone e he
    refine Nat.lt_of_not_le fun hle => ?_
    obtain ⟨found, hn, -⟩ := h.exists_isNearest he hle
    exact Option.some_ne_none found (hn.symm.trans hnone)
  · intro habove
    refine Option.eq_none_iff_forall_ne_some.2 fun e hn => ?_
    obtain ⟨he, hle⟩ := mem_of_nearest? hn
    exact absurd (habove e he) (Nat.not_lt.2 hle)

/-- For a later target there is an entry too, which is not an earlier one. -/
theorem Ascends.nearest?_mono (h : index.Ascends) {later : Nat} (hle : target ≤ later)
    {e : Entry} (hn : index.nearest? target = some e) :
    ∃ e', index.nearest? later = some e' ∧ e.ordinal ≤ e'.ordinal := by
  obtain ⟨he, hbefore⟩ := mem_of_nearest? hn
  have hreaches : e.ordinal ≤ later := Nat.le_trans hbefore hle
  obtain ⟨e', hn', hnearest⟩ := h.exists_isNearest he hreaches
  exact ⟨e', hn', hnearest.greatest e he hreaches⟩

theorem Ascends.exists_locate (h : index.Ascends) {lo hi k : Nat} {hhi : hi ≤ index.entries.size}
    (hlo : lo ≤ k) (hk : k < hi) (ht : index.entries[k].ordinal = target) :
    ∃ place, locate index.entries target lo hi hhi = some place ∧ place < hi := by
  fun_induction locate index.entries target lo hi hhi with
  | case1 lo hi hhi hlt middle hm heq =>
    have : middle = lo + (hi - lo) / 2 := rfl
    exact ⟨middle, rfl, by omega⟩
  | case2 lo hi hhi hlt middle hm hne hless ih =>
    -- the middle is below the target, which can only be behind it
    refine ih (Nat.lt_of_not_le fun hle => ?_) hk ht
    have := h.le hle hm
    omega
  | case3 lo hi hhi hlt middle hm hne hless ih =>
    obtain ⟨place, hplace, hlt'⟩ := ih hlo (Nat.lt_of_not_le fun hle => by
      have := h.le hle (by omega)
      omega) ht
    have : middle = lo + (hi - lo) / 2 := rfl
    exact ⟨place, hplace, by omega⟩
  | case4 => omega

theorem Ascends.position?_of_mem (h : index.Ascends) {e : Entry} (he : e ∈ index.toList) :
    index.position? e.ordinal = some e.position := by
  obtain ⟨k, hk, rfl⟩ := exists_place he
  obtain ⟨place, hplace, hlt⟩ : ∃ place, locate index.entries index.entries[k].ordinal 0
      index.entries.size (Nat.le_refl _) = some place ∧ place < index.entries.size :=
    h.exists_locate (Nat.zero_le k) hk rfl
  have hget := Array.getElem?_eq_getElem hlt
  have heq : index.entries[place] = index.entries[k] :=
    h.eq_of_ordinal (mem_of_getElem? hget) he (locate_eq hplace hget)
  simp only [position?, hplace, Option.bind_eq_bind, Option.bind_some, hget, heq,
    Option.pure_def]

theorem Ascends.nearest?_of_position? (h : index.Ascends) {position : Nat}
    (hp : index.position? target = some position) :
    index.nearest? target = some ⟨target, position⟩ := by
  have hmem := mem_of_position? hp
  exact h.nearest?_eq_some_iff.2 ⟨hmem, Nat.le_refl target, fun _ _ hle => hle⟩

/-- A position is found exactly if the closest entry is one for the target itself. -/
theorem Ascends.position?_eq_some_iff (h : index.Ascends) {position : Nat} :
    index.position? target = some position ↔ index.nearest? target = some ⟨target, position⟩ :=
  ⟨h.nearest?_of_position?, fun hn => h.position?_of_mem (mem_of_nearest? hn).1⟩

end TextSeek.SparseIndex

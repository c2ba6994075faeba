import TextSeek.Index.Merge
import TextSeek.Proofs.Index.Marks

/-!
# Hits on the windows of a grid

A scan looks at the marks of its run in order and keeps what it needs of each
window. What it reports need not be what a scan of the whole partition would
report, but the two become equal when their hits are joined: joining is all
that ever happens to hits, so a run may be compared with its marks, each taken
as a hit of its own (`Grid.hits`).

Results:
* `joinHits_append_congr`: joining can be done in any order.
* `windowOf_eq`, `windowOf_eq_iff`, `Holds.lt_add_ceilDiv`: windows are even.
* `windowOf_le_of_lt_start`: a unit in front of the next window lies in this one
  or before it.
* `collect_hits`: what a collector keeps of a list of marks.
-/
namespace TextSeek

/-! ## Joining -/

theorem joinHit_joinHit (joined : List Hit) {last hit : Hit} (h : last.window = hit.window) :
    joinHit (joinHit joined last) hit =
      joinHit joined { last with backup := last.backup.or hit.backup } := by
  cases joined with
  | nil => simp [joinHit, h]
  | cons first earlier =>
    by_cases hf : first.window = hit.window
    · simp [joinHit, hf, h, Option.or_assoc]
    · simp [joinHit, hf, h]

theorem foldl_joinHit_reverse (acc joined : List Hit) (hit : Hit) :
    (joinHit joined hit).reverse.foldl joinHit acc =
      joinHit (joined.reverse.foldl joinHit acc) hit := by
  cases joined with
  | nil => rfl
  | cons last earlier =>
    rw [List.reverse_cons, List.foldl_append, List.foldl_cons, List.foldl_nil]
    by_cases h : last.window = hit.window
    · rw [joinHit_joinHit _ h, joinHit, if_pos h, List.reverse_cons, List.foldl_append]
      rfl
    · rw [show joinHit (last :: earlier) hit = hit :: last :: earlier from if_neg h,
        List.reverse_cons, List.reverse_cons, List.foldl_append, List.foldl_append]
      rfl

/-- Hits may be joined before they are added to others. -/
theorem foldl_joinHits (acc hits : List Hit) :
    (joinHits hits).foldl joinHit acc = hits.foldl joinHit acc := by
  suffices ∀ joined : List Hit, (hits.foldl joinHit joined).reverse.foldl joinHit acc =
      hits.foldl joinHit (joined.reverse.foldl joinHit acc) from this []
  induction hits with
  | nil => exact fun _ => rfl
  | cons hit rest ih =>
    intro joined
    rw [List.foldl_cons, List.foldl_cons, ih, foldl_joinHit_reverse]

theorem joinHits_append_congr {a a' b b' : List Hit} (ha : joinHits a = joinHits a')
    (hb : joinHits b = joinHits b') : joinHits (a ++ b) = joinHits (a' ++ b') := by
  have h (a b : List Hit) : joinHits (a ++ b) =
      ((joinHits b).foldl joinHit ((joinHits a).foldl joinHit [])).reverse := by
    rw [foldl_joinHits, foldl_joinHits, ← List.foldl_append]
    rfl
  rw [h, h a', ha, hb]

theorem joinHits_shift (hits : List Hit) (ordinals bytes : Nat) :
    joinHits (hits.map (·.shift ordinals bytes)) =
      (joinHits hits).map (·.shift ordinals bytes) := by
  have hjoin (joined : List Hit) (hit : Hit) :
      joinHit (joined.map (·.shift ordinals bytes)) (hit.shift ordinals bytes) =
        (joinHit joined hit).map (·.shift ordinals bytes) := by
    cases joined with
    | nil => rfl
    | cons last earlier =>
      simp only [joinHit, List.map_cons]
      by_cases h : last.window = hit.window
      · rw [if_pos (show (last.shift ordinals bytes).window = (hit.shift ordinals bytes).window from
          h), if_pos h, List.map_cons]
        simp only [Hit.shift, Option.map_or]
      · rw [if_neg (show (last.shift ordinals bytes).window ≠ (hit.shift ordinals bytes).window from
          h), if_neg h]
        rfl
  have hfold (joined : List Hit) : (hits.map (·.shift ordinals bytes)).foldl joinHit
      (joined.map (·.shift ordinals bytes)) =
        (hits.foldl joinHit joined).map (·.shift ordinals bytes) := by
    induction hits generalizing joined with
    | nil => rfl
    | cons hit rest ih => rw [List.map_cons, List.foldl_cons, List.foldl_cons, hjoin, ih]
  rw [joinHits, joinHits, List.map_reverse, ← hfold]
  rfl

/-! ## Windows -/

theorem ceilDiv_eq {a b : Nat} (ha : 0 < a) (hb : 0 < b) : ceilDiv a b = (a - 1) / b + 1 := by
  have hdm := Nat.div_add_mod a b
  have hlt := Nat.mod_lt a hb
  unfold ceilDiv
  split
  · next h =>
    rw [h, Nat.add_zero] at hdm
    have hq : 0 < a / b := by
      rcases Nat.eq_zero_or_pos (a / b) with h0 | h0
      · rw [h0, Nat.mul_zero] at hdm; omega
      · exact h0
    have : (a - 1) / b = a / b - 1 := by
      refine Nat.div_eq_of_lt_le ?_ ?_
      · rw [Nat.sub_mul, Nat.mul_comm, hdm]; omega
      · rw [Nat.sub_add_cancel hq, Nat.mul_comm, hdm]; omega
    omega
  · next h =>
    have : (a - 1) / b = a / b := by
      refine Nat.div_eq_of_lt_le ?_ ?_
      · rw [Nat.mul_comm]; omega
      · rw [Nat.add_mul, Nat.mul_comm]; omega
    omega

theorem div_le_ceilDiv (a b : Nat) : a / b ≤ ceilDiv a b := Nat.le_add_right _ _

/-- From one multiple of `a` to the next, the quotient grows by that of `a`, rounded down
or up. -/
theorem succ_mul_div (k : Nat) {a b : Nat} (hb : 0 < b) :
    (k + 1) * a / b = k * a / b + a / b ∨ (k + 1) * a / b = k * a / b + ceilDiv a b := by
  have hka := Nat.div_add_mod (k * a) b
  have ha := Nat.div_add_mod a b
  have hlt := Nat.mod_lt (k * a) hb
  have hlt' := Nat.mod_lt a hb
  have hsum : (k + 1) * a = k * a % b + a % b + b * (k * a / b + a / b) := by
    rw [Nat.succ_mul, Nat.mul_add]
    omega
  rw [hsum, Nat.add_mul_div_left _ _ hb]
  generalize k * a / b = q
  rcases Nat.lt_or_ge (k * a % b + a % b) b with h | h
  · left
    rw [Nat.div_eq_of_lt h, Nat.zero_add]
  · right
    have hone : (k * a % b + a % b) / b = 1 := by
      refine Nat.div_eq_of_lt_le ?_ ?_ <;> omega
    rw [hone, ceilDiv, if_neg (by omega)]
    omega

theorem succ_mul_div_le (k : Nat) {a b : Nat} (hb : 0 < b) :
    (k + 1) * a / b ≤ k * a / b + ceilDiv a b := by
  have := div_le_ceilDiv a b
  have := succ_mul_div k (a := a) hb
  omega

namespace Grid

/-- The unit `place` lies in window `k`. -/
def Holds (g : Grid) (k place : Nat) : Prop :=
  k * g.span / g.windows ≤ place ∧ place < (k + 1) * g.span / g.windows

instance (g : Grid) (k place : Nat) : Decidable (g.Holds k place) :=
  inferInstanceAs (Decidable (_ ∧ _))

/-- A word can number the windows. -/
def Numbered (g : Grid) : Prop := g.windows < UInt64.size

theorem ofQuota_numbered (quota : UInt64) (span : Nat) : (ofQuota quota.toNat span).Numbered :=
  Nat.lt_of_le_of_lt (Nat.min_le_left _ _) quota.toNat_lt

variable {g : Grid}

theorem window_quotient_lt (hne : g.isEmpty = false) {place : Nat}
    (hp : place < g.span) : 0 < (place + 1) * g.windows ∧
      ((place + 1) * g.windows - 1) / g.span < g.windows := by
  have hw : 0 < g.windows := by simpa [isEmpty, Nat.pos_iff_ne_zero] using hne
  have hpos : 0 < (place + 1) * g.windows := Nat.mul_pos (by omega) hw
  have hle : (place + 1) * g.windows ≤ g.span * g.windows := Nat.mul_le_mul_right _ hp
  rw [Nat.div_lt_iff_lt_mul (by omega), Nat.mul_comm g.windows]
  exact ⟨hpos, by omega⟩

theorem Numbered.windowOf_eq (hg : g.Numbered) (hne : g.isEmpty = false) {place : Nat}
    (hp : place < g.span) : g.windowOf place = ((place + 1) * g.windows - 1) / g.span := by
  obtain ⟨hpos, hq⟩ := window_quotient_lt hne hp
  unfold Numbered at hg
  rw [windowOf, ceilDiv_eq hpos (by omega)]
  generalize ((place + 1) * g.windows - 1) / g.span = q at hq ⊢
  rw [word_eq_self (by omega), wordSub_eq_sub (by omega) (by omega), Nat.add_sub_cancel]

theorem Numbered.windowOf_lt (hg : g.Numbered) (hne : g.isEmpty = false) {place : Nat}
    (hp : place < g.span) : g.windowOf place < g.windows := by
  rw [hg.windowOf_eq hne hp]
  exact (window_quotient_lt hne hp).2

theorem Numbered.windowOf_mono (hg : g.Numbered) (hne : g.isEmpty = false) {a b : Nat} (hab : a ≤ b)
    (hb : b < g.span) : g.windowOf a ≤ g.windowOf b := by
  rw [hg.windowOf_eq hne hb, hg.windowOf_eq hne (by omega)]
  have := Nat.mul_le_mul_right g.windows (Nat.add_le_add_right hab 1)
  exact Nat.div_le_div_right (by omega)

/-- A unit in front of the next window does not lie behind this one. -/
theorem Numbered.windowOf_le_of_lt_start (hg : g.Numbered) (hne : g.isEmpty = false)
    {place window : Nat} (hp : place < g.span) (hw : window < g.windows)
    (h : place < g.windowStart (word (window + 1))) : g.windowOf place ≤ window := by
  have hs : g.windows < UInt64.size := hg
  rw [word_eq_self (by omega), windowStart] at h
  have hlt : place < (window + 1) * g.span / g.windows := Nat.lt_of_lt_of_le h (Nat.mod_le _ _)
  have hle : (place + 1) * g.windows ≤ (window + 1) * g.span :=
    (Nat.le_div_iff_mul_le (by omega)).1 hlt
  have hpos : 0 < (place + 1) * g.windows := Nat.mul_pos (by omega) (by omega)
  rw [hg.windowOf_eq hne hp]
  refine Nat.le_of_lt_add_one ((Nat.div_lt_iff_lt_mul (by omega)).2 ?_)
  omega

theorem Numbered.windowOf_eq_iff (hg : g.Numbered) (hne : g.isEmpty = false) {place k : Nat}
    (hp : place < g.span) : g.windowOf place = k ↔ g.Holds k place := by
  have hw : 0 < g.windows := by simpa [isEmpty, Nat.pos_iff_ne_zero] using hne
  have hpos := (window_quotient_lt hne hp).1
  have hstart : k * g.span / g.windows ≤ place ↔ k * g.span < (place + 1) * g.windows := by
    rw [← Nat.lt_add_one_iff, Nat.div_lt_iff_lt_mul hw]
  have hend : place < (k + 1) * g.span / g.windows ↔
      (place + 1) * g.windows ≤ (k + 1) * g.span := by
    rw [Nat.lt_iff_add_one_le, Nat.le_div_iff_mul_le hw]
  have hspan : (k + 1) * g.span = k * g.span + g.span := Nat.succ_mul k g.span
  rw [hg.windowOf_eq hne hp, Nat.div_eq_iff (by omega), Holds, hstart, hend]
  omega

theorem Holds.lt {j k a b : Nat} (ha : g.Holds j a) (hb : g.Holds k b) (h : j + 1 ≤ k) :
    a < b := by
  have hstart := Nat.div_le_div_right (c := g.windows) (Nat.mul_le_mul_right g.span h)
  unfold Holds at ha hb
  omega

/-- Two units of one window are less than the width of a window apart. -/
theorem Holds.lt_add_ceilDiv {k a b : Nat} (hw : 0 < g.windows) (ha : g.Holds k a)
    (hb : g.Holds k b) : b < a + ceilDiv g.span g.windows := by
  have hwidth := succ_mul_div_le k (a := g.span) hw
  unfold Holds at ha hb
  omega

/-- The hit that a mark is on its own. -/
def hitAt (g : Grid) (m : Mark) : Hit where
  window := g.windowOf m.place
  first := m.entry
  backup := if g.backupStart (g.windowOf m.place) ≤ m.place then some m.entry else none

/-- A hit for each mark, unless there are no windows. -/
def hits (g : Grid) (marks : List Mark) : List Hit :=
  if g.isEmpty then [] else marks.map g.hitAt

theorem hits_append (a b : List Mark) : g.hits (a ++ b) = g.hits a ++ g.hits b := by
  unfold hits
  split
  · rfl
  · exact List.map_append

theorem hits_shift (marks : List Mark) (ordinals bytes : Nat) :
    g.hits (marks.map (·.shift 0 ordinals bytes)) =
      (g.hits marks).map (·.shift ordinals bytes) := by
  unfold hits
  split
  · rfl
  · rw [List.map_map, List.map_map]
    apply List.map_congr_left
    intro m _
    simp only [Function.comp_apply, hitAt, Hit.shift, Mark.shift, Nat.add_zero, Hit.mk.injEq,
      true_and]
    split <;> rfl

end Grid

/-! ## Collecting -/

def Collector.take (c : Collector) (m : Mark) : Collector := c.offer m.place m.entry

/-- What a collector has kept of `marks`. -/
structure Collector.Keeps (c : Collector) (marks : List Mark) : Prop where
  hits_eq : joinHits c.hits.reverse = joinHits (marks.map c.grid.hitAt)
  window : ∀ hit earlier, c.hits = hit :: earlier → hit.window < c.grid.windows ∧
    (∃ last, marks.getLast? = some last ∧ c.grid.windowOf last.place = hit.window) ∧
    c.windowEnd = c.grid.windowStart (word (hit.window + 1)) ∧
    c.backupStart = c.grid.backupStart hit.window

namespace Collector

variable {c : Collector} {marks : List Mark} {m : Mark}

theorem offer_grid (c : Collector) (place : Nat) (entry : Entry) :
    (c.offer place entry).grid = c.grid := by
  unfold offer enter
  repeat' split
  all_goals rfl

@[simp] theorem take_grid : (c.take m).grid = c.grid := c.offer_grid m.place m.entry

theorem Keeps.enter (hc : c.Keeps marks) (hg : c.grid.Numbered) (hne : c.grid.isEmpty = false)
    (hm : m.place < c.grid.span) : (c.enter m.place m.entry).Keeps (marks ++ [m]) where
  hits_eq := by
    rw [show (c.enter m.place m.entry).hits = c.grid.hitAt m :: c.hits from rfl,
      show (c.enter m.place m.entry).grid = c.grid from rfl, List.reverse_cons, List.map_append]
    exact joinHits_append_congr hc.hits_eq rfl
  window hit earlier h := by
    obtain ⟨rfl, -⟩ := List.cons.inj h
    exact ⟨hg.windowOf_lt hne hm, ⟨m, by simp, rfl⟩, rfl, rfl⟩

/-- Taking the next mark. In front of the next window it only fills in what the
last hit lacks, as joining would. -/
theorem Keeps.take (hc : c.Keeps marks) (hg : c.grid.Numbered) (hne : c.grid.isEmpty = false)
    (hm : m.place < c.grid.span) (hlast : ∀ last ∈ marks, last.place ≤ m.place) :
    (c.take m).Keeps (marks ++ [m]) := by
  unfold Collector.take offer
  rw [if_neg (by simp [hne])]
  split
  · exact hc.enter hg hne hm
  · next hit earlier hh =>
    obtain ⟨hlt, ⟨last, hl, hw⟩, hend, hback⟩ := hc.window hit earlier hh
    split
    · next hplace =>
      have hsame : c.grid.windowOf m.place = hit.window := by
        rw [hend] at hplace
        have hle := hg.windowOf_le_of_lt_start hne hm hlt hplace
        have hge := hg.windowOf_mono hne (hlast last (List.mem_of_getLast? hl)) hm
        omega
      have hjoin : joinHits (marks ++ [m] |>.map c.grid.hitAt) =
          joinHits (({ hit with backup := hit.backup.or (c.grid.hitAt m).backup } ::
            earlier).reverse) := by
        rw [List.map_append, joinHits_append_congr hc.hits_eq.symm rfl, hh, List.reverse_cons,
          List.reverse_cons, List.append_assoc]
        refine joinHits_append_congr rfl ?_
        simp [joinHits, joinHit, hsame, Grid.hitAt]
      split
      · next hfill =>
        simp only [Bool.and_eq_true, Option.isNone_iff_eq_none, decide_eq_true_eq] at hfill
        constructor
        · rw [hjoin]
          simp [Grid.hitAt, hfill.1, hsame, ← hback, hfill.2]
        · intro hit' earlier' h
          obtain ⟨rfl, rfl⟩ := List.cons.inj h
          exact ⟨hlt, ⟨m, by simp, hsame⟩, hend, hback⟩
      · next hfill =>
        simp only [Bool.and_eq_true, Option.isNone_iff_eq_none, decide_eq_true_eq, not_and] at hfill
        constructor
        · rw [hjoin, hh]
          obtain ⟨window, first, backup⟩ := hit
          cases backup with
          | none => simp [Grid.hitAt, hsame, ← hback, hfill rfl]
          | some entry => simp
        · intro hit' earlier' h
          rw [hh] at h
          obtain ⟨rfl, rfl⟩ := List.cons.inj h
          exact ⟨hlt, ⟨m, by simp, hsame⟩, hend, hback⟩
    · exact hc.enter hg hne hm

theorem foldl_take_keeps {rest : List Mark} (hc : c.Keeps marks) (hg : c.grid.Numbered)
    (hne : c.grid.isEmpty = false) (hp : ∀ m ∈ rest, m.place < c.grid.span)
    (hs : (marks ++ rest).Pairwise (·.place < ·.place)) :
    (rest.foldl Collector.take c).Keeps (marks ++ rest) ∧
      (rest.foldl Collector.take c).grid = c.grid := by
  induction rest generalizing c marks with
  | nil => exact ⟨by simpa using hc, rfl⟩
  | cons m rest ih =>
    have hlast : ∀ last ∈ marks, last.place ≤ m.place := fun last hl =>
      Nat.le_of_lt ((List.pairwise_append.1 hs).2.2 last hl m (by simp))
    rw [List.foldl_cons]
    have hnext := hc.take hg hne (hp m (by simp)) hlast
    rw [List.append_cons] at hs ⊢
    obtain ⟨hk, hgrid⟩ := ih (c := c.take m) hnext (by simpa using hg) (by simpa using hne)
      (fun m' hm' => by simpa using hp m' (by simp [hm'])) hs
    exact ⟨hk, hgrid.trans take_grid⟩

theorem collect_empty {g : Grid} (hne : g.isEmpty = true) (marks : List Mark) :
    marks.foldl Collector.take { grid := g } = { grid := g } := by
  induction marks with
  | nil => rfl
  | cons m rest ih => rw [List.foldl_cons, Collector.take, offer, if_pos hne, ih]

/-- What a collector keeps of marks is, when joined, what they are. -/
theorem collect_hits {g : Grid} (hg : g.Numbered) {marks : List Mark}
    (hp : ∀ m ∈ marks, m.place < g.span) (hs : marks.Pairwise (·.place < ·.place)) :
    joinHits (marks.foldl Collector.take { grid := g }).hits.reverse = joinHits (g.hits marks) := by
  cases hne : g.isEmpty with
  | true =>
    rw [collect_empty hne, Grid.hits, if_pos hne]
    rfl
  | false =>
    have hstart : Collector.Keeps { grid := g } [] := ⟨rfl, fun _ _ h => nomatch h⟩
    obtain ⟨hk, hgrid⟩ := foldl_take_keeps hstart hg hne hp (by simpa using hs)
    have := hk.hits_eq
    rw [hgrid] at this
    rw [this, Grid.hits, if_neg (by simp [hne])]
    rfl

end Collector
end TextSeek

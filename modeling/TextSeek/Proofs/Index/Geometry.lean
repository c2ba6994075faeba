import Mathlib.Algebra.Ring.Nat
import TextSeek.Proofs.Index.Windows

/-!
# The geometry of a grid

The windows of a grid lie over its units without a gap, all of one size or of two sizes
that differ by one, and the window of a unit is found without a search. On a grid that
words can describe no query leaves the numbers that it is worked out in.

To say so, `Checked` has each query worked out step by step, where a step without a proper
result ends it: a product that takes more than 128 bits, a word of more than 64, a quotient
by zero, a difference below zero.

Results:
* `windowStart_eq`, `windowStart_succ`, `backupStart_eq`: where windows and their second
  halves start.
* `Checked.windowStart_eq`, `Checked.windowOf_eq`, `Checked.backupStart_eq`: queries that
  have an answer.
* `Checked.eq_none_of_isEmpty`: queries that have none.
* `ofQuota_divides`: the windows of a grid, and all queries about them.
-/
namespace TextSeek

/-! ## Steps that may fail -/

namespace Checked

/-- A number that takes at most so many bits. -/
def fit (bits n : Nat) : Option Nat := if n < 2 ^ bits then some n else none

/-- A difference that is not below zero. -/
def sub (a b : Nat) : Option Nat := if b ≤ a then some (a - b) else none

/-- A quotient by a number other than zero. -/
def div (a b : Nat) : Option Nat := if b = 0 then none else some (a / b)

def divUp (a b : Nat) : Option Nat := if b = 0 then none else some (ceilDiv a b)

theorem fit_eq {bits n : Nat} (h : n < 2 ^ bits) : fit bits n = some n := if_pos h

theorem sub_eq {a b : Nat} (h : b ≤ a) : sub a b = some (a - b) := if_pos h

theorem div_eq {b : Nat} (h : 0 < b) (a : Nat) : div a b = some (a / b) := if_neg (by omega)

theorem divUp_eq {b : Nat} (h : 0 < b) (a : Nat) : divUp a b = some (ceilDiv a b) :=
  if_neg (by omega)

def windowStart (g : Grid) (k : Nat) : Option Nat := do
  let product ← fit 128 (k * g.span)
  let first ← div product g.windows
  fit 64 first

def windowOf (g : Grid) (place : Nat) : Option Nat := do
  let product ← fit 128 ((place + 1) * g.windows)
  let behind ← divUp product g.span
  let behind ← fit 64 behind
  sub behind 1

def backupStart (g : Grid) (k : Nat) : Option Nat := do
  let first ← windowStart g k
  let next ← fit 64 (k + 1)
  let behind ← windowStart g next
  let width ← sub behind first
  fit 64 (first + ceilDiv width 2)

end Checked

/-! ## Windows and their halves -/

theorem mul_lt_words {a b : Nat} (ha : a ≤ UInt64.size) (hb : b < UInt64.size) :
    a * b < 2 ^ 128 := by
  have hpos : 0 < UInt64.size := by decide
  calc a * b ≤ UInt64.size * b := Nat.mul_le_mul_right b ha
    _ < UInt64.size * UInt64.size := Nat.mul_lt_mul_of_pos_left hb hpos
    _ = 2 ^ 128 := by decide

theorem ceilDiv_two (n : Nat) :
    n ≤ 2 * ceilDiv n 2 ∧ ceilDiv n 2 ≤ n ∧ (0 < n → 0 < ceilDiv n 2) := by
  unfold ceilDiv
  split <;> omega

namespace Grid

variable {g : Grid} {k place : Nat}

theorem quotient_le_span (hk : k ≤ g.windows) : k * g.span / g.windows ≤ g.span := by
  refine Nat.div_le_of_le_mul ?_
  exact Nat.mul_le_mul_right g.span hk

theorem windowStart_eq (hs : g.span < UInt64.size) (hk : k ≤ g.windows) :
    g.windowStart k = k * g.span / g.windows :=
  word_eq_self (Nat.lt_of_le_of_lt (quotient_le_span hk) hs)

theorem windowStart_le (hs : g.span < UInt64.size) (hk : k ≤ g.windows) :
    g.windowStart k ≤ g.span := by
  rw [windowStart_eq hs hk]
  exact quotient_le_span hk

theorem windowStart_succ (hs : g.span < UInt64.size) (hk : k < g.windows) :
    g.windowStart (k + 1) = g.windowStart k + g.span / g.windows ∨
      g.windowStart (k + 1) = g.windowStart k + ceilDiv g.span g.windows := by
  rw [windowStart_eq hs hk, windowStart_eq hs (Nat.le_of_lt hk)]
  exact succ_mul_div k (by omega)

theorem windowStart_lt (hs : g.span < UInt64.size) (hle : g.windows ≤ g.span)
    (hk : k < g.windows) : g.windowStart k < g.windowStart (k + 1) := by
  have hpos : 0 < g.span / g.windows := Nat.div_pos hle (by omega)
  have := div_le_ceilDiv g.span g.windows
  have := windowStart_succ hs hk
  omega

theorem windowStart_mono (hs : g.span < UInt64.size) (hk : k < g.windows) :
    g.windowStart k ≤ g.windowStart (k + 1) := by
  rw [windowStart_eq hs hk, windowStart_eq hs (Nat.le_of_lt hk)]
  exact Nat.div_le_div_right (Nat.mul_le_mul_right g.span (Nat.le_succ k))

/-- The second half of a window starts behind the first one, which is the longer one if
they differ. -/
theorem backupStart_eq (hg : g.Numbered) (hs : g.span < UInt64.size) (hk : k < g.windows) :
    g.backupStart k =
      g.windowStart k + ceilDiv (g.windowStart (k + 1) - g.windowStart k) 2 := by
  have hword : word (k + 1) = k + 1 := by
    unfold Numbered at hg
    exact word_eq_self (by omega)
  have hmono := windowStart_mono hs hk
  have hend : g.windowStart (k + 1) ≤ g.span := windowStart_le hs hk
  have hhalf := ceilDiv_two (g.windowStart (k + 1) - g.windowStart k)
  simp only [backupStart, hword]
  rw [wordSub_eq_sub hmono (by omega), word_eq_self (by omega)]

end Grid

/-! ## Queries that have an answer -/

namespace Checked

variable {g : Grid} {k place : Nat}

theorem windowStart_eq (hg : g.Numbered) (hs : g.span < UInt64.size) (hne : 0 < g.windows)
    (hk : k ≤ g.windows) : windowStart g k = some (g.windowStart k) := by
  have hproduct : k * g.span < 2 ^ 128 := mul_lt_words (Nat.le_of_lt (Nat.lt_of_le_of_lt hk hg)) hs
  have hfirst : k * g.span / g.windows < 2 ^ 64 :=
    Nat.lt_of_le_of_lt (Grid.quotient_le_span hk) hs
  rw [Grid.windowStart_eq hs hk]
  simp only [windowStart, fit_eq hproduct, div_eq hne, fit_eq hfirst, Option.bind_eq_bind,
    Option.bind_some]

/-- An answer is the exact one, also for numbers behind the last window. -/
theorem eq_of_windowStart {first : Nat} (h : windowStart g k = some first) :
    first = k * g.span / g.windows := by
  unfold windowStart fit div at h
  split at h
  · split at h
    · cases h
    · simp only [Option.bind_eq_bind, Option.bind_some] at h
      split at h <;> cases h
      rfl
  · cases h

theorem windowOf_eq (hg : g.Numbered) (hs : g.span < UInt64.size) (hne : g.isEmpty = false)
    (hp : place < g.span) : windowOf g place = some (g.windowOf place) := by
  have hproduct : (place + 1) * g.windows < 2 ^ 128 :=
    mul_lt_words (Nat.le_of_lt (Nat.lt_of_le_of_lt hp hs)) hg
  obtain ⟨hpos, hq⟩ := Grid.window_quotient_lt hne hp
  have hspan : 0 < g.span := Nat.zero_lt_of_lt hp
  have hfit : ((place + 1) * g.windows - 1) / g.span + 1 < 2 ^ 64 := Nat.lt_of_le_of_lt hq hg
  rw [hg.windowOf_eq hne hp]
  simp only [windowOf, fit_eq hproduct, divUp_eq hspan, ceilDiv_eq hpos hspan, fit_eq hfit,
    sub_eq (Nat.le_add_left _ _), Option.bind_eq_bind, Option.bind_some, Nat.add_sub_cancel]

theorem backupStart_eq (hg : g.Numbered) (hs : g.span < UInt64.size) (hk : k < g.windows) :
    backupStart g k = some (g.backupStart k) := by
  have hne : 0 < g.windows := Nat.zero_lt_of_lt hk
  have hnext : k + 1 < 2 ^ 64 := Nat.lt_of_le_of_lt hk hg
  have hmono := Grid.windowStart_mono hs hk
  have hfit : g.windowStart k + ceilDiv (g.windowStart (k + 1) - g.windowStart k) 2 < 2 ^ 64 := by
    have hend : g.windowStart (k + 1) ≤ g.span := Grid.windowStart_le hs hk
    have hhalf := ceilDiv_two (g.windowStart (k + 1) - g.windowStart k)
    have hlt : g.span < 2 ^ 64 := hs
    omega
  rw [Grid.backupStart_eq hg hs hk]
  simp only [backupStart, windowStart_eq hg hs hne (Nat.le_of_lt hk), fit_eq hnext,
    windowStart_eq hg hs hne hk, sub_eq hmono, fit_eq hfit, Option.bind_eq_bind, Option.bind_some]

theorem eq_none_of_isEmpty (h : g.isEmpty = true) (n : Nat) :
    windowStart g n = none ∧ windowOf g n = none ∧ backupStart g n = none := by
  have hw : g.windows = 0 := by simpa [Grid.isEmpty] using h
  have hstart : windowStart g n = none := by
    unfold windowStart
    cases fit 128 (n * g.span) with
    | none => rfl
    | some product => simp [div, hw]
  refine ⟨hstart, ?_, ?_⟩
  · rw [windowOf, hw, Nat.mul_zero]
    by_cases hspan : g.span = 0
    · simp [divUp, hspan, fit]
    · simp [divUp, hspan, fit, ceilDiv, sub]
  · rw [backupStart, hstart]
    rfl

end Checked

/-! ## A grid for a quota -/

/-- The grid divides `span` units into `count` windows, and all queries about them have an
answer. -/
structure Grid.Divides (g : Grid) (count span : Nat) : Prop where
  windows_eq : g.windows = count
  start_zero : g.windowStart 0 = 0
  start_count : g.windowStart count = span
  /-- No window is empty, and their widths differ by one unit at most. -/
  width : ∀ k < count, g.windowStart k < g.windowStart (k + 1) ∧
    (g.windowStart (k + 1) = g.windowStart k + span / count ∨
      g.windowStart (k + 1) = g.windowStart k + ceilDiv span count)
  windowOf_lt : ∀ place < span, g.windowOf place < count
  /-- A unit lies in its window and in no other one. -/
  windowOf_iff : ∀ place < span, ∀ k < count,
    g.windowStart k ≤ place ∧ place < g.windowStart (k + 1) ↔ k = g.windowOf place
  /-- No number behind the last window encloses it, unless it takes more than a word. -/
  windowOf_only : ∀ place < span, ∀ k first behind, Checked.windowStart g k = some first →
    Checked.windowStart g (k + 1) = some behind → first ≤ place → place < behind →
    k = g.windowOf place
  /-- The second half of a window starts in its middle, rounded up. -/
  backup : ∀ k < count, g.windowStart k < g.backupStart k ∧
    g.backupStart k ≤ g.windowStart (k + 1) ∧
    g.windowStart (k + 1) - g.windowStart k ≤ 2 * (g.backupStart k - g.windowStart k)
  start_checked : ∀ k ≤ count, Checked.windowStart g k = some (g.windowStart k)
  windowOf_checked : ∀ place < span, Checked.windowOf g place = some (g.windowOf place)
  backup_checked : ∀ k < count, Checked.backupStart g k = some (g.backupStart k)

/-- Whatever quota and number of units words can hold, if neither is zero: there are as
many windows as the smaller of the two says, and no query about them leaves the numbers
that it is worked out in. -/
theorem Grid.ofQuota_divides (quota span : UInt64) (hq : 0 < quota) (hs : 0 < span) :
    (ofQuota quota.toNat span.toNat).Divides (min quota.toNat span.toNat) span.toNat := by
  have hqpos : 0 < quota.toNat := UInt64.lt_iff_toNat_lt.1 hq
  have hspos : 0 < span.toNat := UInt64.lt_iff_toNat_lt.1 hs
  have hg := ofQuota_numbered quota span.toNat
  have hspan : (ofQuota quota.toNat span.toNat).span < UInt64.size := span.toNat_lt
  have hle := windows_le_span quota.toNat span.toNat
  have hne : 0 < (ofQuota quota.toNat span.toNat).windows := Nat.lt_min.2 ⟨hqpos, hspos⟩
  have hempty : (ofQuota quota.toNat span.toNat).isEmpty = false := by
    simpa [isEmpty, Nat.pos_iff_ne_zero] using hne
  refine ⟨rfl, ?_, ?_, ?_, ?_, ?_, ?_, ?_, ?_, ?_, ?_⟩
  · rw [windowStart_eq hspan (Nat.zero_le _), Nat.zero_mul, Nat.zero_div]
  · exact (windowStart_eq hspan (Nat.le_refl _)).trans (Nat.mul_div_cancel_left span.toNat hne)
  · intro k hk
    exact ⟨windowStart_lt hspan hle hk, windowStart_succ hspan hk⟩
  · intro place hp
    exact hg.windowOf_lt hempty hp
  · intro place hp k hk
    rw [windowStart_eq hspan (Nat.le_of_lt hk), windowStart_eq hspan hk, eq_comm]
    exact (hg.windowOf_eq_iff hempty hp).symm
  · intro place hp k first behind hfirst hbehind hle hlt
    rw [Checked.eq_of_windowStart hfirst] at hle
    rw [Checked.eq_of_windowStart hbehind] at hlt
    exact ((hg.windowOf_eq_iff hempty hp).2 ⟨hle, hlt⟩).symm
  · intro k hk
    have hlt := windowStart_lt hspan hle hk
    have hhalf := ceilDiv_two ((ofQuota quota.toNat span.toNat).windowStart (k + 1) -
      (ofQuota quota.toNat span.toNat).windowStart k)
    rw [backupStart_eq hg hspan hk]
    omega
  · intro k hk
    exact Checked.windowStart_eq hg hspan hne hk
  · intro place hp
    exact Checked.windowOf_eq hg hspan hempty hp
  · intro k hk
    exact Checked.backupStart_eq hg hspan hk

/-- The widest grid of three windows, and the finest one. -/
theorem Grid.ofQuota_divides_widest :
    (0 : UInt64) < 3 ∧ (0 : UInt64) < 0xFFFFFFFFFFFFFFFF ∧
    (ofQuota 3 0xFFFFFFFFFFFFFFFF).Divides 3 0xFFFFFFFFFFFFFFFF ∧
    (ofQuota 0xFFFFFFFFFFFFFFFF 0xFFFFFFFFFFFFFFFF).Divides
      0xFFFFFFFFFFFFFFFF 0xFFFFFFFFFFFFFFFF := by
  refine ⟨by decide, by decide, ?_, ?_⟩
  · exact ofQuota_divides 3 0xFFFFFFFFFFFFFFFF (by decide) (by decide)
  · exact ofQuota_divides 0xFFFFFFFFFFFFFFFF 0xFFFFFFFFFFFFFFFF (by decide) (by decide)

/-- Behind the last window the start of one may take more than a word. -/
example : Checked.windowStart (Grid.ofQuota 1 3) 6148914691236517206 = none := by decide

end TextSeek

import TextSeek.Proofs.Index.Geometry
import TextSeek.Proofs.Index.Growth

/-!
# Scans and picking, step by step

`Checked` has the work on one partition done step by step: every query on a grid, every
difference and every look into the partition ends the work if it has no proper result. It
never does. Candidates lie in the partition, and none is asked about if there are no windows;
and joined hits are on windows in ascending order, so the windows between two of them can be
counted.

Results:
* `Checked.offer_eq`, `Checked.walk_eq`, `Checked.scan_eq`: a run that lies in the partition.
* `Checked.take_eq`, `Checked.selectEntries_eq`: picking from hits in ascending order.
* `Checked.merge_eq`: reports on all units of a partition.
-/
namespace TextSeek

namespace Checked

/-! ## A scan -/

def enter (c : Collector) (place : Nat) (entry : Entry) : Option Collector := do
  let window ← windowOf c.grid place
  let next ← fit 64 (window + 1)
  let windowEnd ← windowStart c.grid next
  let backupStart ← backupStart c.grid window
  return { c with
    hits := ⟨window, entry, if backupStart ≤ place then some entry else none⟩ :: c.hits
    windowEnd, backupStart }

/-- Takes the candidate at the unit `place` of the partition. In front of the end of the last
window no query is made. -/
def offer (c : Collector) (place : Nat) (entry : Entry) : Option Collector :=
  if c.grid.isEmpty || (!c.hits.isEmpty && place < c.windowEnd) then some (c.offer place entry)
  else enter c place entry

def step (plan : ScanPlan) (base : Nat) (s : ScanState) (unit : UInt16) (next : Option UInt16) :
    Option ScanState := do
  let chars ←
    if CodeUnit.isLowSurrogate unit then some s.chars
    else offer s.chars (base + s.units) ⟨s.units, s.bytes⟩
  let lines ←
    if startsLine plan.startsLine s.previous unit then
      offer s.lines (base + s.units) ⟨s.lineEnds, s.bytes⟩
    else some s.lines
  return { plan.step base s unit next with chars, lines }

def walk (plan : ScanPlan) (base : Nat) (s : ScanState) (units : List UInt16)
    (after : Option UInt16) : Option ScanState :=
  match units with
  | [] => some s
  | unit :: rest => do
    let s ← step plan base s unit (rest.head?.or after)
    walk plan base s rest after

def scan (plan : ScanPlan) (buffer : List UInt16) (run : Run) : Option Report :=
  if run.stop ≤ buffer.length then do
    let s ← walk plan run.start (plan.initial (buffer.take run.start).getLast?)
      ((buffer.drop run.start).take run.length) (buffer.drop run.stop).head?
    return s.report
  else none

section

variable {c : Collector} {place span : Nat} {entry : Entry} {plan : ScanPlan}

theorem enter_eq (hg : c.grid.Numbered) (hs : c.grid.span < UInt64.size)
    (hne : c.grid.isEmpty = false) (hp : place < c.grid.span) :
    enter c place entry = some (c.enter place entry) := by
  have hlt := hg.windowOf_lt hne hp
  rw [enter, windowOf_eq hg hs hne hp, Collector.enter]
  generalize c.grid.windowOf place = window at hlt ⊢
  have hwindows : 0 < c.grid.windows := Nat.zero_lt_of_lt hlt
  have hnext : window + 1 < 2 ^ 64 := Nat.lt_of_le_of_lt hlt hg
  have hword : word (window + 1) = window + 1 := word_eq_self hnext
  rw [Option.bind_eq_bind, Option.bind_some, fit_eq hnext, Option.bind_some,
    windowStart_eq hg hs hwindows hlt, Option.bind_some, backupStart_eq hg hs hlt,
    Option.bind_some, hword, Option.pure_def]

theorem offer_eq (hg : c.grid.Numbered) (hs : c.grid.span < UInt64.size)
    (hp : place < c.grid.span) (entry : Entry) :
    offer c place entry = some (c.offer place entry) := by
  unfold offer
  split
  · rfl
  · next h =>
    simp only [Bool.or_eq_true, Bool.and_eq_true, Bool.not_eq_true', decide_eq_true_eq, not_or,
      Bool.not_eq_true, not_and] at h
    obtain ⟨hne, hbehind⟩ := h
    rw [enter_eq hg hs hne hp, Collector.offer, if_neg (by simp [hne])]
    cases hh : c.hits with
    | nil => rfl
    | cons hit earlier =>
      rw [hh] at hbehind
      simp only [if_neg (hbehind rfl)]

/-- The collectors of a scan have the grids of its plan. -/
structure Equipped (plan : ScanPlan) (s : ScanState) : Prop where
  chars : s.chars.grid = plan.charGrid
  lines : s.lines.grid = plan.lineGrid

theorem Equipped.step {s : ScanState} (h : Equipped plan s) (base : Nat) (unit : UInt16)
    (next : Option UInt16) : Equipped plan (plan.step base s unit next) := by
  refine ⟨?_, ?_⟩
  · simp only [ScanPlan.step]
    split
    · exact h.chars
    · rw [Collector.offer_grid, h.chars]
  · simp only [ScanPlan.step]
    split
    · rw [Collector.offer_grid, h.lines]
    · exact h.lines

theorem step_eq (hp : plan.Covers span) (hs : span < UInt64.size) {s : ScanState}
    (h : Equipped plan s) {base : Nat} (hplace : base + s.units < span) (unit : UInt16)
    (next : Option UInt16) : step plan base s unit next = some (plan.step base s unit next) := by
  have hchars := offer_eq (h.chars ▸ hp.chars) (h.chars ▸ hp.char_span ▸ hs)
    (h.chars ▸ hp.char_span ▸ hplace)
  have hlines := offer_eq (h.lines ▸ hp.lines) (h.lines ▸ hp.line_span ▸ hs)
    (h.lines ▸ hp.line_span ▸ hplace)
  simp only [step, hchars, hlines, ScanPlan.step]
  cases CodeUnit.isLowSurrogate unit <;> cases startsLine plan.startsLine s.previous unit <;> rfl

theorem walk_eq (hp : plan.Covers span) (hs : span < UInt64.size) {s : ScanState}
    (h : Equipped plan s) {base : Nat} {units : List UInt16}
    (hplaces : base + s.units + units.length ≤ span) (after : Option UInt16) :
    walk plan base s units after = some (plan.walk base s units after) := by
  induction units generalizing s with
  | nil => rfl
  | cons unit rest ih =>
    rw [List.length_cons] at hplaces
    rw [walk, step_eq hp hs h (by omega), Option.bind_eq_bind, Option.bind_some, ScanPlan.walk]
    refine ih (h.step base unit _) ?_
    simp only [ScanPlan.step]
    omega

/-- Whatever the units are, a run is scanned exactly if it lies in the partition. -/
theorem scan_eq {buffer : List UInt16} (hp : plan.Covers buffer.length)
    (hs : buffer.length < UInt64.size) (run : Run) :
    scan plan buffer run = plan.scan? buffer run := by
  unfold scan
  split
  · next hrun =>
    have hlength : run.start + ((buffer.drop run.start).take run.length).length ≤
        buffer.length := by
      unfold Run.stop at hrun
      rw [List.length_take, List.length_drop]
      omega
    rw [plan.scan?_eq hrun, walk_eq hp hs ⟨rfl, rfl⟩ hlength]
    rfl
  · next hrun => rw [ScanPlan.scan?, if_neg hrun]

/-- A run of two units in a partition of one. -/
example : scan ⟨.utf8, .ofQuota 1 1, .ofQuota 1 1, true⟩ [0x61] ⟨0, 2⟩ = none := by decide

end

/-! ## Picking -/

def take (p : Picking) (hit : Hit) : Option Picking := do
  let bare ← sub hit.window p.nextWindow
  let owed := p.owed + bare
  let entries := hit.first :: p.entries
  let nextWindow := hit.window + 1
  match hit.backup with
  | none => return { entries, owed, nextWindow }
  | some backup =>
    if 0 < owed && backup != hit.first then
      let owed ← sub owed 1
      return { entries := backup :: entries, owed, nextWindow }
    else return { entries, owed, nextWindow }

def selectEntries (hits : List Hit) : Option (List Entry) := do
  let p ← (joinHits hits).foldlM take {}
  return p.entries.reverse

def merge (d : Draft) (quota : Nat) (reports : List Report) : Option (Placement × Draft) := do
  let (shifted, offsets) := shiftAll d.offsets reports
  let chars ← selectEntries (shifted.flatMap Report.chars)
  let lines ← selectEntries (shifted.flatMap Report.lines)
  let placement : Placement := { chars := addLast chars quota (lastCharOf shifted), lines }
  return (placement,
    { chars := d.chars.append placement.chars, lines := d.lines.append placement.lines, offsets })

theorem take_eq {p : Picking} {hit : Hit} (h : p.nextWindow ≤ hit.window) :
    take p hit = some (p.take hit) := by
  rw [take, sub_eq h, Option.bind_eq_bind, Option.bind_some, Picking.take]
  cases hit.backup with
  | none => rfl
  | some backup =>
    simp only
    split
    · next howed =>
      simp only [Bool.and_eq_true, decide_eq_true_eq] at howed
      rw [sub_eq howed.1]
      rfl
    · rfl

/-- Behind the last window there is none to go back to. -/
example : take { nextWindow := 3 } ⟨1, ⟨0, 0⟩, none⟩ = none := rfl

theorem foldlM_take {p : Picking} {hits : List Hit} (ho : hits.Pairwise (·.window < ·.window))
    (hp : ∀ hit ∈ hits, p.nextWindow ≤ hit.window) :
    hits.foldlM take p = some (hits.foldl Picking.take p) := by
  induction hits generalizing p with
  | nil => rfl
  | cons hit rest ih =>
    obtain ⟨hlt, ho⟩ := List.pairwise_cons.1 ho
    rw [List.foldlM_cons, take_eq (hp hit List.mem_cons_self), Option.bind_eq_bind,
      Option.bind_some, List.foldl_cons]
    refine ih ho ?_
    intro later hlater
    rw [Picking.take_nextWindow]
    exact hlt later hlater

/-- Joined hits that are what marks offer are on windows in ascending order. -/
theorem selectEntries_eq {g : Grid} (hg : g.Numbered) {marks : List Mark} {hits : List Hit}
    (hp : ∀ m ∈ marks, m.place < g.span) (ho : marks.Pairwise (·.place < ·.place))
    (h : joinHits hits = joinHits (g.hits marks)) :
    selectEntries hits = some (TextSeek.selectEntries hits) := by
  have hascend : (joinHits hits).Pairwise (·.window < ·.window) := by
    rw [h, Grid.joinHits_hits hg hp ho]
    exact g.hits_ascend marks
  rw [selectEntries, foldlM_take hascend fun _ _ => Nat.zero_le _]
  rfl

theorem merge_eq {p : Partition} {encoding : Encoding} {charQuota lineQuota : UInt64} {d : Draft}
    {reports : List Report}
    (h : (p.plan encoding charQuota lineQuota).Accounts 0 none p.units none d.offsets
      (shiftAll d.offsets reports)) (quota : Nat) :
    merge d quota reports = some (d.merge quota reports) := by
  rw [merge, Draft.merge]
  generalize shiftAll d.offsets reports = moved at h ⊢
  obtain ⟨shifted, offsets⟩ := moved
  have hchars := selectEntries_eq (Grid.ofQuota_numbered charQuota p.units.length)
    marks_place (Kind.marks_places ..) h.chars
  have hlines := selectEntries_eq (Grid.ofQuota_numbered lineQuota p.units.length)
    marks_place (Kind.marks_places ..) h.lines
  dsimp only at hchars hlines ⊢
  rw [hchars, Option.bind_eq_bind, Option.bind_some, hlines, Option.bind_some]
  rfl

end Checked
end TextSeek

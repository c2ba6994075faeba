import TextSeek.Index.Scan
import TextSeek.Proofs.Text.LineStarts

/-!
# The places that entries may point at

Characters and lines are found in one way: a unit is looked at with the one
before it to see whether an entry may point at it, and with the one behind it
to see how far it moves the count on. `Kind` keeps the two questions apart from
the walk, and `Kind.marks` lists all places of a text at which an entry may
point, with the entries.

Results:
* `marks_append`, `marks_shift`: the marks of a text cut in two, and of a text
  behind another one.
* `mem_marks`, `mem_marks_iff`: what an entry says about its place.
* `marks_ascend`: later marks have greater ordinals and greater positions.
* `mem_charMarks`, `mem_lineMarks`: the entries for characters and lines.
-/
namespace TextSeek

/-- What is counted in a text. -/
structure Kind where
  /-- An entry may point at a unit that stands behind another one. -/
  starts : Option UInt16 → UInt16 → Bool
  /-- How far a unit in front of another one moves the count on. -/
  counts : UInt16 → Option UInt16 → Nat

/-- Characters: a low surrogate is counted, but no entry points at it. -/
def Kind.char : Kind where
  starts _ unit := !CodeUnit.isLowSurrogate unit
  counts _ _ := 1

def Kind.line (atFront : Bool) : Kind where
  starts := startsLine atFront
  counts unit next := if endsLine unit next then 1 else 0

/-- In both respects one entry stands in front of another one. -/
def Entry.Before (a b : Entry) : Prop := a.ordinal < b.ordinal ∧ a.position < b.position

/-- A place that an entry may point at. -/
structure Mark where
  place : Nat
  entry : Entry

def Mark.shift (m : Mark) (places ordinals bytes : Nat) : Mark :=
  ⟨m.place + places, m.entry.shift ordinals bytes⟩

theorem Encoding.byteLength_pos (encoding : Encoding) {unit : UInt16}
    (h : CodeUnit.isLowSurrogate unit = false) : 0 < encoding.byteLength unit := by
  cases encoding <;> simp only [byteLength, h, Bool.false_eq_true, if_false]
  case utf8 => repeat' split
               all_goals omega
  case utf16le | utf16be => split <;> omega
  case latin1 | ascii => omega

namespace Kind

/-- How far the units in front of `after` move the count on. -/
def count (k : Kind) (units : List UInt16) (after : Option UInt16) : Nat :=
  match units with
  | [] => 0
  | unit :: rest => k.counts unit (rest.head?.or after) + k.count rest after

/-- The entry behind `units` when `here` is the one in front of them. -/
def pass (k : Kind) (encoding : Encoding) (here : Entry) (units : List UInt16)
    (after : Option UInt16) : Entry :=
  here.shift (k.count units after) (encoding.encodedLength units)

/-- All marks among units behind the unit `previous`; the first of them stands
at `place`, and an entry for it would be `here`. -/
def marks (k : Kind) (encoding : Encoding) (place : Nat) (here : Entry)
    (previous : Option UInt16) : List UInt16 → List Mark
  | [] => []
  | unit :: rest =>
    let behind := k.marks encoding (place + 1) (k.pass encoding here [unit] rest.head?)
      (some unit) rest
    if k.starts previous unit then ⟨place, here⟩ :: behind else behind

variable (k : Kind) (encoding : Encoding)

theorem count_append (a b : List UInt16) (after : Option UInt16) :
    k.count (a ++ b) after = k.count a (b.head?.or after) + k.count b after := by
  induction a with
  | nil => simp [count]
  | cons unit rest ih =>
    simp only [List.cons_append, count, ih, List.head?_append, Option.or_assoc, Nat.add_assoc]

@[simp] theorem count_char (units : List UInt16) (after : Option UInt16) :
    char.count units after = units.length := by
  induction units with
  | nil => rfl
  | cons unit rest ih => rw [count, ih, List.length_cons, char, Nat.add_comm]

@[simp] theorem count_line (atFront : Bool) (units : List UInt16) (after : Option UInt16) :
    (line atFront).count units after = lineEnds units after := by
  induction units with
  | nil => rfl
  | cons unit rest ih => rw [count, ih, lineEnds, line]

theorem pass_nil (here : Entry) (after : Option UInt16) :
    k.pass encoding here [] after = here := rfl

theorem pass_append (here : Entry) (a b : List UInt16) (after : Option UInt16) :
    k.pass encoding here (a ++ b) after =
      k.pass encoding (k.pass encoding here a (b.head?.or after)) b after := by
  simp only [pass, Entry.shift, count_append, Encoding.encodedLength_append, Nat.add_assoc]

theorem pass_shift (here : Entry) (units : List UInt16) (after : Option UInt16)
    (ordinals bytes : Nat) : k.pass encoding (here.shift ordinals bytes) units after =
      (k.pass encoding here units after).shift ordinals bytes := by
  simp only [pass, Entry.shift, Entry.mk.injEq]
  omega

/-! ## Texts behind one another -/

theorem marks_or (place : Nat) (here : Entry) (previous after : Option UInt16)
    (front rest : List UInt16) :
    k.marks encoding place (k.pass encoding here front (rest.head?.or after)) previous rest =
      k.marks encoding place (k.pass encoding here front rest.head?) previous rest := by
  cases rest <;> rfl

theorem marks_append (place : Nat) (here : Entry) (previous : Option UInt16)
    (a b : List UInt16) :
    k.marks encoding place here previous (a ++ b) =
      k.marks encoding place here previous a ++
        k.marks encoding (place + a.length) (k.pass encoding here a b.head?)
          (a.getLast?.or previous) b := by
  induction a generalizing place here previous with
  | nil => simp [marks, pass_nil]
  | cons unit rest ih =>
    have hpass : k.pass encoding (k.pass encoding here [unit] (rest.head?.or b.head?)) rest
        b.head? = k.pass encoding here (unit :: rest) b.head? :=
      (k.pass_append encoding here [unit] rest _).symm
    rw [List.cons_append, marks, marks, List.head?_append, ih, marks_or, hpass, getLast?_cons_or,
      List.length_cons, show place + 1 + rest.length = place + (rest.length + 1) by omega]
    split <;> rfl

theorem marks_shift (place : Nat) (here : Entry) (previous : Option UInt16) (units : List UInt16)
    (places ordinals bytes : Nat) :
    k.marks encoding (place + places) (here.shift ordinals bytes) previous units =
      (k.marks encoding place here previous units).map (·.shift places ordinals bytes) := by
  induction units generalizing place here previous with
  | nil => rfl
  | cons unit rest ih =>
    rw [marks, marks, pass_shift, show place + places + 1 = place + 1 + places by omega, ih]
    split <;> rfl

/-- The entries do not tell where the count of places begins. -/
theorem marks_entries (place : Nat) (here : Entry) (previous : Option UInt16)
    (units : List UInt16) : (k.marks encoding place here previous units).map Mark.entry =
      (k.marks encoding 0 here previous units).map Mark.entry := by
  have := k.marks_shift encoding 0 here previous units place 0 0
  rw [Nat.zero_add] at this
  rw [show here.shift 0 0 = here from rfl] at this
  rw [this, List.map_map]
  rfl

/-! ## What a mark says -/

variable {k encoding}

theorem mem_marks {place : Nat} {here : Entry} {previous : Option UInt16} {units : List UInt16}
    {m : Mark} (h : m ∈ k.marks encoding place here previous units) :
    ∃ front unit back, units = front ++ unit :: back ∧
      k.starts (front.getLast?.or previous) unit = true ∧
      m = ⟨place + front.length, k.pass encoding here front (some unit)⟩ := by
  induction units generalizing place here previous with
  | nil => cases h
  | cons unit rest ih =>
    have behind (h : m ∈ k.marks encoding (place + 1) (k.pass encoding here [unit] rest.head?)
        (some unit) rest) : ∃ front u back, unit :: rest = front ++ u :: back ∧
          k.starts (front.getLast?.or previous) u = true ∧
          m = ⟨place + front.length, k.pass encoding here front (some u)⟩ := by
      obtain ⟨front, u, back, rfl, hs, rfl⟩ := ih h
      refine ⟨unit :: front, u, back, rfl, ?_, ?_⟩
      · rw [getLast?_cons_or]; exact hs
      · rw [show unit :: front = [unit] ++ front from rfl, pass_append, List.length_append,
          List.length_singleton, Nat.add_assoc, List.head?_append]
        rfl
    rw [marks] at h
    split at h
    · next hs =>
      rcases List.mem_cons.1 h with rfl | h
      · exact ⟨[], unit, rest, rfl, hs, rfl⟩
      · exact behind h
    · exact behind h

/-- There is one mark for each unit that an entry may point at. -/
theorem mem_marks_iff {place : Nat} {here : Entry} {previous : Option UInt16}
    {units : List UInt16} {m : Mark} : m ∈ k.marks encoding place here previous units ↔
      ∃ i unit, units[i]? = some unit ∧
        k.starts ((units.take i).getLast?.or previous) unit = true ∧
        m = ⟨place + i, k.pass encoding here (units.take i) (some unit)⟩ := by
  constructor
  · intro h
    obtain ⟨front, unit, back, rfl, hs, rfl⟩ := mem_marks h
    exact ⟨front.length, unit, by simp, by rwa [List.take_left], by rw [List.take_left]⟩
  · rintro ⟨i, unit, hu, hs, rfl⟩
    have hi : i < units.length := (List.getElem?_eq_some_iff.1 hu).1
    have hsplit := take_append_cons_drop hu
    have hlen : (units.take i).length = i := List.length_take_of_le (Nat.le_of_lt hi)
    generalize units.take i = front at hsplit hs hlen ⊢
    rw [← hsplit, marks_append, marks, hlen, if_pos hs]
    exact List.mem_append_right _ List.mem_cons_self

theorem place_lt {place : Nat} {here : Entry} {previous : Option UInt16} {units : List UInt16}
    {m : Mark} (h : m ∈ k.marks encoding place here previous units) :
    place ≤ m.place ∧ m.place < place + units.length := by
  obtain ⟨front, unit, back, rfl, -, rfl⟩ := mem_marks h
  simp only [List.length_append, List.length_cons]
  omega

theorem marks_places (place : Nat) (here : Entry) (previous : Option UInt16)
    (units : List UInt16) :
    (k.marks encoding place here previous units).Pairwise (·.place < ·.place) := by
  induction units generalizing place here previous with
  | nil => exact .nil
  | cons unit rest ih =>
    rw [marks]
    split
    · exact .cons (fun m hm => (place_lt hm).1) (ih _ _ _)
    · exact ih _ _ _

/-! ## Order -/

/-- The units in front of a mark move the count on. -/
theorem count_pos (hk : ∀ previous unit, k.starts (some previous) unit = true →
      0 < k.counts previous (some unit)) (front : List UInt16) (previous : Option UInt16)
    (unit : UInt16) (hne : front ≠ []) (hs : k.starts (front.getLast?.or previous) unit = true) :
    0 < k.count front (some unit) := by
  have hl := List.getLast?_eq_some_getLast hne
  generalize front.getLast hne = last at hl
  obtain ⟨init, rfl⟩ := List.getLast?_eq_some_iff.1 hl
  rw [hl] at hs
  have := hk last unit hs
  rw [count_append, count, count]
  simp only [List.head?_nil, Option.none_or]
  omega

/-- Marks at units that are no low surrogates have ascending entries. -/
theorem marks_ascend (hk : ∀ previous unit, k.starts (some previous) unit = true →
      0 < k.counts previous (some unit)) {place : Nat} {here : Entry} {previous : Option UInt16}
    {units : List UInt16} (hl : ∀ front unit back, units = front ++ unit :: back →
      k.starts (front.getLast?.or previous) unit = true → CodeUnit.isLowSurrogate unit = false) :
    ((k.marks encoding place here previous units).map Mark.entry).Pairwise Entry.Before := by
  induction units generalizing place here previous with
  | nil => exact .nil
  | cons unit rest ih =>
    have hrest : ((k.marks encoding (place + 1) (k.pass encoding here [unit] rest.head?) (some unit)
        rest).map Mark.entry).Pairwise Entry.Before := by
      apply ih
      intro front u back hr hs
      refine hl (unit :: front) u back (by rw [hr]; rfl) ?_
      rw [getLast?_cons_or]
      exact hs
    rw [marks]
    split
    · next hs =>
      rw [List.map_cons]
      refine .cons ?_ hrest
      intro e he
      obtain ⟨m, hm, rfl⟩ := List.mem_map.1 he
      obtain ⟨front, u, back, rfl, hs', rfl⟩ := mem_marks hm
      have hbytes := encoding.byteLength_pos (hl [] unit _ rfl hs)
      have hcount := count_pos hk (unit :: front) previous u (by simp)
        (by rw [getLast?_cons_or]; exact hs')
      rw [show (front ++ u :: back).head? = front.head?.or (some u) by simp, ← pass_append]
      simp only [Entry.Before, pass, Entry.shift, List.singleton_append,
        Encoding.encodedLength_cons]
      omega
    · exact hrest

/-! ## Characters and lines -/

variable {place : Nat} {here : Entry} {previous : Option UInt16} {units : List UInt16}

theorem charMarks_ascend :
    ((char.marks encoding place here previous units).map Mark.entry).Pairwise Entry.Before :=
  marks_ascend (fun _ _ _ => Nat.one_pos) fun _ _ _ _ hs => by simpa [char] using hs

theorem lineMarks_ascend {atFront : Bool} (hp : Paired units) :
    (((line atFront).marks encoding place here previous units).map Mark.entry).Pairwise
      Entry.Before := by
  apply marks_ascend
  · intro p u hs
    rw [show (line atFront).starts (some p) u = endsLine p (some u) from rfl] at hs
    simp only [line, hs, if_true]
    exact Nat.one_pos
  · intro front unit back hu hs
    rw [hu] at hp
    apply hp.not_low
    intro last hlast
    rw [hlast] at hs
    have he : endsLine last (some unit) = true := hs
    exact endsLine_not_high he

theorem mem_charMarks {m : Mark} (h : m ∈ char.marks encoding place here previous units) :
    ∃ i unit, units[i]? = some unit ∧ CodeUnit.isLowSurrogate unit = false ∧
      m.entry = here.shift i (encoding.encodedLength (units.take i)) := by
  obtain ⟨front, unit, back, rfl, hs, rfl⟩ := mem_marks h
  refine ⟨front.length, unit, by simp, by simpa [char] using hs, ?_⟩
  simp only [pass, count_char, List.take_left]

theorem mem_lineMarks {m : Mark} (h : m ∈ (line true).marks encoding place here none units) :
    ∃ n i, (lineStarts units)[n]? = some i ∧
      m.entry = here.shift n (encoding.encodedLength (units.take i)) := by
  obtain ⟨front, unit, back, rfl, hs, rfl⟩ := mem_marks h
  rw [Option.or_none] at hs
  refine ⟨lineEnds front (some unit), front.length, lineStarts_of_start hs, ?_⟩
  simp only [pass, count_line, List.take_left]

/-- Behind a unit it does not matter how the lines of the text begin. -/
theorem lineMarks_atFront {atFront : Bool} (h : ∀ unit, units.head? = some unit →
      startsLine atFront none unit = startsLine true previous unit) :
    (line atFront).marks encoding place here none units =
      (line true).marks encoding place here previous units := by
  cases units with
  | nil => rfl
  | cons unit rest =>
    have hbehind (place : Nat) (here : Entry) (previous : UInt16) (units : List UInt16) :
        (line atFront).marks encoding place here (some previous) units =
          (line true).marks encoding place here (some previous) units := by
      induction units generalizing place here previous with
      | nil => rfl
      | cons unit rest ih =>
        rw [marks, marks, ih]
        rfl
    rw [marks, marks, hbehind]
    simp only [show (line atFront).starts none unit = (line true).starts previous unit from
      h unit rfl]
    rfl

end Kind
end TextSeek

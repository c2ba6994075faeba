import TextSeek.Proofs.Reader.Standing

/-!
# Skipping is stepping

Units are skipped by the bufferful: the units that are held are passed together, and their
bytes are added up at once. The reader comes out as if it had been asked for one unit after
the other (`nextUnits`), with the same error if one of these calls fails.

Lines are skipped unit by unit, with a look behind each carriage return. A count of lines may
be split anywhere: no part of the count ends between a carriage return and its line feed. Where
the first part ends with the input, the second asks once more and is told the same, since the
end of the input does not go away (`nextUnit_again`).

All of this holds for any reader: of a stream that brings its bytes in any pieces and may
fail, in front of bytes that decode or do not, and with any units held.

Results:
* `skipUnitsFrom_eq`: skipping against stepping.
* `skipLinesFrom_add`, `skipLinesFrom_found`: counts of lines add up.
* `skipping_is_stepping`: both, for the calls of a reader.
-/
namespace TextSeek

/-! ## The end of the input -/

/-- A call that has handed out nothing, and did not fail, would do so again. -/
theorem Decoder.fill_again {d : Decoder} {room : Nat} (hu : (d.fill room).units = [])
    (hf : (d.fill room).failure = none) :
    (d.fill room).decoder.fill room = d.fill room := by
  suffices ∀ found, (d.fillLoop room found).units = [] →
      (d.fillLoop room found).failure = none →
      (d.fillLoop room found).decoder.fillLoop room [] = d.fillLoop room found from
    this [] hu hf
  clear hu hf
  intro found hu hf
  fun_induction fillLoop d room found with
  | case1 d found =>
    rw [List.reverse_eq_nil_iff] at hu
    subst hu
    rw [fillLoop, if_pos rfl]
  | case2 d room found hr unit width hd ih =>
    exact absurd hu (fillLoop_units_ne_nil _ _ _ (by simp))
  | case3 d room found hr high low width hd h2 =>
    rw [List.reverse_eq_nil_iff] at hu
    subst hu
    rw [fillLoop, if_neg hr, hd]
    exact if_pos h2
  | case4 d room found hr high low width hd h2 ih =>
    exact absurd hu (fillLoop_units_ne_nil _ _ _ (by simp))
  | case5 => cases hf
  | case6 d room found hr hd next hrefill he =>
    rw [List.reverse_eq_nil_iff] at hu
    subst hu
    exact fill_of_finished (by simp [isFinished, (refill_none hrefill).1, he]) room
  | case7 d room found hr hd next hrefill he =>
    rw [stuck, List.reverse_eq_nil_iff] at hu
    subst hu
    cases hf
  | case8 d room found hr hd next hrefill ih => exact ih hu hf
  | case9 d room found hr hd =>
    rw [stuck, List.reverse_eq_nil_iff] at hu
    subst hu
    cases hf

namespace TextReader

variable {r next : TextReader}

/-- A reader that holds no units, after it has looked for them. -/
theorem ensureUnits_again {found : Bool} (h : r.ensureUnits = (.ok found, next))
    (hp : next.pending = []) : next.ensureUnits = (.ok found, next) := by
  by_cases hr : r.pending = []
  · rw [ensureUnits, if_pos (by simp [hr])] at h
    simp only at h
    split at h
    · cases h
    next hf =>
      cases h
      have hagain := Decoder.fill_again hp hf
      rw [ensureUnits, if_pos (by simpa using hp)]
      simp only [hagain, hf]
  · rw [ensureUnits_of_pending hr] at h
    cases h
    exact absurd hp hr

theorem nextUnit_of_ensureUnits {found : Bool} (h : r.ensureUnits = (.ok found, next)) :
    r.nextUnit = next.nextUnit := by
  have hnext : ∃ more, next.ensureUnits = (.ok more, next) := by
    by_cases hp : next.pending = []
    · exact ⟨found, ensureUnits_again h hp⟩
    · exact ⟨true, ensureUnits_of_pending hp⟩
  obtain ⟨more, hmore⟩ := hnext
  simp only [nextUnit, h, hmore]

theorem nextUnit_of_no_pending {found : Bool} (h : r.ensureUnits = (.ok found, next))
    (hp : next.pending = []) : r.nextUnit = (.ok none, next) := by
  simp only [nextUnit, h, hp]

theorem nextUnit_of_failed {error : AccessError} (h : r.ensureUnits = (.error error, next)) :
    r.nextUnit = (.error error, next) := by
  simp only [nextUnit, h]

/-- Once the input has ended it stays so, and nothing changes. -/
theorem nextUnit_again (h : r.nextUnit = (.ok none, next)) :
    next.nextUnit = (.ok none, next) := by
  cases hensure : r.ensureUnits with
  | mk outcome ahead =>
    cases outcome with
    | error error =>
      rw [nextUnit_of_failed hensure] at h
      cases h
    | ok found =>
      have hahead := nextUnit_of_ensureUnits hensure
      cases hp : ahead.pending with
      | nil =>
        rw [nextUnit_of_no_pending hensure hp] at h
        cases h
        rw [← hahead, nextUnit_of_no_pending hensure hp]
      | cons unit rest =>
        rw [hahead, nextUnit_of_pending hp] at h
        cases h

/-! ## Units -/

/-- Units taken one at a time. -/
structure Stepped where
  units : List UInt16
  /-- What cut the calls short, if it is an error. -/
  failure : Option AccessError
  /-- The reader afterwards. -/
  reader : TextReader

def Stepped.behind (front : List UInt16) (s : Stepped) : Stepped :=
  { s with units := front ++ s.units }

/-- Asks for `count` units, one call for each; stops at the end of the input, and at the first
call that fails. -/
def nextUnits (r : TextReader) : Nat → Stepped
  | 0 => ⟨[], none, r⟩
  | count + 1 =>
    match r.nextUnit with
    | (.error error, next) => ⟨[], some error, next⟩
    | (.ok none, next) => ⟨[], none, next⟩
    | (.ok (some unit), next) => (next.nextUnits count).behind [unit]

def Stepped.counted (s : Stepped) (before : Nat) : Except AccessError Nat × TextReader :=
  match s.failure with
  | some error => (.error error, s.reader)
  | none => (.ok (before + s.units.length), s.reader)

theorem Stepped.counted_behind (s : Stepped) (front : List UInt16) (before : Nat) :
    (s.behind front).counted before = s.counted (before + front.length) := by
  simp only [counted, behind, List.length_append, Nat.add_assoc]

theorem nextUnits_of_failed {error : AccessError} {count : Nat} (hc : count ≠ 0)
    (h : r.nextUnit = (.error error, next)) : r.nextUnits count = ⟨[], some error, next⟩ := by
  obtain ⟨count, rfl⟩ := Nat.exists_eq_succ_of_ne_zero hc
  simp only [nextUnits, h]

theorem nextUnits_of_none {count : Nat} (hc : count ≠ 0) (h : r.nextUnit = (.ok none, next)) :
    r.nextUnits count = ⟨[], none, next⟩ := by
  obtain ⟨count, rfl⟩ := Nat.exists_eq_succ_of_ne_zero hc
  simp only [nextUnits, h]

theorem nextUnits_of_pending {front back : List UInt16} (hp : r.pending = front ++ back)
    (count : Nat) : r.nextUnits (front.length + count) =
      ({ r with
        pending := back
        position := r.position + r.encoding.encodedLength front }.nextUnits count).behind
          front := by
  induction front generalizing r with
  | nil =>
    obtain ⟨decoder, chunk, position, pending, undelivered⟩ := r
    obtain rfl : pending = back := hp
    rw [List.length_nil, Nat.zero_add, Encoding.encodedLength_nil]
    rfl
  | cons unit front ih =>
    rw [List.length_cons, Nat.add_right_comm, nextUnits, nextUnit_of_pending hp]
    simp only
    rw [ih rfl, Encoding.encodedLength_cons, ← Nat.add_assoc]
    rfl

/-- It does not show in what is taken that the next units were decoded first. -/
theorem nextUnits_of_ensureUnits {found : Bool} (h : r.ensureUnits = (.ok found, next))
    {count : Nat} (hc : count ≠ 0) : r.nextUnits count = next.nextUnits count := by
  obtain ⟨count, rfl⟩ := Nat.exists_eq_succ_of_ne_zero hc
  rw [nextUnits, nextUnits, nextUnit_of_ensureUnits h]

/-- Skipping `wanted` more units is asking for them one at a time. -/
theorem skipUnitsFrom_eq (r : TextReader) (wanted skipped : Nat) :
    r.skipUnitsFrom wanted skipped = (r.nextUnits wanted).counted skipped := by
  fun_induction skipUnitsFrom r wanted skipped with
  | case1 r skipped => rfl
  | case2 r wanted skipped hw error next he =>
    rw [nextUnits_of_failed hw (nextUnit_of_failed he)]
    rfl
  | case3 r wanted skipped hw found next he hp =>
    rw [nextUnits_of_none hw (nextUnit_of_no_pending he hp)]
    rfl
  | case4 r wanted skipped hw found next he hp taken passed =>
    rename_i ih
    have hlength : passed.length = taken := by
      rw [List.length_take]
      omega
    have hwanted : wanted = passed.length + (wanted - taken) := by omega
    rw [ih, nextUnits_of_ensureUnits he hw, hwanted,
      nextUnits_of_pending (List.take_append_drop taken next.pending).symm,
      Stepped.counted_behind, hlength, Nat.add_sub_cancel_left]

/-! ## Lines -/

/-- A count of lines that is skipped in two parts. -/
theorem skipLinesFrom_add (r : TextReader) (a b found : Nat) :
    r.skipLinesFrom (a + b) found =
      match r.skipLinesFrom a found with
      | (.error error, next) => (.error error, next)
      | (.ok passed, next) => next.skipLinesFrom b passed := by
  fun_induction skipLinesFrom r a found with
  | case1 r found => rw [Nat.zero_add]
  | case2 r a found ha error next hn =>
    rw [skipLinesFrom_of_ne (by omega), hn]
  | case3 r a found ha next hn =>
    rw [skipLinesFrom_of_ne (by omega), hn]
    simp only
    by_cases hb : b = 0
    · rw [hb, skipLinesFrom, if_pos rfl]
    · rw [skipLinesFrom_of_ne hb, nextUnit_again hn]
  | case4 r a found ha unit next hn hfeed ih =>
    rw [skipLinesFrom_of_ne (by omega), hn]
    simp only [hfeed, if_true]
    rw [Nat.sub_add_comm (Nat.pos_of_ne_zero ha)]
    exact ih
  | case5 r a found ha unit next hn hfeed hreturn error last hf =>
    rw [skipLinesFrom_of_ne (by omega), hn]
    simp only [hfeed, hreturn, hf, if_true, if_false, Bool.false_eq_true]
  | case6 r a found ha unit next hn hfeed hreturn both last hf ih =>
    rw [skipLinesFrom_of_ne (by omega), hn]
    simp only [hfeed, hreturn, hf, if_true, if_false, Bool.false_eq_true]
    rw [Nat.sub_add_comm (Nat.pos_of_ne_zero ha)]
    exact ih
  | case7 r a found ha unit next hn hfeed hreturn ih =>
    rw [skipLinesFrom_of_ne (by omega), hn]
    simp only [hfeed, hreturn, if_false, Bool.false_eq_true]
    exact ih

theorem skipLinesFrom_found (r : TextReader) (wanted found before : Nat) :
    r.skipLinesFrom wanted (before + found) =
      ((r.skipLinesFrom wanted found).1.map (before + ·), (r.skipLinesFrom wanted found).2) := by
  fun_induction skipLinesFrom r wanted found with
  | case1 r found =>
    rw [skipLinesFrom, if_pos rfl]
    rfl
  | case2 r wanted found hw error next hn =>
    rw [skipLinesFrom_of_ne hw, hn]
    rfl
  | case3 r wanted found hw next hn =>
    rw [skipLinesFrom_of_ne hw, hn]
    rfl
  | case4 r wanted found hw unit next hn hfeed ih =>
    rw [skipLinesFrom_of_ne hw, hn]
    simp only [hfeed, if_true]
    exact ih
  | case5 r wanted found hw unit next hn hfeed hreturn error last hf =>
    rw [skipLinesFrom_of_ne hw, hn]
    simp only [hfeed, hreturn, hf, if_true, if_false, Bool.false_eq_true]
    rfl
  | case6 r wanted found hw unit next hn hfeed hreturn both last hf ih =>
    rw [skipLinesFrom_of_ne hw, hn]
    simp only [hfeed, hreturn, hf, if_true, if_false, Bool.false_eq_true]
    exact ih
  | case7 r wanted found hw unit next hn hfeed hreturn ih =>
    rw [skipLinesFrom_of_ne hw, hn]
    simp only [hfeed, hreturn, if_false, Bool.false_eq_true]
    exact ih

/-! ## The calls of a reader -/

/-- Whatever a reader stands in front of, and whatever its stream brings. To skip units is to
ask for as many one at a time, up to the end of the input or the first call that fails: the
reader is the same afterwards, the call fails if one of these does, and with its error, and
otherwise it counts the units obtained. And lines may be skipped in two parts: if the first
call succeeds, the second ends as one call for both would, with both counts added up; if it
fails, so does the one call, and leaves the same reader. -/
theorem skipping_is_stepping (r : TextReader) :
    (∀ count, r.skipUnits count =
      match r.nextUnits count with
      | ⟨_, some error, next⟩ => (.error error, next)
      | ⟨units, none, next⟩ => (.ok units.length, next)) ∧
    ∀ a b, r.skipLines (a + b) =
      match r.skipLines a with
      | (.error error, next) => (.error error, next)
      | (.ok found, next) =>
        match next.skipLines b with
        | (.error error, last) => (.error error, last)
        | (.ok more, last) => (.ok (found + more), last) := by
  constructor
  · intro count
    rw [skipUnits, skipUnitsFrom_eq, Stepped.counted]
    obtain ⟨units, failure, next⟩ := r.nextUnits count
    cases failure with
    | some error => rfl
    | none => simp only [Nat.zero_add]
  · intro a b
    simp only [skipLines]
    rw [skipLinesFrom_add]
    obtain ⟨outcome, next⟩ := r.skipLinesFrom a 0
    cases outcome with
    | error error => rfl
    | ok found =>
      simp only
      rw [← Nat.add_zero found, skipLinesFrom_found]
      obtain ⟨outcome, last⟩ := next.skipLinesFrom b 0
      cases outcome with
      | error error => rfl
      | ok more => rfl

end TextReader
end TextSeek

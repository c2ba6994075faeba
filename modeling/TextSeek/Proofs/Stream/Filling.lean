import TextSeek.Proofs.Text.Characters
import TextSeek.Stream.Decoder

/-!
# What a decoder hands out

Between two calls a decoder stands at some place of the text: the bytes it has
read and not decoded, and behind them those that the stream still holds
(`Decoder.rest`). A call hands out characters from the front of that text and
moves on behind them, whatever the reads bring (`Decoder.Gives`).

On a stream that at worst interrupts its reads (`Steady`), a call ends early
only where no further character can be decoded, or in front of a pair that
there is no room for.

Results:
* `fill_gives`: the units of a call are the next units of the text, no more
  than there is room for, and the position moves by the bytes that they take.
* `fill_steady`, `fill_failure`, `fill_finished`, `fill_short`: how a call on a
  steady stream ends.
-/
namespace TextSeek

/-! ## Steady streams -/

/-- From now on reads are interrupted at worst. -/
def ByteStream.Steady (s : ByteStream) : Prop :=
  ∀ k, s.calls ≤ k → s.faults.lookup k = none ∨ s.faults.lookup k = some .interrupted

namespace ByteStream

theorem Steady.read {s next : ByteStream} {space : Nat} {outcome : ReadOutcome} (hs : s.Steady)
    (h : s.read space = (outcome, next)) : next.Steady := by
  have hn : next.calls = s.calls + 1 ∧ next.faults = s.faults := by
    unfold ByteStream.read at h
    split at h <;> cases h <;> exact ⟨rfl, rfl⟩
  intro k hk
  rw [hn.2]
  exact hs k (by omega)

theorem reach_pos (s : ByteStream) {space : Nat} (h : 0 < space) : 0 < s.reach space := by
  unfold reach
  split
  · exact h
  · omega

/-- A read of a steady stream brings bytes if there is space and any are left. -/
theorem Steady.read_cases {s next : ByteStream} {space : Nat} {outcome : ReadOutcome}
    (hs : s.Steady) (hsp : 0 < space) (h : s.read space = (outcome, next)) :
    outcome = .interrupted ∨ ∃ piece, outcome = .bytes piece ∧ (piece = [] → s.rest = []) := by
  unfold ByteStream.read at h
  split at h
  · cases h; exact .inl rfl
  · next hl => rcases hs _ (Nat.le_refl _) with h' | h' <;> rw [h'] at hl <;> cases hl
  · next hl => rcases hs _ (Nat.le_refl _) with h' | h' <;> rw [h'] at hl <;> cases hl
  · cases h
    refine .inr ⟨_, rfl, ?_⟩
    intro hp
    have hr := s.reach_pos hsp
    rcases List.take_eq_nil_iff.1 hp with h0 | h0
    · omega
    · exact h0

theorem readThrough_steady {s : ByteStream} (hs : s.Steady) (space : Nat) (hsp : 0 < space) :
    ∃ piece next, s.readThrough space = (.ok piece, next) ∧ next.Steady ∧
      (piece = [] → s.rest = []) := by
  fun_induction readThrough s space with
  | case1 s piece next hr =>
    rcases hs.read_cases hsp hr with h | ⟨p, h, hp⟩
    · cases h
    · cases h; exact ⟨_, _, rfl, hs.read hr, hp⟩
  | case2 s next hr ih =>
    have := (read_rest_of_not_bytes hr (by simp)).1
    rw [← this]
    exact ih (hs.read hr)
  | case3 s error next hr =>
    rcases hs.read_cases hsp hr with h | ⟨p, h, -⟩ <;> cases h

end ByteStream

namespace Decoder

def rest (d : Decoder) : List UInt8 := d.raw ++ d.stream.rest

/-- The decoder `next` stands behind `units`, which come first in front of
`d`. -/
structure Gives (d : Decoder) (units : List UInt16) (next : Decoder) : Prop where
  encoding_eq : next.encoding = d.encoding
  capacity_eq : next.capacity = d.capacity
  text_eq : d.encoding.decodeAll d.rest = (d.encoding.decodeAll next.rest).prepend units
    (d.encoding.encodedLength units)
  position_eq : next.position = d.position + d.encoding.encodedLength units
  paired : Paired units

theorem Gives.refl (d : Decoder) : d.Gives [] d :=
  ⟨rfl, rfl, (WholeText.prepend_nil _).symm, rfl, .nil⟩

theorem Gives.trans {a b c : Decoder} {u v : List UInt16} (h : a.Gives u b) (h' : b.Gives v c) :
    a.Gives (u ++ v) c where
  encoding_eq := h'.encoding_eq.trans h.encoding_eq
  capacity_eq := h'.capacity_eq.trans h.capacity_eq
  text_eq := by
    have := h'.text_eq
    rw [h.encoding_eq] at this
    rw [h.text_eq, this, WholeText.prepend_prepend, Encoding.encodedLength_append]
  position_eq := by
    rw [h'.position_eq, h.position_eq, h.encoding_eq, Encoding.encodedLength_append, Nat.add_assoc]
  paired := h.paired.append h'.paired

theorem Gives.width_eq {d next : Decoder} {units : List UInt16} (h : d.Gives units next) :
    next.position - d.position = d.encoding.encodedLength units := by
  rw [h.position_eq, Nat.add_sub_cancel_left]

theorem advance_gives {d : Decoder} {found : Decoded} (h : d.encoding.decode d.raw = found)
    (hu : found.units ≠ []) : d.Gives found.units (d.advance found.width) where
  encoding_eq := rfl
  capacity_eq := rfl
  text_eq := by
    have hl := d.encoding.decode_encodedLength d.raw
    rw [h] at hl
    rw [hl, rest, Encoding.decodeAll_append h hu]
    rfl
  position_eq := by
    have hl := d.encoding.decode_encodedLength d.raw
    rw [h] at hl
    rw [hl]
    rfl
  paired := by
    rw [← h]
    exact (d.encoding.decode_regular d.raw).paired

/-- Reading changes neither the place nor the text behind it. -/
theorem refill_gives {d next : Decoder} {outcome : Except IoError Bool}
    (h : d.refill = (outcome, next)) : d.Gives [] next := by
  suffices hs : next.encoding = d.encoding ∧ next.capacity = d.capacity ∧ next.rest = d.rest ∧
      next.position = d.position by
    obtain ⟨h1, h2, h3, h4⟩ := hs
    exact ⟨h1, h2, by rw [h3]; exact (WholeText.prepend_nil _).symm, h4, .nil⟩
  unfold refill at h
  split at h
  · cases h; exact ⟨rfl, rfl, rfl, rfl⟩
  · split at h
    · next hr =>
      cases h
      exact ⟨rfl, rfl, by simp only [rest, (ByteStream.readThrough_error hr).1], rfl⟩
    · next hr =>
      cases h
      have := (ByteStream.readThrough_bytes hr).1
      rw [List.nil_append] at this
      exact ⟨rfl, rfl, by simp only [rest, this], rfl⟩
    · next hr =>
      cases h
      exact ⟨rfl, rfl, by simp only [rest, (ByteStream.readThrough_bytes hr).1,
        List.append_assoc], rfl⟩

theorem fillLoop_gives (d : Decoder) (room : Nat) (found : List UInt16) :
    ∃ more, (d.fillLoop room found).units = found.reverse ++ more ∧ more.length ≤ room ∧
      d.Gives more (d.fillLoop room found).decoder := by
  fun_induction fillLoop d room found with
  | case1 d found => exact ⟨[], by simp, by simp, .refl d⟩
  | case2 d room found hr unit width hd ih =>
    obtain ⟨more, hu, hl, hg⟩ := ih
    refine ⟨unit :: more, by simpa using hu, ?_, ?_⟩
    · rw [List.length_cons]
      omega
    · exact (advance_gives hd (by simp [Decoded.units])).trans hg
  | case3 d room found hr high low width hd h2 => exact ⟨[], by simp, by simp, .refl d⟩
  | case4 d room found hr high low width hd h2 ih =>
    obtain ⟨more, hu, hl, hg⟩ := ih
    refine ⟨high :: low :: more, by simpa using hu, ?_,
      (advance_gives hd (by simp [Decoded.units])).trans hg⟩
    rw [List.length_cons, List.length_cons]; omega
  | case5 d room found hr hd error next hf => exact ⟨[], by simp, by simp, refill_gives hf⟩
  | case6 d room found hr hd next hf he => exact ⟨[], by simp, by simp, refill_gives hf⟩
  | case7 d room found hr hd next hf he => exact ⟨[], by simp [stuck], by simp, refill_gives hf⟩
  | case8 d room found hr hd next hf ih =>
    obtain ⟨more, hu, hl, hg⟩ := ih
    exact ⟨more, hu, hl, (refill_gives hf).trans hg⟩
  | case9 d room found hr hd => exact ⟨[], by simp [stuck], by simp, .refl d⟩

/-- A call hands out the next units of the text. -/
theorem fill_gives (d : Decoder) (room : Nat) :
    (d.fill room).units.length ≤ room ∧ d.Gives (d.fill room).units (d.fill room).decoder := by
  obtain ⟨more, hu, hl, hg⟩ := fillLoop_gives d room []
  rw [fill, hu]
  exact ⟨hl, hg⟩

/-! ## Steady decoders -/

/-- The stream is steady, a character fits into the buffer, and the input has
ended only if nothing is left of it but the front of a character. -/
structure Steady (d : Decoder) : Prop where
  stream : d.stream.Steady
  roomy : minCapacity ≤ d.capacity
  ended : d.ended = true → d.stream.rest = [] ∧ d.encoding.decode d.raw = .incomplete

theorem start_steady {stream : ByteStream} (h : stream.Steady) (encoding : Encoding)
    (position buffer : Nat) : (start stream encoding position buffer).Steady :=
  ⟨h, Nat.le_max_right _ _, fun h => nomatch h⟩

theorem Steady.advance {d : Decoder} (hs : d.Steady) (h : d.encoding.decode d.raw ≠ .incomplete)
    (width : Nat) : (d.advance width).Steady :=
  ⟨hs.stream, hs.roomy, fun he => absurd (hs.ended he).2 h⟩

/-- On a steady stream a refill brings bytes, or marks the true end. -/
theorem Steady.refill {d next : Decoder} {outcome : Except IoError Bool} (hs : d.Steady)
    (hd : d.encoding.decode d.raw = .incomplete) (h : d.refill = (outcome, next)) :
    next.Steady ∧ (outcome = .ok true ∨ outcome = .ok false ∧ next.ended = true ∧
      next.encoding.decode next.raw = .incomplete) := by
  have hlen := Encoding.length_lt_of_incomplete hd
  have hroom := hs.roomy
  unfold minCapacity at hroom
  unfold Decoder.refill at h
  split at h
  · next he => cases h; exact ⟨hs, .inr ⟨rfl, he, hd⟩⟩
  · next he =>
    obtain ⟨piece, stream, hr, hst, hp⟩ :=
      ByteStream.readThrough_steady hs.stream (d.capacity - d.raw.length) (by omega)
    simp only [hr] at h
    cases piece with
    | nil =>
      cases h
      have hrest := (ByteStream.readThrough_bytes hr).1
      rw [hp rfl] at hrest
      exact ⟨⟨hst, hs.roomy, fun _ => ⟨by simpa using hrest.symm, hd⟩⟩, .inr ⟨rfl, rfl, hd⟩⟩
    | cons b piece =>
      cases h
      exact ⟨⟨hst, hs.roomy, fun h => absurd h he⟩, .inl rfl⟩

/-- No further character can be decoded, and bytes are left. -/
def Stuck (d : Decoder) : Prop :=
  ∃ ending, ending ≠ .complete ∧ d.encoding.decodeAll d.rest = ⟨[], 0, ending⟩

theorem Steady.stuck_of_incomplete {d : Decoder} (hs : d.Steady) (he : d.ended = true)
    (hr : d.raw ≠ []) : d.Stuck := by
  refine ⟨.cutOff, by simp, ?_⟩
  rw [rest, (hs.ended he).1, List.append_nil]
  exact Encoding.decodeAll_incomplete (hs.ended he).2 hr

theorem stuck_of_malformed {d : Decoder} (h : d.encoding.decode d.raw = .malformed) : d.Stuck :=
  ⟨.malformed, by simp, Encoding.decodeAll_malformed h _⟩

end Decoder

/-- Why a call that may hand out `most` units ends. -/
inductive Filled.Stop (f : Filled) (most : Nat) : Prop where
  /-- There is no room left. -/
  | full (hf : f.failure = none) (hl : f.units.length = most)
  /-- There is room for one unit, and a pair comes next. -/
  | pair (hf : f.failure = none) (high low : UInt16) (text : List UInt16)
    (hh : CodeUnit.isHighSurrogate high = true)
    (ht : (f.decoder.encoding.decodeAll f.decoder.rest).units = high :: low :: text)
  /-- The text is at its end. -/
  | done (hf : f.failure = none) (hr : f.decoder.rest = [])
  /-- What comes next does not decode; that is an error if it comes first. -/
  | stuck (hs : f.decoder.Stuck)
    (hf : f.failure = if f.units = [] then
      some (.malformed f.decoder.encoding f.decoder.position) else none)

namespace Decoder

theorem stuck_stop {d : Decoder} (h : d.Stuck) (found : List UInt16) (most : Nat) :
    (d.stuck found).Stop most := by
  refine .stuck h ?_
  cases found <;> simp [stuck]

/-- A call on a steady stream leaves it steady, and ends for one of four
reasons. -/
theorem fillLoop_stop {d : Decoder} (hs : d.Steady) (room : Nat) (found : List UInt16) :
    (d.fillLoop room found).decoder.Steady ∧
      (d.fillLoop room found).Stop (found.length + room) := by
  fun_induction fillLoop d room found with
  | case1 d found => exact ⟨hs, .full rfl (by simp)⟩
  | case2 d room found hr unit width hd ih =>
    have hroom : found.length + 1 + (room - 1) = found.length + room := by omega
    have := ih (hs.advance (by rw [hd]; simp) width)
    rwa [List.length_cons, hroom] at this
  | case3 d room found hr high low width hd h2 =>
    refine ⟨hs, .pair rfl high low
      (d.encoding.decodeAll (d.raw.drop width ++ d.stream.rest)).units ?_ ?_⟩
    · have := d.encoding.decode_regular d.raw
      rw [hd] at this
      exact this.1
    · simp only [rest]
      rw [Encoding.decodeAll_append hd (by simp [Decoded.units])]
      rfl
  | case4 d room found hr high low width hd h2 ih =>
    have := ih (hs.advance (by rw [hd]; simp) width)
    rwa [List.length_cons, List.length_cons,
      show found.length + 1 + 1 + (room - 2) = found.length + room by omega] at this
  | case5 d room found hr hd error next hf =>
    rcases hs.refill hd hf with ⟨-, h | ⟨h, -⟩⟩ <;> cases h
  | case6 d room found hr hd next hf he =>
    rcases hs.refill hd hf with ⟨hn, h | ⟨-, h, -⟩⟩
    · cases h
    · exact ⟨hn, .done rfl (by simp [rest, (hn.ended h).1, List.isEmpty_iff.1 he])⟩
  | case7 d room found hr hd next hf he =>
    rcases hs.refill hd hf with ⟨hn, h | ⟨-, h, -⟩⟩
    · cases h
    · exact ⟨hn, stuck_stop (hn.stuck_of_incomplete h (by simpa using he)) found _⟩
  | case8 d room found hr hd next hf ih => exact ih (hs.refill hd hf).1
  | case9 d room found hr hd => exact ⟨hs, stuck_stop (stuck_of_malformed hd) found _⟩

theorem fill_steady {d : Decoder} (hs : d.Steady) (room : Nat) : (d.fill room).decoder.Steady :=
  (fillLoop_stop hs room []).1

theorem fill_stop {d : Decoder} (hs : d.Steady) (room : Nat) : (d.fill room).Stop room := by
  simpa [fill] using (fillLoop_stop hs room []).2

/-! ## The outcome of a call -/

/-- A call on a steady stream fails in front of input that does not decode, and
only there. -/
theorem fill_failure {d : Decoder} (hs : d.Steady) (room : Nat) (error : AccessError)
    (h : (d.fill room).failure = some error) :
    d.Stuck ∧ error = .malformed d.encoding d.position ∧ (d.fill room).units = [] := by
  have hg := (fill_gives d room).2
  cases fill_stop hs room with
  | full hf | pair hf | done hf => rw [hf] at h; cases h
  | stuck hst hf =>
    by_cases hu : (d.fill room).units = []
    · rw [if_pos hu] at hf
      rw [hf] at h
      cases h
      obtain ⟨ending, he, ht⟩ := hst
      rw [hu] at hg
      have htext := hg.text_eq
      rw [hg.encoding_eq] at ht
      rw [ht] at htext
      refine ⟨⟨ending, he, htext⟩, ?_, hu⟩
      rw [hg.encoding_eq, hg.position_eq]
      rfl
    · rw [if_neg hu] at hf
      rw [hf] at h
      cases h

theorem rest_of_finished {d : Decoder} (hs : d.Steady) (h : d.isFinished = true) : d.rest = [] := by
  simp only [isFinished, Bool.and_eq_true, List.isEmpty_iff] at h
  simp [rest, (hs.ended h.1).1, h.2]

/-- What is handed out on the way to the end is all that was left. -/
theorem Gives.text_of_finished {d next : Decoder} {units : List UInt16} (hg : d.Gives units next)
    (hs : next.Steady) (h : next.isFinished = true) :
    d.encoding.decodeAll d.rest = ⟨units, d.encoding.encodedLength units, .complete⟩ := by
  rw [hg.text_eq, rest_of_finished hs h, Encoding.decodeAll_nil]
  simp [WholeText.prepend]

/-- A call for two units or more that hands out nothing and does not fail has
come to the end of the text. -/
theorem fill_finished {d : Decoder} {room : Nat} (h2 : 2 ≤ room)
    (hf : (d.fill room).failure = none) (hu : (d.fill room).units = []) :
    (d.fill room).decoder.isFinished = true := by
  rcases fill_progress d h2 with h | h | h
  · exact absurd hu h
  · exact absurd hf h
  · exact h

/-- Such a call finds that nothing is left. -/
theorem text_of_nothing {d : Decoder} (hs : d.Steady) {room : Nat} (h2 : 2 ≤ room)
    (hf : (d.fill room).failure = none) (hu : (d.fill room).units = []) :
    d.encoding.decodeAll d.rest = ⟨[], 0, .complete⟩ := by
  have ht := (d.fill_gives room).2.text_of_finished (fill_steady hs room) (fill_finished h2 hf hu)
  rw [ht, hu]
  rfl

/-- A call that leaves room stops in front of a pair or at the end of what
decodes. -/
theorem fill_short {d : Decoder} (hs : d.Steady) {room : Nat}
    (hl : (d.fill room).units.length < room) {unit : UInt16}
    (hu : (d.encoding.decodeAll (d.fill room).decoder.rest).units.head? = some unit) :
    CodeUnit.isHighSurrogate unit = true := by
  have hg := (fill_gives d room).2
  rw [← hg.encoding_eq] at hu
  cases fill_stop hs room with
  | full _ h => omega
  | pair _ high low text hh ht => rw [ht] at hu; cases hu; exact hh
  | done _ hr => rw [hr, Encoding.decodeAll_nil] at hu; cases hu
  | stuck hst _ => obtain ⟨ending, -, ht⟩ := hst; rw [ht] at hu; cases hu

end Decoder
end TextSeek

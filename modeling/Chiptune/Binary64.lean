import Chiptune.Power

/-! Floating-point numbers as exact fractions.  A finite number is `mantissa * 2 ^ exponent` with a
sign; rounding a quotient of natural numbers to such a number goes to the nearest one, and of two
equally near to the one with an even mantissa. -/

namespace Chiptune

/-- How a quotient that lies halfway between two whole numbers is rounded. -/
inductive Tie where
  /-- Away from zero. -/
  | up
  /-- To the even one of the two. -/
  | even
  deriving DecidableEq, Repr

/-- The whole number nearest to `num / den`. -/
def roundDiv (tie : Tie) (num den : Nat) : Nat :=
  let quotient := num / den
  let twice := 2 * (num % den)
  if twice < den then quotient
  else if den < twice then quotient + 1
  else
    match tie with
    | .up => quotient + 1
    | .even => if quotient % 2 = 0 then quotient else quotient + 1

/-- The rounded quotient is at most half a unit away from the quotient. -/
theorem roundDiv_bounds (tie : Tie) (num : Nat) {den : Nat} (h : 0 < den) :
    2 * num ≤ 2 * (roundDiv tie num den * den) + den ∧
      2 * (roundDiv tie num den * den) ≤ 2 * num + den := by
  have hdiv := Nat.div_add_mod' num den
  have hmod := Nat.mod_lt num h
  have hnext : (num / den + 1) * den = num / den * den + den := Nat.succ_mul _ _
  unfold roundDiv
  cases tie <;> grind

/-- A quotient that is a whole number is left as it is. -/
theorem roundDiv_mul_self (tie : Tie) (quotient : Nat) {den : Nat} (h : 0 < den) :
    roundDiv tie (quotient * den) den = quotient := by
  unfold roundDiv
  simp [Nat.mul_div_cancel _ h, h]

/-- The quotient rounded up. -/
def ceilDiv (num den : Nat) : Nat := (num + den - 1) / den

/-- The quotient rounded up is the least whole number that is not below the quotient. -/
theorem ceilDiv_le_iff (num : Nat) {den : Nat} (h : 0 < den) (k : Nat) :
    ceilDiv num den ≤ k ↔ num ≤ k * den := by
  unfold ceilDiv
  rw [Nat.div_le_iff_le_mul h]
  omega

/-- The value of a floating-point number of 64 bits. -/
inductive Binary64 where
  | notANumber
  | infinite (negative : Bool)
  /-- The number `mantissa * 2 ^ exponent`, or its negative. -/
  | finite (negative : Bool) (mantissa : Nat) (exponent : Int)
  deriving DecidableEq, Repr

namespace Binary64

/-- The value of `x`, read off its sign bit, its eleven bits of exponent and its 52 bits of
fraction. -/
def ofFloat (x : Float) : Binary64 :=
  let bits := x.toBits.toNat
  let negative := bits.testBit 63
  let biased : Nat := bits / twoTo 52 % 2048
  let fraction : Nat := bits % twoTo 52
  if biased = 2047 then if fraction = 0 then infinite negative else notANumber
  else if biased = 0 then finite negative fraction (-1074)
  else finite negative (twoTo 52 + fraction) ((biased : Int) - 1075)

/-- The whole number nearest to a finite number, with halves rounded away from zero, kept between
`lo` and `hi`; zero if there is no number. -/
def round (lo hi : Int) : Binary64 → Int
  | notANumber => 0
  | infinite negative => if negative then lo else hi
  | finite negative mantissa exponent =>
    let magnitude := roundDiv .up (mantissa * twoTo exponent.toNat) (twoTo (-exponent).toNat)
    max lo (min hi (if negative then -magnitude else magnitude))

/-- The quotient `num / den` of positive numbers, rounded to 53 significant bits, is
`mantissa / 2 ^ shift`; the quotient is at least one. -/
def ratio (num den : Nat) : Nat × Nat :=
  let shift := 52 - Nat.log2 (num / den)
  let mantissa := roundDiv .even (num * twoTo shift) den
  (mantissa, shift)

end Binary64

end Chiptune

import Chiptune.Binary64

/-! The shortest decimal numbers.  All numbers between the halfway points to the two neighbours of a
floating-point number are read back as that number, the halfway points themselves if its mantissa is
even.  The shortest of them has the fewest digits, and among those with as few it is the nearest. -/

namespace Chiptune

/-- The decimal number `coefficient * 10 ^ exponent`. -/
structure Decimal where
  coefficient : Nat
  exponent : Int
  deriving DecidableEq, Repr

namespace Decimal

/-- The number of decimal digits of a natural number. -/
def digitCount (n : Nat) : Nat := (Nat.toDigits 10 n).length

/-- The exponent of the leading digit. -/
def leading (d : Decimal) : Int := d.exponent + (digitCount d.coefficient : Int) - 1

/-- Takes out up to `n` trailing zeros. -/
def trim : Nat → Decimal → Decimal
  | 0, d => d
  | n + 1, d =>
    if d.coefficient % 10 = 0 then trim n ⟨d.coefficient / 10, d.exponent + 1⟩ else d

/-- A fraction of natural numbers. -/
structure Ratio where
  num : Nat
  den : Nat

namespace Ratio

/-- The fraction `n * 2 ^ exponent`. -/
def scaled (n : Nat) (exponent : Int) : Ratio := ⟨n * twoTo exponent.toNat, twoTo (-exponent).toNat⟩

/-- The exponent of the leading decimal digit of a positive fraction. -/
def leading (r : Ratio) : Int :=
  if r.den ≤ r.num then (digitCount (r.num / r.den) : Int) - 1
  else -(digitCount (ceilDiv r.den r.num - 1) : Int)

/-- The fraction divided by `10 ^ exponent`. -/
def inTens (r : Ratio) (exponent : Int) : Ratio :=
  ⟨r.num * tenTo (-exponent).toNat, r.den * tenTo exponent.toNat⟩

/-- Whether the fraction is less than another, or not more than it if `closed`. -/
def isBelow (r s : Ratio) (closed : Bool) : Bool :=
  if closed then r.num * s.den ≤ s.num * r.den else r.num * s.den < s.num * r.den

end Ratio

/-- The numbers that are read back as `mantissa * 2 ^ exponent`, with that number itself. -/
structure Interval where
  lower : Ratio
  value : Ratio
  upper : Ratio
  closed : Bool

/-- The interval of a positive floating-point number.  Below a power of two the neighbours are twice
as close. -/
def Interval.around (mantissa : Nat) (exponent : Int) : Interval :=
  let below := if mantissa = twoTo 52 ∧ -1074 < exponent then 1 else 2
  { lower := .scaled (4 * mantissa - below) (exponent - 2)
    value := .scaled mantissa exponent
    upper := .scaled (4 * mantissa + 2) (exponent - 2)
    closed := mantissa % 2 = 0 }

/-- Whether a decimal number lies in an interval. -/
def Interval.holds (interval : Interval) (d : Decimal) : Bool :=
  let r : Ratio := ⟨d.coefficient * tenTo d.exponent.toNat, tenTo (-d.exponent).toNat⟩
  interval.lower.isBelow r interval.closed && r.isBelow interval.upper interval.closed

/-- The multiple of `10 ^ exponent` in an interval that is nearest to its value, if there is one. -/
def Interval.nearest? (interval : Interval) (tie : Tie) (exponent : Int) : Option Decimal :=
  let scaled := interval.value.inTens exponent
  let below : Decimal := ⟨scaled.num / scaled.den, exponent⟩
  let above : Decimal := ⟨scaled.num / scaled.den + 1, exponent⟩
  let below? := if interval.holds below && 0 < below.coefficient then some below else none
  let above? := if interval.holds above then some above else none
  match below?, above? with
  | some _, some _ => some ⟨roundDiv tie scaled.num scaled.den, exponent⟩
  | some d, none => some d
  | none, d => d

/-- The most digits that a shortest decimal number has. -/
def maxDigits : Nat := 17

/-- The shortest decimal number for a positive floating-point number.  Of two equally near ones, `tie`
takes the upper or the one with an even last digit. -/
def shortest (tie : Tie) (mantissa : Nat) (exponent : Int) : Decimal :=
  let interval := Interval.around mantissa exponent
  let leading := interval.value.leading
  let found := (List.range maxDigits).findSome? fun n : Nat =>
    interval.nearest? tie (leading - n)
  trim maxDigits (found.getD ⟨interval.value.num / interval.value.den, 0⟩)

end Decimal

end Chiptune

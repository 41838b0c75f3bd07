import Chiptune.Power

/-! Numbers as a JSON text writes them.  A lexeme keeps its digits; what they are worth is a question
of the kind of number that is wanted. -/

namespace Chiptune.Json

/-- The value of a decimal digit. -/
def digitValue (c : Char) : Nat := c.toNat - '0'.toNat

/-- The value of a row of decimal digits. -/
def digitsValue (digits : List Char) : Nat :=
  digits.foldl (fun value c => value * 10 + digitValue c) 0

/-- A number as it is written: a sign, the digits before the point, those after it and the
exponent, which is negative or not and has digits of its own. -/
structure Number where
  negative : Bool := false
  whole : List Char
  fraction : List Char := []
  exponent : Option (Bool × List Char) := none
  deriving DecidableEq, Repr

namespace Number

/-- The whole number `n`. -/
def ofNat (n : Nat) : Number := { whole := Nat.toDigits 10 n }

/-- Splits off the digits at the front, of which there must be one at least. -/
def digits? (chars : List Char) : Option (List Char × List Char) :=
  let digits := chars.takeWhile Char.isDigit
  if digits = [] then none else some (digits, chars.dropWhile Char.isDigit)

/-- Reads the exponent, up to the end. -/
def exponent? : List Char → Option (Option (Bool × List Char))
  | [] => some none
  | mark :: rest =>
    if mark = 'e' ∨ mark = 'E' then
      let (negative, rest) :=
        match rest with
        | '-' :: rest => (true, rest)
        | '+' :: rest => (false, rest)
        | rest => (false, rest)
      match digits? rest with
      | some (digits, []) => some (some (negative, digits))
      | _ => none
    else none

/-- Reads a number.  A point must stand between digits, and a number of more than one digit before
the point must not start with zero. -/
def ofChars? (chars : List Char) : Option Number := do
  let (negative, chars) :=
    match chars with
    | '-' :: rest => (true, rest)
    | chars => (false, chars)
  let (whole, rest) ← digits? chars
  if whole.length ≠ 1 ∧ whole.head? = some '0' then none
  match rest with
  | '.' :: rest =>
    let (fraction, rest) ← digits? rest
    return { negative, whole, fraction, exponent := ← exponent? rest }
  | rest => return { negative, whole, exponent := ← exponent? rest }

/-- Whether a character may stand in a number. -/
def isPart (c : Char) : Bool := c.isDigit || c ∈ ['-', '+', '.', 'e', 'E']

/-- The number as it is written. -/
def chars (number : Number) : List Char :=
  (if number.negative then ['-'] else []) ++ number.whole ++
    (if number.fraction = [] then [] else '.' :: number.fraction) ++
    match number.exponent with
    | none => []
    | some (negative, digits) => 'e' :: (if negative then '-' :: digits else digits)

/-- The value of a number without sign, point and exponent. -/
def toNat? (number : Number) : Option Nat :=
  if number.negative ∨ number.fraction ≠ [] ∨ number.exponent.isSome then none
  else some (digitsValue number.whole)

/-! ### Floating point

A number is read as a coefficient of 64 bits and a power of ten, and the two are put together by one
multiplication or division of floating-point numbers.  The result is often, but not always, the
nearest one. -/

/-- A coefficient of 64 bits and the power of ten by which it is scaled.  A coefficient is full once
a digit did not fit any more. -/
structure Scaled where
  coefficient : Nat := 0
  power : Int := 0
  full : Bool := false

namespace Scaled

/-- Whether another digit fits. -/
def fits (scaled : Scaled) (digit : Nat) : Bool :=
  !scaled.full && scaled.coefficient * 10 + digit < twoTo 64

/-- Takes a digit before the point.  One that does not fit counts as a zero. -/
def addWhole (scaled : Scaled) (c : Char) : Scaled :=
  if scaled.fits (digitValue c) then
    { scaled with coefficient := scaled.coefficient * 10 + digitValue c }
  else { scaled with power := scaled.power + 1, full := true }

/-- Takes a digit after the point.  From the first one that does not fit they are dropped. -/
def addFraction (scaled : Scaled) (c : Char) : Scaled :=
  if scaled.fits (digitValue c) then
    { scaled with
      coefficient := scaled.coefficient * 10 + digitValue c
      power := scaled.power - 1 }
  else { scaled with full := true }

end Scaled

/-- The coefficient of a number and its power of ten. -/
def scaled (number : Number) : Scaled :=
  let whole := number.whole.foldl Scaled.addWhole {}
  let all := number.fraction.foldl Scaled.addFraction { whole with full := false }
  match number.exponent with
  | none => all
  | some (true, digits) => { all with power := all.power - digitsValue digits }
  | some (false, digits) => { all with power := all.power + digitsValue digits }

/-- The largest power of ten that is a floating-point number. -/
def maxPower : Nat := 308

/-- The floating-point number nearest to `10 ^ power`. -/
def powerOfTen (power : Nat) : Float := Float.ofScientific 1 false power

/-- Divides `x` by `10 ^ power`, in several steps where the power is too large for one. -/
def divide (x : Float) (power : Nat) : Float :=
  if power ≤ maxPower then x / powerOfTen power
  else if x == 0 then x
  else divide (x / powerOfTen maxPower) (power - maxPower)
  termination_by power
  decreasing_by simp only [maxPower] at *; omega

/-- Multiplies `x` by `10 ^ power`.  There is no result beyond the largest number. -/
def multiply? (x : Float) (power : Nat) : Option Float :=
  if power ≤ maxPower then
    let product := x * powerOfTen power
    if product.isInf then none else some product
  else if x == 0 then some x
  else none

/-- The floating-point number that is read for a number. -/
def toFloat? (number : Number) : Option Float := do
  let scaled := number.scaled
  let x := scaled.coefficient.toUInt64.toFloat
  let magnitude ←
    if 0 ≤ scaled.power then multiply? x scaled.power.toNat
    else some (divide x (-scaled.power).toNat)
  return if number.negative then -magnitude else magnitude

end Number

end Chiptune.Json

import Chiptune.Decimal.Shortest

/-! How a decimal number is laid out as text. -/

namespace Chiptune.Decimal

/-- The decisions of a number format. -/
structure Layout where
  /-- The least exponent of the leading digit that is written without an exponent. -/
  least : Option Int
  /-- The greatest exponent of the leading digit that is written without an exponent. -/
  greatest : Option Int
  /-- Whether a whole number written without an exponent ends in a point and a zero. -/
  pointZero : Bool
  /-- Whether a positive exponent has a sign. -/
  plusSign : Bool
  /-- Which of two equally near shortest numbers is written. -/
  tie : Tie
  /-- What is written for no number, for infinity and for its negative. -/
  notANumber : String
  infinity : String
  negativeInfinity : String

namespace Layout

/-- Whether a number with this exponent of its leading digit is written without an exponent. -/
def isPlain (layout : Layout) (leading : Int) : Bool :=
  layout.least.all (· ≤ leading) && layout.greatest.all (leading ≤ ·)

/-- A number without an exponent. -/
def plain (layout : Layout) (d : Decimal) : String :=
  let digits := Nat.toDigits 10 d.coefficient
  let point := d.leading + 1
  if 0 ≤ d.exponent then
    String.ofList (digits ++ List.replicate d.exponent.toNat '0') ++
      if layout.pointZero then ".0" else ""
  else if 0 < point then
    String.ofList (digits.take point.toNat ++ '.' :: digits.drop point.toNat)
  else String.ofList ('0' :: '.' :: List.replicate (-point).toNat '0' ++ digits)

/-- A number with an exponent: a point follows its first digit, unless that is the only one. -/
def scientific (layout : Layout) (d : Decimal) : String :=
  let mantissa :=
    match Nat.toDigits 10 d.coefficient with
    | first :: second :: rest => first :: '.' :: second :: rest
    | digits => digits
  let sign := if d.leading < 0 then "-" else if layout.plusSign then "+" else ""
  String.ofList mantissa ++ "e" ++ sign ++ toString d.leading.natAbs

/-- The text of a positive decimal number. -/
def decimal (layout : Layout) (d : Decimal) : String :=
  if layout.isPlain d.leading then layout.plain d else layout.scientific d

/-- The text of zero. -/
def zero (layout : Layout) : String := if layout.pointZero then "0.0" else "0"

/-- The text of a floating-point number. -/
def text (layout : Layout) (x : Float) : String :=
  match Binary64.ofFloat x with
  | .notANumber => layout.notANumber
  | .infinite negative => if negative then layout.negativeInfinity else layout.infinity
  | .finite negative mantissa exponent =>
    let magnitude :=
      if mantissa = 0 then layout.zero else layout.decimal (shortest layout.tie mantissa exponent)
    if negative then "-" ++ magnitude else magnitude

end Layout

/-! ### Fixed places -/

/-- A floating-point number rounded to `places` digits after the point.  Its exact value counts, and a
half goes to the even neighbour. -/
def fixed (places : Nat) (x : Float) : String :=
  match Binary64.ofFloat x with
  | .notANumber => "NaN"
  | .infinite negative => if negative then "-inf" else "inf"
  | .finite negative mantissa exponent =>
    let value := Ratio.scaled mantissa exponent
    let rounded := roundDiv .even (value.num * tenTo places) value.den
    let digits := Nat.toDigits 10 (rounded % tenTo places)
    let tail := String.ofList (List.replicate (places - digits.length) '0' ++ digits)
    (if negative then "-" else "") ++ toString (rounded / tenTo places) ++ "." ++ tail

end Chiptune.Decimal

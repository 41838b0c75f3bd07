import Chiptune.Binary64

/-! From the levels of a channel to the units of the output. -/

namespace Chiptune

/-- How the steps of a channel are scaled: a level has `range` units, and each of them is worth
`unit` units of the output. -/
structure Scale where
  range : Nat
  unit : Int := 0
  deriving DecidableEq, Repr

namespace Scale

/-- The output of a full step at volume one. -/
def fullScale : Nat := 32768

/-- A silent scale for levels of `range` units, and of one unit at least. -/
def create (range : Int) : Scale := { range := max range.natAbs 1 }

/-- The bound of the numbers of 32 bits. -/
def limit : Nat := twoTo 31

/-- Makes each unit of the level worth `share` of full scale, rounded to a whole number of 32
bits. -/
def setShare (scale : Scale) (share : Float) : Scale :=
  { scale with
    unit := (Binary64.ofFloat (share * fullScale.toFloat)).round (-limit) (limit - 1) }

/-- Makes a step over the whole range worth `volume` of full scale. -/
def setVolume (scale : Scale) (volume : Float) : Scale :=
  scale.setShare (volume / scale.range.toFloat)

/-- A step of the level in units of the output. -/
def apply (scale : Scale) (delta : Int) : Int := delta * scale.unit

end Scale

end Chiptune

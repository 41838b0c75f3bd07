import Chiptune.Voice

/-! The triangle channel: a wave of 32 phases that runs only while both its length and its linear
counter last. -/

namespace Chiptune

/-- The triangle channel.  `phase` counts down through the wave and starts over at its top. -/
structure Triangle where
  voice : Voice := {}
  phase : BitVec 5 := 0
  linear : Nat := 0
  deriving DecidableEq, Repr

namespace Triangle

/-- The level at a phase: 15 down to 0 over the first half and back up to 15 over the second. -/
def levelAt (phase : BitVec 5) : Int :=
  if phase < 16 then 15 - phase.toNat else phase.toNat - 16

/-- The clocks from one phase to the next. -/
def timerPeriod (triangle : Triangle) : Nat := triangle.voice.period + 1

/-- The phase is held while a counter is at zero, and at the two shortest periods, which are beyond
hearing. -/
def isHeld (triangle : Triangle) : Bool :=
  triangle.voice.length = 0 || triangle.linear = 0 || triangle.timerPeriod < 3

/-- Runs from `time` to `stop` and records the steps of the level.  A held triangle waits for its
next event from `stop` on. -/
def run (triangle : Triangle) (time stop : Int) (steps : Array Step) : Triangle × Array Step :=
  let (voice, steps) := triangle.voice.moveTo (levelAt triangle.phase) time steps
  if triangle.isHeld then
    ({ triangle with voice := { voice with delay := 0 } }, steps)
  else
    let period : Int := triangle.timerPeriod
    let first := time + voice.delay
    let events := Timer.count period first stop
    let (phase, steps) := Timer.play (· - 1) levelAt period events first triangle.phase steps
    let delay := first + events * period - stop
    ({ triangle with voice := { voice with delay, level := levelAt phase }, phase }, steps)

/-- A quarter-frame clock of the linear counter.  It takes the low seven bits of the first register
after a write to the fourth and else counts down; the mark of that write lasts as long as bit 7 of
the first register is set. -/
def clockLinear (triangle : Triangle) : Triangle :=
  let voice := triangle.voice
  let linear :=
    if voice.pending.fourth then voice.registers.first.toNat % 128 else triangle.linear - 1
  let pending :=
    if Voice.bit voice.registers.first 7 then voice.pending else voice.pending.set .fourth false
  { triangle with linear, voice := { voice with pending } }

/-- A half-frame clock of the length. -/
def clockLength (triangle : Triangle) : Triangle :=
  { triangle with voice := triangle.voice.clockLength 0x80 }

/-- Takes the level of the current phase as already put out, so that it makes no step. -/
def settle (triangle : Triangle) : Triangle :=
  { triangle with voice := { triangle.voice with level := levelAt triangle.phase } }

/-- Puts linear counter, phase and timer back to their start.  The registers stay. -/
def reset (triangle : Triangle) : Triangle :=
  { triangle with linear := 0, phase := 0, voice := triangle.voice.reset }

end Triangle

end Chiptune

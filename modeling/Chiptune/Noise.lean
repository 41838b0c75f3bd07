import Chiptune.Envelope

/-! The noise channel: a feedback register of fifteen bits whose lowest bit is heard.  The register
moves on at the same times whether it is heard or not. -/

namespace Chiptune

/-- The noise channel. -/
structure Noise where
  voice : Voice := {}
  envelope : Envelope := {}
  feedback : BitVec 15 := 0x4000
  deriving DecidableEq, Repr

namespace Noise

/-- The clocks between two shifts for each value of the low four bits of the third register. -/
def timerPeriods : Array Nat :=
  #[4, 8, 16, 32, 64, 96, 128, 160, 202, 254, 380, 508, 762, 1016, 2034, 4068]

/-- The clocks from one shift to the next. -/
def timerPeriod (noise : Noise) : Nat :=
  timerPeriods.getD (noise.voice.registers.third.toNat % 16) 4

/-- Whether the short sequence is selected. -/
def isShort (noise : Noise) : Bool := Voice.bit noise.voice.registers.third 7

/-- The bit that is added to bit 0: bit 1, or bit 6 in the short sequence. -/
def tapBit (short : Bool) : Nat := if short then 6 else 1

/-- Shifts the register right by one.  The new top bit is the sum of bit 0 and of the tapped bit. -/
def shift (short : Bool) (register : BitVec 15) : BitVec 15 :=
  ((register ^^^ (register >>> tapBit short)) <<< 14) ||| (register >>> 1)

/-- The volume of a set bit. -/
def volume (noise : Noise) : Nat := noise.envelope.volume noise.voice

/-- The level while the register holds `register`. -/
def levelAt (noise : Noise) (register : BitVec 15) : Int :=
  if register.getLsbD 0 then noise.volume else 0

/-- Runs from `time` to `stop` and records the steps of the level. -/
def run (noise : Noise) (time stop : Int) (steps : Array Step) : Noise × Array Step :=
  let (voice, steps) := noise.voice.moveTo (noise.levelAt noise.feedback) time steps
  let period : Int := noise.timerPeriod
  let first := time + voice.delay
  let events := Timer.count period first stop
  let delay := first + events * period - stop
  if noise.volume = 0 then
    let feedback := Timer.skip (shift noise.isShort) events noise.feedback
    ({ noise with voice := { voice with delay }, feedback }, steps)
  else
    let (feedback, steps) :=
      Timer.play (shift noise.isShort) noise.levelAt period events first noise.feedback steps
    ({ noise with voice := { voice with delay, level := noise.levelAt feedback }, feedback }, steps)

/-- A quarter-frame clock of the envelope. -/
def clockEnvelope (noise : Noise) : Noise :=
  let (envelope, voice) := noise.envelope.clock noise.voice
  { noise with envelope, voice }

/-- A half-frame clock of the length. -/
def clockLength (noise : Noise) : Noise :=
  { noise with voice := noise.voice.clockLength 0x20 }

/-- Puts register, envelope and timer back to their start.  The channel's own registers stay. -/
def reset (noise : Noise) : Noise :=
  { noise with feedback := 0x4000, envelope := {}, voice := noise.voice.reset }

end Noise

end Chiptune

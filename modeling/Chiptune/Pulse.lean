import Chiptune.Envelope

/-! The pulse channels: a square wave of eight phases with four duties, a volume envelope and a sweep
that moves the period.  A silent pulse keeps its phase exactly as if it were heard. -/

namespace Chiptune

/-- How a pulse subtracts the sweep offset.  The first pulse adds the ones' complement, so it falls
one further than the second, which adds the two's complement. -/
inductive Negation where
  | onesComplement
  | twosComplement
  deriving DecidableEq, Repr

namespace Negation

/-- The negative of `offset`. -/
def apply : Negation → Int → Int
  | onesComplement, offset => -1 - offset
  | twosComplement, offset => -offset

end Negation

/-- A pulse channel.  `phase` is the position in the duty sequence and `sweepDelay` counts the half
frames until the sweep moves the period. -/
structure Pulse where
  negation : Negation
  voice : Voice := {}
  envelope : Envelope := {}
  phase : BitVec 3 := 0
  sweepDelay : Int := 0
  deriving DecidableEq, Repr

namespace Pulse

/-! ### The wave -/

/-- The clocks from one phase to the next. -/
def timerPeriod (pulse : Pulse) : Nat := (pulse.voice.period + 1) * 2

/-- The volume of the high part of the wave. -/
def volume (pulse : Pulse) : Nat := pulse.envelope.volume pulse.voice

/-- Whether a duty holds the wave high at a phase.  Duties 0 to 2 are high in the first one, two or
four phases, and duty 3 is duty 1 upside down. -/
def isHigh (duty : Nat) (phase : BitVec 3) : Bool :=
  match duty with
  | 0 => phase < 1
  | 1 => phase < 2
  | 2 => phase < 4
  | _ => !(phase < 2)

/-- The duty: the two high bits of the first register. -/
def duty (pulse : Pulse) : Nat := pulse.voice.registers.first.toNat / 64

/-- The distance by which an upward sweep would move the period, and zero for a downward one. -/
def upwardOffset (pulse : Pulse) : Nat :=
  if Voice.bit pulse.voice.registers.second 3 then 0
  else pulse.voice.period >>> (pulse.voice.registers.second.toNat % 8)

/-- A pulse is silent at volume zero, at a period below 8, and where an upward sweep would leave the
eleven bits of the period. -/
def isSilent (pulse : Pulse) : Bool :=
  pulse.volume = 0 || pulse.voice.period < 8 || pulse.voice.period + pulse.upwardOffset ≥ 0x800

/-- The level of an audible pulse at a phase. -/
def levelAt (pulse : Pulse) (phase : BitVec 3) : Int :=
  if isHigh pulse.duty phase then pulse.volume else 0

/-! ### Running -/

/-- Runs from `time` to `stop` and records the steps of the level. -/
def run (pulse : Pulse) (time stop : Int) (steps : Array Step) : Pulse × Array Step :=
  let period : Int := pulse.timerPeriod
  let first := time + pulse.voice.delay
  let events := Timer.count period first stop
  let delay := first + events * period - stop
  if pulse.isSilent then
    let (voice, steps) := pulse.voice.moveTo 0 time steps
    ({ pulse with voice := { voice with delay }, phase := pulse.phase + BitVec.ofNat 3 events }, steps)
  else
    let (voice, steps) := pulse.voice.moveTo (pulse.levelAt pulse.phase) time steps
    let (phase, steps) :=
      Timer.play (· + 1) pulse.levelAt period events first pulse.phase steps
    ({ pulse with voice := { voice with delay, level := pulse.levelAt phase }, phase }, steps)

/-! ### Clocks and resets -/

/-- Starts the duty sequence over: the next event is its first phase. -/
def restart (pulse : Pulse) : Pulse := { pulse with phase := 7 }

/-- A quarter-frame clock of the envelope. -/
def clockEnvelope (pulse : Pulse) : Pulse :=
  let (envelope, voice) := pulse.envelope.clock pulse.voice
  { pulse with envelope, voice }

/-- A half-frame clock of the length. -/
def clockLength (pulse : Pulse) : Pulse :=
  { pulse with voice := pulse.voice.clockLength 0x20 }

/-- The period to which the sweep register moves the pulse.  There is none if the sweep is off, its
shift is zero, the period is below 8 or the new period would not fit eleven bits. -/
def sweepTarget? (pulse : Pulse) : Option Nat :=
  let sweep := pulse.voice.registers.second
  let period := pulse.voice.period
  let shift := sweep.toNat % 8
  if shift ≠ 0 ∧ Voice.bit sweep 7 ∧ 8 ≤ period then
    let distance : Int := (period >>> shift : Nat)
    let target := period + if Voice.bit sweep 3 then pulse.negation.apply distance else distance
    if target < 0x800 then some target.toNat else none
  else none

/-- Puts the low eleven bits of `period` into the period registers and leaves all else as it is. -/
def setPeriod (pulse : Pulse) (period : Nat) : Pulse :=
  let registers := pulse.voice.registers
  let high := registers.fourth.toNat / 8 * 8 + period / 256 % 8
  { pulse with
    voice := { pulse.voice with
      registers := { registers with third := .ofNat period, fourth := .ofNat high } } }

/-- A half-frame clock of the sweep.  Where its delay runs out it moves the period; then, and also
after a write to the sweep register, the delay is taken from that register again. -/
def clockSweep (pulse : Pulse) : Pulse :=
  let sweep := pulse.voice.registers.second
  let expired := pulse.sweepDelay - 1 < 0
  let moved :=
    if expired then
      match pulse.sweepTarget? with
      | some period => pulse.setPeriod period
      | none => pulse
    else pulse
  if expired ∨ pulse.voice.pending.second then
    { moved with
      voice := { moved.voice with pending := moved.voice.pending.set .second false }
      sweepDelay := (sweep.toNat / 16 % 8 : Nat) }
  else { moved with sweepDelay := pulse.sweepDelay - 1 }

/-- Puts sweep, phase, envelope and timer back to their start.  The registers stay. -/
def reset (pulse : Pulse) : Pulse :=
  { pulse with sweepDelay := 0, phase := 0, envelope := {}, voice := pulse.voice.reset }

end Pulse

end Chiptune

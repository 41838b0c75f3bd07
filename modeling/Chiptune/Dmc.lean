import Chiptune.Bus
import Chiptune.Region
import Chiptune.Voice

/-! The delta modulation channel.  It plays a sample from memory one bit at a time: each bit moves a
seven-bit level up or down by two.  The next byte waits in a buffer of one byte, which is filled from
the bus as soon as it is empty.  The channel predicts its interrupt and its fetches in closed form. -/

namespace Chiptune

/-- The delta modulation channel.  The length of its voice counts the bytes still to be fetched.
`address` is the offset of the next byte above `$8000`, `buffer` the byte that waits, `shifter` the
bits being played and `bitsLeft` how many of them follow the next one.  `stall` counts the processor
cycles taken by fetches and not yet collected. -/
structure Dmc where
  region : Region
  voice : Voice := {}
  rate : BitVec 4 := 0
  address : BitVec 15 := 0
  buffer : Option UInt8 := none
  shifter : UInt8 := 0
  bitsLeft : BitVec 3 := 0
  silent : Bool := true
  dac : BitVec 7 := 0
  enabled : Bool := false
  irqEnabled : Bool := false
  irqFlag : Bool := false
  nextIrq : Option Int := none
  stall : UInt32 := 0
  deriving DecidableEq, Repr

namespace Dmc

/-! ### Tables -/

/-- The clocks from one bit to the next, for each rate on an NTSC console. -/
def ntscPeriods : Array Nat :=
  #[0x1AC, 0x17C, 0x154, 0x140, 0x11E, 0x0FE, 0x0E2, 0x0D6, 0x0BE, 0x0A0, 0x08E, 0x080, 0x06A,
    0x054, 0x048, 0x036]

/-- The clocks from one bit to the next, for each rate on a PAL console. -/
def palPeriods : Array Nat :=
  #[0x18E, 0x161, 0x13C, 0x129, 0x10A, 0x0EC, 0x0D2, 0x0C7, 0x0B1, 0x095, 0x084, 0x077, 0x062,
    0x04E, 0x043, 0x032]

/-- The clocks from one bit to the next. -/
def bitPeriod (region : Region) (rate : BitVec 4) : Nat :=
  match region with
  | .ntsc => ntscPeriods.getD rate.toNat 0x1AC
  | .pal => palPeriods.getD rate.toNat 0x18E

/-- The combined output of the chip at each level of the channel, relative to a linear output. -/
def curve : Array Nat :=
  #[0, 1, 2, 3, 4, 5, 6, 7, 7, 8, 9, 10, 11, 12, 13, 14, 15, 15, 16, 17, 18, 19, 20, 20, 21, 22,
    23, 24, 24, 25, 26, 27, 27, 28, 29, 30, 31, 31, 32, 33, 33, 34, 35, 36, 36, 37, 38, 38, 39, 40,
    41, 41, 42, 43, 43, 44, 45, 45, 46, 47, 47, 48, 48, 49, 50, 50, 51, 52, 52, 53, 53, 54, 55, 55,
    56, 56, 57, 58, 58, 59, 59, 60, 60, 61, 61, 62, 63, 63, 64, 64, 65, 65, 66, 66, 67, 67, 68, 68,
    69, 70, 70, 71, 71, 72, 72, 73, 73, 74, 74, 75, 75, 75, 76, 76, 77, 77, 78, 78, 79, 79, 80, 80,
    81, 81, 82, 82, 82, 83]

/-- The curve at a level. -/
def response (dac : BitVec 7) : Int := (curve.getD dac.toNat 0 : Nat)

/-- The processor cycles that one fetch takes. -/
def fetchStall : UInt32 := 4

/-- The clocks from one bit to the next at the rate of the channel. -/
def period (dmc : Dmc) : Nat := bitPeriod dmc.region dmc.rate

/-! ### Fetching -/

/-- Whether the sample starts again after its last byte. -/
def loops (dmc : Dmc) : Bool := Voice.bit dmc.voice.registers.first 6

/-- Takes start address and length of the sample from the third and fourth register. -/
def rewind (dmc : Dmc) : Dmc :=
  { dmc with
    address := 0x4000 + BitVec.ofNat 15 (dmc.voice.registers.third.toNat * 0x40)
    voice := { dmc.voice with length := dmc.voice.registers.fourth.toNat * 0x10 + 1 } }

/-- Fills an empty buffer from the bus while bytes of the sample are left.  After the last byte the
sample starts again, or else the channel is disabled and, if it may, raises its interrupt. -/
def fill (dmc : Dmc) (bus : Bus) : Dmc × Bus :=
  if dmc.buffer.isSome ∨ dmc.voice.length = 0 then (dmc, bus)
  else
    let (byte, bus) := bus.read (0x8000 ||| UInt16.ofNat dmc.address.toNat)
    let fetched := { dmc with
      buffer := some byte
      address := dmc.address + 1
      stall := dmc.stall + fetchStall
      voice := { dmc.voice with length := dmc.voice.length - 1 } }
    if fetched.voice.length ≠ 0 then (fetched, bus)
    else if dmc.loops then (fetched.rewind, bus)
    else ({ fetched with enabled := false, irqFlag := dmc.irqEnabled, nextIrq := none }, bus)

/-! ### Predictions -/

/-- The bits to play before the last byte of the sample is fetched, less the one in progress. -/
def bitsAhead (dmc : Dmc) : Nat := (dmc.voice.length - 1) * 8 + dmc.bitsLeft.toNat

/-- Predicts the interrupt of a channel that has run to `now`: one clock after the bit at which the
last byte is fetched. -/
def predictIrq (dmc : Dmc) (now : Int) : Dmc :=
  let nextIrq :=
    if dmc.irqEnabled ∧ dmc.voice.length ≠ 0 then
      some (now + dmc.voice.delay + dmc.bitsAhead * dmc.period + 1)
    else none
  { dmc with nextIrq }

/-- The time of the next fetch of a channel that has run to `now`. -/
def nextFetch? (dmc : Dmc) (now : Int) : Option Int :=
  if dmc.voice.length = 0 then none
  else some (now + dmc.voice.delay + (dmc.bitsLeft.toNat * dmc.period : Nat))

/-- The number of fetches before `time` of a channel that has run to `now`, and the earliest time by
which they have all been made. -/
def countFetches (dmc : Dmc) (time now : Int) : Nat × Int :=
  match dmc.nextFetch? now with
  | none => (0, time)
  | some first =>
    if time ≤ first then (0, time)
    else
      let bytePeriod : Int := dmc.period * 8
      let ahead := ((time - first - 1) / bytePeriod + 1).toNat
      let count := if dmc.loops then ahead else min ahead dmc.voice.length
      (count, first + (count - 1) * bytePeriod + 1)

/-! ### Registers -/

/-- The channel in its power-on state. -/
def powerOn (region : Region) : Dmc := { region }

/-- Puts the channel back to its power-on state, but keeps registers and length. -/
def reset (dmc : Dmc) : Dmc :=
  { region := dmc.region, voice := dmc.voice.reset }

/-- A register write to a channel that has run to `now`.  The first register sets the rate and
whether the end of a sample that does not loop raises an interrupt.  The second sets the level; the
next run then puts out the difference of the curve at the new level and at the old one. -/
def write (dmc : Dmc) (slot : Slot) (value : UInt8) (now : Int) : Dmc :=
  let written := { dmc with voice := dmc.voice.write slot value }
  match slot with
  | .first =>
    let irqEnabled := Voice.bit value 7 && !Voice.bit value 6
    { written with
      rate := .ofNat 4 value.toNat
      irqEnabled
      irqFlag := dmc.irqFlag && irqEnabled }.predictIrq now
  | .second =>
    let dac := BitVec.ofNat 7 value.toNat
    { written with
      dac
      voice := { written.voice with level := dac.toNat - (response dac - response dmc.dac) } }
  | _ => written

/-- Enables or disables a channel that has run to `now`.  To enable an idle channel starts the
sample and fetches its first byte. -/
def setEnabled (dmc : Dmc) (enabled : Bool) (bus : Bus) (now : Int) : Dmc × Bus :=
  if !enabled then
    ({ dmc with enabled := false, nextIrq := none, voice := { dmc.voice with length := 0 } }, bus)
  else if dmc.enabled then (dmc, bus)
  else
    let (started, bus) := { dmc with enabled := true }.rewind.fill bus
    (started.predictIrq now, bus)

/-- Clears the interrupt flag. -/
def clearIrq (dmc : Dmc) : Dmc := { dmc with irqFlag := false }

/-- Puts the level to zero and takes it as already put out. -/
def settle (dmc : Dmc) : Dmc := { dmc with dac := 0, voice := { dmc.voice with level := 0 } }

/-- Collects the processor cycles taken by fetches since the last time. -/
def takeStall (dmc : Dmc) : UInt32 × Dmc := (dmc.stall, { dmc with stall := 0 })

/-! ### Running -/

/-- Plays the lowest bit of the shifter: a set bit moves the level up by two and a clear one down by
two, unless it would leave its seven bits. -/
def playBit (dmc : Dmc) : Dmc :=
  if dmc.silent then dmc
  else
    let dac :=
      if Voice.bit dmc.shifter 0 then if dmc.dac < 126 then dmc.dac + 2 else dmc.dac
      else if 2 ≤ dmc.dac then dmc.dac - 2 else dmc.dac
    { dmc with dac, shifter := dmc.shifter >>> 1 }

/-- Takes the waiting byte into the shifter and fetches the next one.  Without a byte the channel
falls silent. -/
def nextByte (dmc : Dmc) (bus : Bus) : Dmc × Bus :=
  match dmc.buffer with
  | some byte => { dmc with silent := false, shifter := byte, buffer := none }.fill bus
  | none => ({ dmc with silent := true }, bus)

/-- An event of the timer: a bit is played, and after eight bits the next byte is taken. -/
def tick (dmc : Dmc) (bus : Bus) : Dmc × Bus :=
  let played := { dmc.playBit with bitsLeft := dmc.bitsLeft - 1 }
  if dmc.bitsLeft = 0 then played.nextByte bus else (played, bus)

/-- Runs from `time` to `stop`, fetches from the bus and records the steps of the level.  A silent
channel without a waiting byte only counts bits, so its events are taken at once. -/
def run (dmc : Dmc) (time stop : Int) (bus : Bus) (steps : Array Step) :
    Dmc × Bus × Array Step :=
  let (voice, steps) := dmc.voice.moveTo dmc.dac.toNat time steps
  let first := time + voice.delay
  let events := Timer.count dmc.period first stop
  let delay := first + events * dmc.period - stop
  if dmc.silent ∧ dmc.buffer.isNone then
    ({ dmc with voice := { voice with delay }, bitsLeft := dmc.bitsLeft - BitVec.ofNat 3 events },
      bus, steps)
  else
    let ((ran, bus), steps) :=
      Timer.play (fun s => s.1.tick s.2) (fun s => s.1.dac.toNat) dmc.period events first
        ({ dmc with voice }, bus) steps
    ({ ran with voice := { ran.voice with delay, level := ran.dac.toNat } }, bus, steps)

/-- Moves the predicted interrupt into a frame that starts at `time`. -/
def endFrame (dmc : Dmc) (time : Int) : Dmc :=
  { dmc with nextIrq := dmc.nextIrq.map fun irq => max (irq - time) 0 }

end Dmc

end Chiptune

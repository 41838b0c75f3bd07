import Chiptune.Channel
import Chiptune.Noise
import Chiptune.Pulse
import Chiptune.Sequencer
import Chiptune.Triangle

/-! The four tone channels, which the frame sequencer clocks. -/

namespace Chiptune

/-- A step of one channel. -/
structure ChannelStep where
  channel : Channel
  step : Step
  deriving DecidableEq, Repr

namespace ChannelStep

/-- Adds the steps of one channel to `all`. -/
def collect (all : Array ChannelStep) (channel : Channel) (steps : Array Step) :
    Array ChannelStep :=
  steps.foldl (fun all step => all.push ⟨channel, step⟩) all

end ChannelStep

/-- The pulse, triangle and noise channels. -/
structure Tones where
  pulse1 : Pulse := { negation := .onesComplement }
  pulse2 : Pulse := { negation := .twosComplement }
  triangle : Triangle := {}
  noise : Noise := {}
  deriving DecidableEq, Repr

namespace Tones

/-- The lengths that a write to the fourth register loads, by the five high bits of its value. -/
def lengths : Array Nat :=
  #[0x0A, 0xFE, 0x14, 0x02, 0x28, 0x04, 0x50, 0x06, 0xA0, 0x08, 0x3C, 0x0A, 0x0E, 0x0C, 0x1A,
    0x0E, 0x0C, 0x10, 0x18, 0x12, 0x30, 0x14, 0x60, 0x16, 0xC0, 0x18, 0x48, 0x1A, 0x10, 0x1C,
    0x20, 0x1E]

/-- The length that a value written to the fourth register loads. -/
def lengthOf (value : UInt8) : Nat := lengths.getD (value.toNat / 8) 0

/-- Runs the four channels from `time` to `stop` and records their steps. -/
def run (tones : Tones) (time stop : Int) (steps : Array ChannelStep) :
    Tones × Array ChannelStep :=
  let (pulse1, steps1) := tones.pulse1.run time stop #[]
  let (pulse2, steps2) := tones.pulse2.run time stop #[]
  let (triangle, steps3) := tones.triangle.run time stop #[]
  let (noise, steps4) := tones.noise.run time stop #[]
  let steps := ChannelStep.collect steps .pulse1 steps1
  let steps := ChannelStep.collect steps .pulse2 steps2
  let steps := ChannelStep.collect steps .triangle steps3
  ({ pulse1, pulse2, triangle, noise }, ChannelStep.collect steps .noise steps4)

/-- The clock of a half frame: the lengths of all channels and then the sweeps. -/
def clockHalf (tones : Tones) : Tones :=
  { pulse1 := tones.pulse1.clockLength.clockSweep
    pulse2 := tones.pulse2.clockLength.clockSweep
    triangle := tones.triangle.clockLength
    noise := tones.noise.clockLength }

/-- The clock of a quarter frame: the envelopes and the linear counter. -/
def clockQuarter (tones : Tones) : Tones :=
  { pulse1 := tones.pulse1.clockEnvelope
    pulse2 := tones.pulse2.clockEnvelope
    triangle := tones.triangle.clockLinear
    noise := tones.noise.clockEnvelope }

/-- The clocks of one step of the sequencer, the half frame first. -/
def clock (tones : Tones) (beat : Beat) : Tones :=
  let tones := if beat.half then tones.clockHalf else tones
  if beat.quarter then tones.clockQuarter else tones

/-- Changes the voice of a tone channel.  The sample channel has its voice elsewhere. -/
def modifyVoice (tones : Tones) (channel : Channel) (f : Voice → Voice) : Tones :=
  match channel with
  | .pulse1 => { tones with pulse1 := { tones.pulse1 with voice := f tones.pulse1.voice } }
  | .pulse2 => { tones with pulse2 := { tones.pulse2 with voice := f tones.pulse2.voice } }
  | .triangle => { tones with triangle := { tones.triangle with voice := f tones.triangle.voice } }
  | .noise => { tones with noise := { tones.noise with voice := f tones.noise.voice } }
  | .dmc => tones

/-- Starts the duty sequence of a pulse over. -/
def restart (tones : Tones) (channel : Channel) : Tones :=
  match channel with
  | .pulse1 => { tones with pulse1 := tones.pulse1.restart }
  | .pulse2 => { tones with pulse2 := tones.pulse2.restart }
  | _ => tones

/-- A write to a register of a tone channel.  The fourth register also loads the length of an enabled
channel and starts the duty sequence of a pulse over. -/
def write (tones : Tones) (channel : Channel) (slot : Slot) (value : UInt8) (enabled : Bool) :
    Tones :=
  let tones := tones.modifyVoice channel (·.write slot value)
  if slot = .fourth then
    let tones :=
      if enabled then tones.modifyVoice channel ({ · with length := lengthOf value }) else tones
    tones.restart channel
  else tones

/-- Ends the length of every channel that is not enabled. -/
def enable (tones : Tones) (enables : ByChannel Bool) : Tones :=
  Channel.all.foldl
    (fun tones c => if enables.get c then tones else tones.modifyVoice c ({ · with length := 0 }))
    tones

/-- Puts every channel back to its start. -/
def reset (tones : Tones) : Tones :=
  { pulse1 := tones.pulse1.reset
    pulse2 := tones.pulse2.reset
    triangle := tones.triangle.reset
    noise := tones.noise.reset }

end Tones

end Chiptune

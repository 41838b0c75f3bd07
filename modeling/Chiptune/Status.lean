import Chiptune.Channel

/-! The status byte at `$4015`.  Read, it tells which channels are active and which interrupts are
raised; written, its low five bits enable the channels. -/

namespace Chiptune

/-- The contents of a status byte. -/
structure Status where
  channels : ByChannel Bool := .fill false
  frameIrq : Bool := false
  dmcIrq : Bool := false
  deriving DecidableEq, Repr

namespace Status

/-- The bit of each channel in the status byte. -/
def channelBit : Channel → UInt8
  | .pulse1 => 0x01
  | .pulse2 => 0x02
  | .triangle => 0x04
  | .noise => 0x08
  | .dmc => 0x10

/-- The bit of the channel at a position, of which three bits count.  Positions past the last channel
have none. -/
def bitAt (position : Nat) : UInt8 :=
  match Channel.ofIndex? (position % 8) with
  | some c => channelBit c
  | none => 0

/-- The bits of all channels. -/
def channelMask : UInt8 := Channel.all.foldl (fun mask c => mask ||| channelBit c) 0

/-- The channels whose bits are set in a byte. -/
def enables (byte : UInt8) : ByChannel Bool :=
  .ofFn fun c => byte &&& channelBit c ≠ 0

/-- Each flag with its bit and its name, lowest bit first. -/
def flags (status : Status) : List (Bool × UInt8 × String) :=
  [(status.channels.pulse1, 0x01, "PULSE1"), (status.channels.pulse2, 0x02, "PULSE2"),
    (status.channels.triangle, 0x04, "TRIANGLE"), (status.channels.noise, 0x08, "NOISE"),
    (status.channels.dmc, 0x10, "DMC"), (status.frameIrq, 0x40, "FRAME_IRQ"),
    (status.dmcIrq, 0x80, "DMC_IRQ")]

/-- The status as a byte. -/
def toByte (status : Status) : UInt8 :=
  status.flags.foldl (fun byte flag => if flag.1 then byte ||| flag.2.1 else byte) 0

/-- The names of the flags that are set. -/
def names (status : Status) : List String :=
  status.flags.filterMap fun flag => if flag.1 then some flag.2.2 else none

end Status

end Chiptune

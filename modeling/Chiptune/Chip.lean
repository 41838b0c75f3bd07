import Chiptune.Dmc
import Chiptune.Register
import Chiptune.Status
import Chiptune.Tones

/-! The sound chip: five channels, the frame sequencer and the interrupt line.  A `Session` is a chip
at work: the bus from which it fetches, the steps that its channels put out and the notices of its
interrupt line. -/

namespace Chiptune

/-- The chip.  `time` is the clock to which it has run in the current frame.  `earliestIrq` is the
time of the next interrupt as last announced: zero while one is raised and `none` where none is to
come. -/
structure Chip where
  tones : Tones := {}
  dmc : Dmc
  sequencer : Sequencer
  enables : ByChannel Bool := .fill false
  time : Int := 0
  earliestIrq : Option Int := none
  deriving DecidableEq, Repr

namespace Chip

/-- The region for which the chip is built. -/
def region (chip : Chip) : Region := chip.sequencer.region

/-- The voice of a channel. -/
def voice (chip : Chip) : Channel → Voice
  | .pulse1 => chip.tones.pulse1.voice
  | .pulse2 => chip.tones.pulse2.voice
  | .triangle => chip.tones.triangle.voice
  | .noise => chip.tones.noise.voice
  | .dmc => chip.dmc.voice

/-- The level that a channel last put out. -/
def level (chip : Chip) (c : Channel) : Int := (chip.voice c).level

/-- The channels whose length has not run out. -/
def active (chip : Chip) : ByChannel Bool := .ofFn fun c => (chip.voice c).length ≠ 0

/-- Whether an interrupt is raised. -/
def irqPending (chip : Chip) : Bool := chip.sequencer.irqFlag || chip.dmc.irqFlag

/-- The time of the next interrupt: zero while one is raised, else the earlier of the two
predictions. -/
def nextIrq (chip : Chip) : Option Int :=
  if chip.irqPending then some 0
  else
    match chip.dmc.nextIrq, chip.sequencer.nextIrq with
    | some a, some b => some (min a b)
    | some a, none => some a
    | none, b => b

/-- The number of fetches before `time`, and the earliest time by which they have all been made. -/
def countFetches (chip : Chip) (time : Int) : Nat × Int := chip.dmc.countFetches time chip.time

/-- Makes `time`, to which the chip has run, the start of the next frame. -/
def rebase (chip : Chip) (time : Int) : Chip :=
  { chip with
    time := chip.time - time
    sequencer := chip.sequencer.endFrame time
    dmc := chip.dmc.endFrame time
    earliestIrq := chip.earliestIrq.map fun irq => max (irq - time) 0 }

end Chip

/-- A chip at work. -/
structure Session where
  chip : Chip
  bus : Bus
  steps : Array ChannelStep := #[]
  notices : Array (Option Int) := #[]

namespace Session

/-- Announces the time of the next interrupt if it has changed. -/
def announce (session : Session) : Session :=
  let earliestIrq := session.chip.nextIrq
  if earliestIrq = session.chip.earliestIrq then session
  else
    { session with
      chip := { session.chip with earliestIrq }
      notices := session.notices.push earliestIrq }

/-- Runs the tone channels from `time` on through the given steps of the sequencer and then to
`stop`. -/
def playTones (tones : Tones) (time stop : Int) (beats : Array (Int × Beat))
    (steps : Array ChannelStep) : Tones × Array ChannelStep :=
  let (tones, time, steps) := beats.foldl
    (fun (tones, time, steps) (due, beat) =>
      let (tones, steps) := tones.run time due steps
      (tones.clock beat, due, steps))
    (tones, time, steps)
  tones.run time stop steps

/-- Runs the chip to `stop`.  A step of the sequencer that is due at `stop` is left to the next
run. -/
def runTo (session : Session) (stop : Int) : Session :=
  let chip := session.chip
  if stop ≤ chip.time then session
  else
    let (dmc, bus, dmcSteps) := chip.dmc.run chip.time stop session.bus #[]
    let steps := ChannelStep.collect session.steps .dmc dmcSteps
    let (beats, sequencer) := chip.sequencer.run chip.time stop
    let (tones, steps) := playTones chip.tones chip.time stop beats steps
    announce { session with
      chip := { chip with tones, dmc, sequencer, time := stop }
      bus
      steps }

/-- What a write to a location does at `time`, to which the chip has run. -/
def applyWrite (session : Session) (time : Int) (location : Location) (value : UInt8) : Session :=
  let chip := session.chip
  match location with
  | .voice .dmc slot =>
    { session with chip := { chip with dmc := chip.dmc.write slot value chip.time } }
  | .voice channel slot =>
    let tones := chip.tones.write channel slot value (chip.enables.get channel)
    { session with chip := { chip with tones } }
  | .status =>
    let enables := Status.enables value
    let (dmc, bus) := chip.dmc.clearIrq.setEnabled enables.dmc session.bus chip.time
    { session with chip := { chip with enables, dmc, tones := chip.tones.enable enables }, bus }
  | .mode =>
    { session with chip := { chip with sequencer := chip.sequencer.writeMode time value } }
  | .idle => session

/-- A write at `time`: the chip runs to that time first.  A write outside the chip's range does
nothing at all. -/
def write (session : Session) (time : Int) (address : UInt16) (value : UInt8) : Session :=
  match Location.ofAddress? address with
  | none => session
  | some location => ((session.runTo time).applyWrite time location value).announce

/-- A status read at `time`.  It shows the channels and the sample interrupt as they are one clock
before, and the frame interrupt as it is at `time`, which the read clears. -/
def readStatus (session : Session) (time : Int) : Status × Session :=
  let before := session.runTo (max (time - 1) session.chip.time)
  let now := before.runTo time
  let frameIrq := before.chip.sequencer.irqFlag || now.chip.sequencer.irqFlag
  let status : Status :=
    { channels := before.chip.active, dmcIrq := before.chip.dmc.irqFlag, frameIrq }
  if now.chip.sequencer.irqFlag then
    let sequencer := now.chip.sequencer.clearIrq
    (status, announce { now with chip := { now.chip with sequencer } })
  else (status, now)

/-- Ends the frame at `time`. -/
def endFrame (session : Session) (time : Int) : Session :=
  let session := session.runTo time
  { session with chip := session.chip.rebase time }

end Session

namespace Chip

/-- The registers as they are after power-on: everything is zero, and the first register of each
channel is `$10`. -/
def powerOnWrites : List (UInt16 × UInt8) :=
  (Location.modeAddress, 0) :: (Location.statusAddress, 0) ::
    (List.range 20).map fun n => (0x4000 + UInt16.ofNat n, if n % 4 = 0 then 0x10 else 0)

/-- Puts the chip back to its power-on state, and lists the notices of its interrupt line.  The
power-on writes put out nothing and fetch nothing. -/
def reset (chip : Chip) : Chip × Array (Option Int) :=
  let blank : Chip :=
    { tones := chip.tones.reset
      dmc := chip.dmc.reset
      sequencer := .powerOn chip.region }
  let session := powerOnWrites.foldl
    (fun session (address, value) => session.write 0 address value)
    { chip := blank, bus := .unconnected 0 : Session }
  let tones := session.chip.tones
  ({ session.chip with
      tones := { tones with triangle := tones.triangle.settle }
      dmc := session.chip.dmc.settle },
    session.notices)

/-- The chip after power-on. -/
def powerOn (region : Region) : Chip :=
  (reset { dmc := .powerOn region, sequencer := .powerOn region }).1

end Chip

end Chiptune

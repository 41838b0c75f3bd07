import Chiptune.Channel
import Chiptune.Voice

/-! The addresses of the chip: four registers for each channel from `$4000` on, the status byte at
`$4015` and the mode of the frame sequencer at `$4017`. -/

namespace Chiptune

/-- What a write to an address reaches. -/
inductive Location where
  /-- A register of a channel. -/
  | voice (channel : Channel) (slot : Slot)
  /-- The byte that enables the channels. -/
  | status
  /-- The mode of the frame sequencer. -/
  | mode
  /-- An address within the chip's range that belongs to other hardware. -/
  | idle
  deriving DecidableEq, Repr

namespace Location

/-- The first address of the chip. -/
def firstAddress : UInt16 := 0x4000

/-- The last address of the chip. -/
def lastAddress : UInt16 := 0x4017

/-- The address of the status byte. -/
def statusAddress : UInt16 := 0x4015

/-- The address of the sequencer's mode. -/
def modeAddress : UInt16 := 0x4017

/-- What an address reaches; addresses outside the chip's range reach nothing. -/
def ofAddress? (address : UInt16) : Option Location :=
  if address < firstAddress ∨ lastAddress < address then none
  else if address = statusAddress then some .status
  else if address = modeAddress then some .mode
  else
    let offset := address.toNat - firstAddress.toNat
    match Channel.ofIndex? (offset / 4) with
    | some channel => some (.voice channel (Slot.ofAddress offset))
    | none => some .idle

end Location

/-- The registers that have a name.  `$4009`, `$400D`, `$4014` and `$4016` are unused or belong to
other hardware. -/
inductive Register where
  | pulse1Control
  | pulse1Sweep
  | pulse1TimerLow
  | pulse1Length
  | pulse2Control
  | pulse2Sweep
  | pulse2TimerLow
  | pulse2Length
  | triangleLinear
  | triangleTimerLow
  | triangleLength
  | noiseControl
  | noisePeriod
  | noiseLength
  | dmcControl
  | dmcDac
  | dmcAddress
  | dmcLength
  | status
  | frameCounter
  deriving DecidableEq, Repr

namespace Register

/-- Each register with its address, its mnemonic and its title. -/
def table : List (Register × UInt16 × String × String) :=
  [(pulse1Control, 0x4000, "PULSE1_CTRL", "Pulse1Control"),
    (pulse1Sweep, 0x4001, "PULSE1_SWEEP", "Pulse1Sweep"),
    (pulse1TimerLow, 0x4002, "PULSE1_LO", "Pulse1TimerLow"),
    (pulse1Length, 0x4003, "PULSE1_HI", "Pulse1Length"),
    (pulse2Control, 0x4004, "PULSE2_CTRL", "Pulse2Control"),
    (pulse2Sweep, 0x4005, "PULSE2_SWEEP", "Pulse2Sweep"),
    (pulse2TimerLow, 0x4006, "PULSE2_LO", "Pulse2TimerLow"),
    (pulse2Length, 0x4007, "PULSE2_HI", "Pulse2Length"),
    (triangleLinear, 0x4008, "TRI_LINEAR", "TriangleLinear"),
    (triangleTimerLow, 0x400A, "TRI_LO", "TriangleTimerLow"),
    (triangleLength, 0x400B, "TRI_HI", "TriangleLength"),
    (noiseControl, 0x400C, "NOISE_CTRL", "NoiseControl"),
    (noisePeriod, 0x400E, "NOISE_LO", "NoisePeriod"),
    (noiseLength, 0x400F, "NOISE_HI", "NoiseLength"),
    (dmcControl, 0x4010, "DMC_FREQ", "DmcControl"),
    (dmcDac, 0x4011, "DMC_RAW", "DmcDac"),
    (dmcAddress, 0x4012, "DMC_START", "DmcAddress"),
    (dmcLength, 0x4013, "DMC_LEN", "DmcLength"),
    (status, 0x4015, "SND_CHN", "Status"),
    (frameCounter, 0x4017, "FRAME_CTR", "FrameCounter")]

/-- A register with its address and its names. -/
structure Entry where
  register : Register
  address : UInt16
  mnemonic : String
  title : String

/-- The register at an address. -/
def ofAddress? (address : UInt16) : Option Entry :=
  (table.find? (·.2.1 == address)).map fun (register, address, mnemonic, title) =>
    { register, address, mnemonic, title }

namespace Entry

/-- The channel to which the register belongs. -/
def channel? (entry : Entry) : Option Channel :=
  match Location.ofAddress? entry.address with
  | some (.voice channel _) => some channel
  | _ => none

/-- The address in upper-case hexadecimal digits. -/
def digits (entry : Entry) : String :=
  (String.ofList (Nat.toDigits 16 entry.address.toNat)).toUpper

/-- The mnemonic and the address, as in a register listing. -/
def text (entry : Entry) : String := s!"{entry.mnemonic} (${entry.digits})"

end Entry

end Register

end Chiptune

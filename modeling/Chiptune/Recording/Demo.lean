import Chiptune.Recording

/-! A short tune that uses every channel, and the memory with its sample. -/

namespace Chiptune.Recording

namespace Demo

/-- The notes of the melody, in hundredths of Hz. -/
def melody : Array Nat := #[26163, 32963, 39200, 52325, 39200, 32963, 29366, 24694]

/-- The notes of the bass, in hundredths of Hz. -/
def bass : Array Nat := #[6541, 9800]

/-- The number of frames. -/
def length : Nat := 120

/-- The frames that a note lasts. -/
def noteLength : Nat := 15

/-- The timer period for a wave that takes `events` events of a clock at `clockRate` Hz, at a
frequency in hundredths of Hz. -/
def timerPeriod (clockRate events frequency : Nat) : Nat :=
  roundDiv .up (100 * clockRate) (events * frequency) - 1

/-- The writes of a period to the registers at `address` and after it.  The second one also loads the
length. -/
def periodWrites (time : UInt32) (address : UInt16) (period : Nat) : List RegisterWrite :=
  [{ time, address, value := .ofNat period },
    { time, address := address + 1, value := .ofNat (0x08 + period / 256 % 8) }]

/-- The writes that set the channels up. -/
def opening : List RegisterWrite :=
  [(0x4000, 0xB8), (0x4004, 0x75), (0x4008, 0xFF), (0x4010, 0x4E), (0x4011, 0x20), (0x4012, 0x00),
    (0x4013, 0x03), (0x400E, 0x03), (0x4015, 0x1F)].map fun (address, value) =>
      { time := 0, address, value }

/-- The writes that start a note.  The second pulse plays two notes ahead of the melody and an octave
lower, and the bass changes at every other note. -/
def noteWrites (clockRate note : Nat) : List RegisterWrite :=
  let lead := melody.getD (note % melody.size) 0
  let harmony := melody.getD ((note + 2) % melody.size) 0
  let low := bass.getD (note / 2 % bass.size) 0
  periodWrites 100 0x4002 (timerPeriod clockRate 16 lead) ++
    periodWrites 140 0x4006 (timerPeriod clockRate 8 harmony) ++
    periodWrites 180 0x400A (timerPeriod clockRate 32 low)

/-- The writes that start a decaying hit of noise. -/
def hit : List RegisterWrite :=
  [{ time := 220, address := 0x400C, value := 0x04 },
    { time := 220, address := 0x400F, value := 0x08 }]

/-- The writes of a frame. -/
def frameWrites (region : Region) (index : Nat) : List RegisterWrite :=
  (if index = 0 then opening else []) ++
    (if index % noteLength = 0 then noteWrites region.clockRate (index / noteLength) else []) ++
    (if index % (noteLength * 2) = 0 then hit else []) ++
    if index = length - 1 then
      [{ time := .ofNat (region.frameClocks / 2), address := 0x4015, value := 0 }]
    else []

/-- The byte of the sample at an address: runs of four bytes of set and of clear bits. -/
def sampleByte (address : UInt16) : UInt8 :=
  if address.toNat / 4 % 2 = 0 then 0xFF else 0x00

end Demo

/-- The tune for a region. -/
def demo (region : Region) : Recording :=
  { frames := (List.range Demo.length).map fun index =>
      { endTime := .ofNat region.frameClocks, writes := Demo.frameWrites region index } }

end Chiptune.Recording

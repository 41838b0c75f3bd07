import Chiptune.Fault
import Chiptune.Resampler

/-! A resampler of bounded length.  The samples that wait and those that the current frame may still
add never exceed its size, so each frame has a last clock, the horizon. -/

namespace Chiptune

/-- A buffer of `size` samples at `sampleRate` Hz for steps timed in clocks of `clockRate` Hz. -/
structure StepBuffer where
  sampleRate : Nat
  clockRate : Nat
  lengthMs : Nat
  size : Nat
  resampler : Resampler
  deriving DecidableEq

namespace StepBuffer

/-- The length of a buffer in milliseconds unless a setting says otherwise. -/
def defaultLengthMs : Nat := 250

/-- The largest number of whole clocks to a sample. -/
def maxRatio : Nat := twoTo 20

/-- The most samples that one frame may add. -/
def maxFrame : Nat := 4000

/-- A buffer that holds `lengthMs` milliseconds and one more.  The rates must not be zero, the clock
must be no slower than the samples and not too much faster, and the size must fit 32 bits. -/
def create (sampleRate clockRate lengthMs : Nat) : Except Fault StepBuffer :=
  if sampleRate = 0 then .error (.invalidConfiguration "sample rate must be non-zero")
  else if clockRate = 0 then .error (.invalidConfiguration "clock rate must be non-zero")
  else if clockRate < sampleRate ∨ maxRatio < clockRate / sampleRate then
    .error (.invalidConfiguration
      s!"clock rate {clockRate} Hz cannot be resampled to {sampleRate} Hz")
  else
    let size := ceilDiv (sampleRate * (lengthMs + 1)) 1000
    if twoTo 32 ≤ size then
      .error (.invalidConfiguration
        s!"buffer of {lengthMs} ms at {sampleRate} Hz is too large")
    else
      .ok { sampleRate, clockRate, lengthMs, size, resampler := .create sampleRate clockRate }

/-- Drops all steps and samples. -/
def clear (buffer : StepBuffer) : StepBuffer :=
  { buffer with resampler := buffer.resampler.clear }

/-- The samples that wait to be read. -/
def available (buffer : StepBuffer) : Nat := buffer.resampler.available

/-- The samples that the current frame may still add. -/
def room (buffer : StepBuffer) : Nat := min (buffer.size - buffer.available) maxFrame

/-- The horizon: the last clock of the frame that still fits the buffer. -/
def frameCapacity (buffer : StepBuffer) : Nat := buffer.resampler.clocksNeeded buffer.room

/-- The clocks until `count` more samples are available, or as many as there is room for. -/
def countClocks (buffer : StepBuffer) (count : Nat) : Nat :=
  buffer.resampler.clocksNeeded (min count buffer.room)

/-- Whether a step at `time` lies within the frame and its horizon. -/
def accepts (buffer : StepBuffer) (time : Int) : Bool :=
  0 ≤ time && time ≤ buffer.frameCapacity

/-- Adds a step by `delta` at a time that the buffer accepts. -/
def put (buffer : StepBuffer) (time delta : Int) : StepBuffer :=
  { buffer with resampler := buffer.resampler.add time.toNat (Int32.ofInt delta) }

/-- Adds a step by `delta` at `time`.  Times before the frame or past the horizon are refused. -/
def add (buffer : StepBuffer) (time delta : Int) : Except Fault StepBuffer :=
  if buffer.accepts time then .ok (buffer.put time delta)
  else .error (.frameOverflow time buffer.frameCapacity)

/-- Ends the frame at `time`, or at the frame's start or horizon if `time` lies beyond. -/
def endFrame (buffer : StepBuffer) (time : Int) : StepBuffer :=
  { buffer with resampler := buffer.resampler.endFrame (min time.toNat buffer.frameCapacity) }

/-- Reads up to `count` samples. -/
def read (buffer : StepBuffer) (count : Nat) : Array Int16 × StepBuffer :=
  let (samples, resampler) := buffer.resampler.read count
  (samples, { buffer with resampler })

/-- The samples that are dropped at a time. -/
def chunk : Nat := 256

/-- Drops up to `count` samples, a chunk at a time. -/
def drop (buffer : StepBuffer) (count : Nat) : StepBuffer :=
  go (min count buffer.available) buffer
where
  go (left : Nat) (buffer : StepBuffer) : StepBuffer :=
    if left = 0 then buffer
    else go (left - chunk) (buffer.read (min left chunk)).2
  termination_by left
  decreasing_by simp only [chunk]; omega

end StepBuffer

end Chiptune

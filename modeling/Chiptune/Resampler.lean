import Chiptune.Binary64
import Chiptune.Resampler.Kernel

/-! From level steps at clock times to samples.  Each step adds an impulse of sixteen taps to the
cells around its position; the samples are the running sum of the cells, which leaks slowly towards
zero.

A position counts samples in fractions of `2 ^ -52` from the first unread sample's frame on:
`time * factor + offset`.  Sums of cells wrap at 32 bits. -/

namespace Chiptune

/-- The state of the resampler.  `factor` is the length of a clock and `offset` the position of the
frame's start, both in fractions of a sample; `available` counts the samples that wait to be read,
and `sum` is the running sum before the first of them.  Cells past the end of `cells` are zero. -/
structure Resampler where
  factor : Nat
  offset : Nat
  available : Nat := 0
  sum : Int32 := 0
  cells : Array Int32 := #[]
  deriving DecidableEq

namespace Resampler

/-- The fractions of a sample in which positions are counted. -/
def unit : Nat := twoTo 52

/-- The taps of an impulse. -/
def width : Nat := 16

/-- The cells past the available samples that a read keeps. -/
def margin : Nat := 18

/-- The length of a clock: `unit * sampleRate / clockRate` to 53 significant bits, rounded up. -/
def factorOf (sampleRate clockRate : Nat) : Nat :=
  let (mantissa, shift) := Binary64.ratio (unit * sampleRate) clockRate
  ceilDiv mantissa (twoTo shift)

/-- The resampler before any step.  Its first frame starts half a clock after a sample at the largest
ratio. -/
def create (sampleRate clockRate : Nat) : Resampler :=
  { factor := factorOf sampleRate clockRate, offset := twoTo 31 }

/-- Drops all steps and samples.  The next frame starts half a clock after a sample. -/
def clear (r : Resampler) : Resampler :=
  { factor := r.factor, offset := r.factor / 2 }

/-- The position of clock `time`. -/
def position (r : Resampler) (time : Nat) : Nat := time * r.factor + r.offset

/-- Adds `tap 0`, `tap 1`, … to the sixteen cells from `start` on. -/
def addTaps (cells : Array Int32) (start : Nat) (tap : Nat → Int32) : Array Int32 :=
  let cells := cells ++ Array.replicate (start + width - cells.size) 0
  width.fold (fun i _ cells => cells.modify (start + i) (· + tap i)) cells

/-- Adds a step at clock `time`.  The position is cut to 20 bits below the sample: five of them
select a row of the kernel and fifteen blend it with the next. -/
def add (r : Resampler) (time : Nat) (delta : Int32) : Resampler :=
  let fixed := r.position time / twoTo 32
  let row := fixed / twoTo 15 % 32
  let fraction := fixed % twoTo 15
  { r with
    cells := addTaps r.cells (r.available + fixed / twoTo 20) (Kernel.blend delta row fraction) }

/-- The clocks until `count` more samples are available. -/
def clocksNeeded (r : Resampler) (count : Nat) : Nat :=
  if count * unit < r.offset then 0
  else ceilDiv (count * unit - r.offset) r.factor

/-- Ends the frame at clock `time`: the samples before its position are available. -/
def endFrame (r : Resampler) (time : Nat) : Resampler :=
  { r with
    available := r.available + r.position time / unit
    offset := r.position time % unit }

/-- The level of a running sum: its bits above the fifteenth, kept within 16 bits. -/
def levelOf (sum : Int32) : Int32 :=
  let level := sum >>> 15
  if level < -32768 then -32768 else if 32767 < level then 32767 else level

/-- The running sum after a cell.  It loses `1 / 2 ^ 9` of its level, which takes out any constant
part. -/
def leak (sum cell : Int32) : Int32 := sum + cell - levelOf sum <<< 6

/-- Reads up to `count` of the available samples.  The cells move down by the samples read, and those
past the margin are lost. -/
def read (r : Resampler) (count : Nat) : Array Int16 × Resampler :=
  let count := min count r.available
  if count = 0 then (#[], r)
  else
    let (samples, sum) := count.fold
      (fun i _ (samples, sum) => (samples.push (levelOf sum).toInt16, leak sum (r.cells.getD i 0)))
      (#[], r.sum)
    (samples, { r with
      available := r.available - count
      sum
      cells := r.cells.extract count (r.available + margin) })

end Resampler

end Chiptune

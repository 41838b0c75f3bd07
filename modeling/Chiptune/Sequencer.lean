import Chiptune.Region

/-! The frame sequencer: a divider of the processor clock that gives the quarter frames, which clock
the envelopes and the linear counter, the half frames, which clock the lengths and the sweeps, and
the frame interrupt.

Four steps follow each other.  Every step is a quarter frame, and steps 0 and 2 are half frames too.
A mode byte with bit 7 set makes the gap after step 3 twice as long; with bits 6 and 7 clear, step 0
raises the interrupt. -/

namespace Chiptune

/-- What a step of the sequencer clocks. -/
structure Beat where
  quarter : Bool
  half : Bool
  deriving DecidableEq, Repr

/-- The sequencer.  `delay` is the number of clocks until the step `next` is due, and `mode` is the
last mode byte. -/
structure Sequencer where
  region : Region
  delay : Int := 1
  next : BitVec 2 := 0
  mode : UInt8 := 0
  irqFlag : Bool := false
  nextIrq : Option Int := none
  deriving DecidableEq, Repr

namespace Sequencer

/-- The sequencer in its power-on state. -/
def powerOn (region : Region) : Sequencer := { region }

/-- The clocks between two steps. -/
def period (sequencer : Sequencer) : Nat := sequencer.region.stepPeriod

/-- Whether bit 7 of a mode byte asks for the long gap. -/
def isFiveStep (mode : UInt8) : Bool := mode.toNat.testBit 7

/-- Whether bit 6 of a mode byte forbids the interrupt. -/
def inhibitsIrq (mode : UInt8) : Bool := mode.toNat.testBit 6

/-- A mode byte written at `time`.  The delay keeps only its odd clock.  With four steps, step 1 is
due one period later and step 0 three periods after it; with five, step 0 is due at once.  The
interrupt flag is seen one clock after its step. -/
def writeMode (sequencer : Sequencer) (time : Int) (mode : UInt8) : Sequencer :=
  let odd := sequencer.delay % 2
  let irqFlag := sequencer.irqFlag && !inhibitsIrq mode
  if isFiveStep mode then
    { sequencer with mode, irqFlag, delay := odd, next := 0, nextIrq := none }
  else
    let delay := odd + sequencer.period
    let nextIrq :=
      if inhibitsIrq mode then none else some (time + delay + sequencer.period * 3 - 2 + 1)
    { sequencer with mode, irqFlag, delay, next := 1, nextIrq }

/-- The clocks by which the long gap is less than two periods. -/
def longGapTrim : Region → Nat
  | .ntsc => 6
  | .pal => 2

/-- The clocks from a step to the one after it.  An NTSC sequence is two clocks short after step 1
and a PAL one after step 2.  With five steps the gap after step 3 is two periods less a few clocks. -/
def gapAfter (region : Region) (mode : UInt8) (step : BitVec 2) : Nat :=
  let period := region.stepPeriod
  if step = 1 ∧ region = .ntsc ∨ step = 2 ∧ region = .pal then period - 2
  else if step = 3 ∧ isFiveStep mode then period + (period - longGapTrim region)
  else period

theorem gapAfter_pos (region : Region) (mode : UInt8) (step : BitVec 2) :
    0 < gapAfter region mode step := by
  have h : 2 < region.stepPeriod := by cases region <;> decide
  unfold gapAfter
  grind

/-- What a step clocks. -/
def beatOf (step : BitVec 2) : Beat := ⟨true, step = 0 ∨ step = 2⟩

/-- Lets the due step happen at `time` and schedules the one after it. -/
def fire (sequencer : Sequencer) (time : Int) : Sequencer :=
  let moved := { sequencer with
    delay := gapAfter sequencer.region sequencer.mode sequencer.next
    next := sequencer.next + 1 }
  if sequencer.next = 0 ∧ !isFiveStep sequencer.mode ∧ !inhibitsIrq sequencer.mode then
    { moved with irqFlag := true, nextIrq := some (time + sequencer.period * 4 - 2 + 1) }
  else moved

/-- Lets `clocks` go by without a step. -/
def advance (sequencer : Sequencer) (clocks : Int) : Sequencer :=
  { sequencer with delay := sequencer.delay - clocks }

@[simp] theorem fire_delay (sequencer : Sequencer) (time : Int) :
    (sequencer.fire time).delay =
      gapAfter sequencer.region sequencer.mode sequencer.next := by
  unfold fire
  split <;> rfl

/-- Runs from `now` to `stop` and adds the steps that happen before `stop`, each with its time, to
`fired`. -/
def run (sequencer : Sequencer) (now stop : Int) (fired : Array (Int × Beat) := #[]) :
    Array (Int × Beat) × Sequencer :=
  let due := now + sequencer.delay
  if due < stop then
    (sequencer.fire due).run due stop (fired.push (due, beatOf sequencer.next))
  else (fired, sequencer.advance (stop - now))
  termination_by (stop - (now + sequencer.delay)).toNat
  decreasing_by
    have := gapAfter_pos sequencer.region sequencer.mode sequencer.next
    simp only [fire_delay]
    omega

/-- Clears the interrupt flag. -/
def clearIrq (sequencer : Sequencer) : Sequencer := { sequencer with irqFlag := false }

/-- Moves the predicted interrupt into a frame that starts at `time`. -/
def endFrame (sequencer : Sequencer) (time : Int) : Sequencer :=
  { sequencer with nextIrq := sequencer.nextIrq.map fun irq => max (irq - time) 0 }

end Sequencer

end Chiptune

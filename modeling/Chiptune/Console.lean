import Chiptune.Board
import Chiptune.Configuration

/-! A console: a board, the buffer into which it plays and the settings from which both are built. -/

namespace Chiptune

/-- A console. -/
structure Console where
  board : Board
  buffer : StepBuffer
  configuration : Configuration

namespace Console

/-- Puts the chip back to its power-on state and drops all output. -/
def reset (console : Console) : Console :=
  { console with board := console.board.reset, buffer := console.buffer.clear }

/-- Builds a console from valid settings, with `bus` as its memory. -/
def create (bus : Bus) (configuration : Configuration) : Except Fault Console := do
  configuration.validate
  let buffer ← StepBuffer.create configuration.sampleRate configuration.clockRate
    configuration.bufferLengthMs
  let board := (Board.create configuration.region bus).setVolume configuration.volume
  return reset { board, buffer, configuration }

/-- Writes a register at `time`. -/
def write (console : Console) (time : Int) (address : UInt16) (value : UInt8) :
    Except Fault Console :=
  (console.board.write console.buffer time address value).map fun (board, buffer) =>
    { console with board, buffer }

/-- Reads the status at `time`, which clears the frame interrupt. -/
def readStatus (console : Console) (time : Int) : Except Fault (Status × Console) :=
  (console.board.readStatus console.buffer time).map fun (status, board, buffer) =>
    (status, { console with board, buffer })

/-- Reads up to `count` samples. -/
def read (console : Console) (count : Nat) : Array Int16 × Console :=
  let (samples, buffer) := console.buffer.read count
  (samples, { console with buffer })

/-- Ends the frame at `time` and reads up to `count` samples, and no more than a block. -/
def runFrame (console : Console) (time : Int) (count : Nat) :
    Except Fault (Array Int16 × Console) :=
  (console.board.endFrame console.buffer time).map fun (board, buffer) =>
    read { console with board, buffer := buffer.endFrame time }
      (min count console.configuration.blockSize)

/-- Switches a channel off or on. -/
def setMuted (console : Console) (position : Nat) (muted : Bool) : Except Fault Console :=
  (console.board.setMuted console.buffer position muted).map fun (board, buffer) =>
    { console with board, buffer }

/-- Collects the processor cycles taken by fetches since the last time. -/
def takeStall (console : Console) : UInt32 × Console :=
  let (stall, board) := console.board.takeStall
  (stall, { console with board })

/-- Reads blocks until no samples are left and adds them to `samples`. -/
def drain (console : Console) (samples : Array Int16) : Array Int16 × Console :=
  let (block, rest) := console.read console.configuration.blockSize
  if rest.buffer.available < console.buffer.available then rest.drain (samples ++ block)
  else (samples, console)
  termination_by console.buffer.available

end Console

end Chiptune

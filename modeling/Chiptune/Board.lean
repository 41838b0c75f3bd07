import Chiptune.Chip
import Chiptune.Mix
import Chiptune.StepBuffer

/-! A chip on its board: the memory it fetches from, the scales and switches between its channels and
the output, and a listener on its interrupt line.  The output buffer is given to each operation. -/

namespace Chiptune

/-- A chip on its board.  `muted` tells which channels are switched off, and `notices` holds what the
listener heard, first things first. -/
structure Board where
  chip : Chip
  bus : Bus
  mix : Mix
  muted : ByChannel Bool := .fill false
  listening : Bool := false
  notices : Array (Option Int) := #[]

namespace Board

/-- A board at full volume with a chip in its power-on state. -/
def create (region : Region) (bus : Bus) : Board :=
  { chip := .powerOn region, bus, mix := .ofVolume 1.0 }

/-- Sets the volume of later steps. -/
def setVolume (board : Board) (volume : Float) : Board :=
  { board with mix := .ofVolume volume }

/-- Connects or disconnects the listener. -/
def listen (board : Board) (listening : Bool) : Board := { board with listening }

/-- Tells the listener. -/
def hear (board : Board) (notices : Array (Option Int)) : Board :=
  if board.listening then { board with notices := board.notices ++ notices } else board

/-- Adds a step of a channel to the output.  A step that the output refuses is dropped. -/
def deliver (board : Board) (out : StepBuffer) (channel : Channel) (time delta : Int) :
    StepBuffer :=
  if out.accepts time then out.put time ((board.mix.scale channel).apply delta) else out

/-- A session of the board's chip. -/
def session (board : Board) : Session := { chip := board.chip, bus := board.bus }

/-- Takes over what a session did: the steps of the channels that are not muted go to the output and
the notices to the listener. -/
def conclude (board : Board) (out : StepBuffer) (session : Session) : Board × StepBuffer :=
  let out := session.steps.foldl
    (fun out { channel, step } =>
      if board.muted.get channel then out else board.deliver out channel step.time step.delta)
    out
  ({ board with chip := session.chip, bus := session.bus }.hear session.notices, out)

/-- Refuses a time before the one to which the chip has run, and one past the horizon. -/
def checkTime (board : Board) (out : StepBuffer) (time : Int) : Except Fault Unit :=
  if time < board.chip.time then .error (.timeRegression time board.chip.time)
  else if out.frameCapacity < time then .error (.frameOverflow time out.frameCapacity)
  else .ok ()

/-- Writes a register at `time`. -/
def write (board : Board) (out : StepBuffer) (time : Int) (address : UInt16) (value : UInt8) :
    Except Fault (Board × StepBuffer) :=
  (board.checkTime out time).map fun _ =>
    board.conclude out (board.session.write time address value)

/-- Reads the status at `time`, which clears the frame interrupt. -/
def readStatus (board : Board) (out : StepBuffer) (time : Int) :
    Except Fault (Status × Board × StepBuffer) :=
  (board.checkTime out time).map fun _ =>
    let (status, session) := board.session.readStatus time
    (status, board.conclude out session)

/-- Ends the frame of the chip at `time`.  The frame of the output is left open. -/
def endFrame (board : Board) (out : StepBuffer) (time : Int) : Except Fault (Board × StepBuffer) :=
  (board.checkTime out time).map fun _ => board.conclude out (board.session.endFrame time)

/-- Switches a channel off or on.  The level that it holds is taken from the output or given back. -/
def setMuted (board : Board) (out : StepBuffer) (position : Nat) (muted : Bool) :
    Except Fault (Board × StepBuffer) :=
  match Channel.ofIndex? position with
  | none =>
    .error (.invalidConfiguration
      s!"channel index {position} out of range (0-{Channel.count - 1})")
  | some channel =>
    if board.muted.get channel = muted then .ok (board, out)
    else
      let level := board.chip.level channel
      let delta := if muted then -level else level
      let out := if delta = 0 then out else board.deliver out channel board.chip.time delta
      .ok ({ board with muted := board.muted.set channel muted }, out)

/-- Whether the channel at a position is switched off. -/
def isMuted (board : Board) (position : Nat) : Bool :=
  match Channel.ofIndex? position with
  | some channel => board.muted.get channel
  | none => false

/-- The level of the channel at a position. -/
def level (board : Board) (position : Nat) : Int :=
  match Channel.ofIndex? position with
  | some channel => board.chip.level channel
  | none => 0

/-- Puts the chip back to its power-on state.  Volume, switches and listener stay. -/
def reset (board : Board) : Board :=
  let (chip, notices) := board.chip.reset
  { board with chip }.hear notices

/-- Collects the processor cycles taken by fetches since the last time. -/
def takeStall (board : Board) : UInt32 × Board :=
  let (stall, dmc) := board.chip.dmc.takeStall
  (stall, { board with chip := { board.chip with dmc } })

end Board

end Chiptune

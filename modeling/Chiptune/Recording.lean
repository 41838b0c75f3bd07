import Chiptune.Console
import Chiptune.Json.Decode
import Chiptune.Json.Text

/-! Recordings of register writes: the frames of a tune, each with its writes and its end.  A
recording is kept as JSON text, checked for the order of its writes, and played into a console. -/

namespace Chiptune

/-- A write of `value` to the register at `address`, at clock `time` of its frame. -/
structure RegisterWrite where
  time : UInt32
  address : UInt16
  value : UInt8
  deriving DecidableEq, Repr

/-- The writes of one frame and the clock at which it ends. -/
structure RecordedFrame where
  endTime : UInt32
  writes : List RegisterWrite := []
  deriving DecidableEq, Repr

/-- The frames of a tune. -/
structure Recording where
  frames : List RecordedFrame := []
  deriving DecidableEq, Repr

/-! ### Order -/

namespace RecordedFrame

/-- Checks that no write comes before `last`, before an earlier write or after the end of the frame,
which is number `index` of its recording. -/
def checkWrites (index : Nat) (endTime : UInt32) :
    (last : UInt32) → List RegisterWrite → Except Fault Unit
  | _, [] => .ok ()
  | last, write :: rest =>
    if write.time < last then
      .error (.invalidRecording s!"frame {index}: write at {write.time} precedes {last}")
    else if endTime < write.time then
      .error (.invalidRecording
        s!"frame {index}: write at {write.time} after frame end {endTime}")
    else checkWrites index endTime write.time rest

/-- Checks the order of a frame's writes. -/
def validate (frame : RecordedFrame) (index : Nat) : Except Fault Unit :=
  checkWrites index frame.endTime 0 frame.writes

end RecordedFrame

namespace Recording

/-- Adds a frame at the end. -/
def push (recording : Recording) (frame : RecordedFrame) : Recording :=
  { frames := recording.frames ++ [frame] }

/-- The number of frames. -/
def length (recording : Recording) : Nat := recording.frames.length

/-- Whether there are no frames. -/
def isEmpty (recording : Recording) : Bool := recording.frames.isEmpty

/-- The clocks of all frames together. -/
def totalClocks (recording : Recording) : Nat :=
  recording.frames.foldl (fun clocks frame => clocks + frame.endTime.toNat) 0

/-- Checks the frames from number `index` on. -/
def checkFrames (index : Nat) : List RecordedFrame → Except Fault Unit
  | [] => .ok ()
  | frame :: rest =>
    match frame.validate index with
    | .ok _ => checkFrames (index + 1) rest
    | .error fault => .error fault

/-- Checks the order of the writes in every frame. -/
def validate (recording : Recording) : Except Fault Unit := checkFrames 0 recording.frames

/-! ### JSON -/

/-- A whole number as a JSON value. -/
def natJson (n : Nat) : Json := .number (.ofNat n)

/-- A member of an object. -/
def member (name : String) (json : Json) : Option String × Json := (some name, json)

/-- A write as a JSON value. -/
def writeJson (write : RegisterWrite) : Json :=
  .object [member "time" (natJson write.time.toNat), member "addr" (natJson write.address.toNat),
    member "value" (natJson write.value.toNat)]

/-- A frame as a JSON value. -/
def frameJson (frame : RecordedFrame) : Json :=
  .object [member "end_time" (natJson frame.endTime.toNat),
    member "writes" (.array (frame.writes.map writeJson))]

/-- A recording as a JSON value. -/
def json (recording : Recording) : Json :=
  .object [member "frames" (.array (recording.frames.map frameJson))]

/-- The compact JSON text of a recording. -/
def text (recording : Recording) : String := recording.json.text

/-- A write from a JSON value. -/
def write? (json : Json) : Option RegisterWrite := do
  match ← json.fields? ["time", "addr", "value"] with
  | [time, address, value] =>
    return {
      time := .ofNat (← Json.required (Json.nat? (twoTo 32)) time)
      address := .ofNat (← Json.required (Json.nat? (twoTo 16)) address)
      value := .ofNat (← Json.required (Json.nat? (twoTo 8)) value) }
  | _ => none

/-- A frame from a JSON value.  The writes may be missing. -/
def frame? (json : Json) : Option RecordedFrame := do
  match ← json.fields? ["end_time", "writes"] with
  | [endTime, writes] =>
    return {
      endTime := .ofNat (← Json.required (Json.nat? (twoTo 32)) endTime)
      writes := ← Json.optional [] (Json.list? write?) writes }
  | _ => none

/-- A recording from a JSON value. -/
def ofJson? (json : Json) : Option Recording := do
  match ← json.fields? ["frames"] with
  | [frames] => return { frames := ← Json.required (Json.list? frame?) frames }
  | _ => none

/-- Reads a recording from a JSON text and checks it. -/
def ofText (text : String) : Except Fault Recording :=
  match (Json.ofText? text).bind ofJson? with
  | none => .error .malformedText
  | some recording => recording.validate.map fun _ => recording

/-! ### Playing

Playing stops at the first fault and leaves the console as it is then. -/

/-- Makes writes one after the other. -/
def playWrites (console : Console) : List RegisterWrite → Console × Except Fault Unit
  | [] => (console, .ok ())
  | write :: rest =>
    match console.write write.time.toNat write.address write.value with
    | .ok console => playWrites console rest
    | .error fault => (console, .error fault)

/-- Plays a frame and adds all its samples to `samples`. -/
def playFrame (console : Console) (frame : RecordedFrame) (samples : Array Int16) :
    Console × Except Fault (Array Int16) :=
  match playWrites console frame.writes with
  | (console, .error fault) => (console, .error fault)
  | (console, .ok _) =>
    match console.runFrame frame.endTime.toNat console.configuration.blockSize with
    | .error fault => (console, .error fault)
    | .ok (block, console) =>
      let (samples, console) := console.drain (samples ++ block)
      (console, .ok samples)

/-- Plays frames one after the other and adds their samples to `samples`. -/
def playFrames (console : Console) (samples : Array Int16) :
    List RecordedFrame → Console × Except Fault (Array Int16)
  | [] => (console, .ok samples)
  | frame :: rest =>
    match playFrame console frame samples with
    | (console, .ok samples) => playFrames console samples rest
    | (console, .error fault) => (console, .error fault)

/-- Plays a recording and gives its samples. -/
def play (recording : Recording) (console : Console) : Console × Except Fault (Array Int16) :=
  playFrames console #[] recording.frames

end Recording

end Chiptune

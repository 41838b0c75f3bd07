/-! Everything that can go wrong, as causes.  `Fault.message` gives the wording of each cause. -/

namespace Chiptune

/-- The reason why an operation was refused. -/
inductive Fault where
  /-- A setting that the console cannot work with. -/
  | invalidConfiguration (reason : String)
  /-- A time before one that was already accepted in the same frame. -/
  | timeRegression (time last : Int)
  /-- A time later than the output buffer can hold in this frame. -/
  | frameOverflow (time capacity : Int)
  /-- A text that does not have the form of a configuration or of a recording. -/
  | malformedText
  /-- A recording whose writes are out of order. -/
  | invalidRecording (reason : String)
  /-- A wave file that could not be written. -/
  | audioFile (reason : String)
  /-- A failure of the file system. -/
  | fileSystem (reason : String)
  /-- Any other failure. -/
  | other (reason : String)
  deriving DecidableEq, Repr

namespace Fault

/-- The text shown to a user. -/
def message : Fault → String
  | invalidConfiguration reason => s!"Invalid configuration: {reason}"
  | timeRegression time last => s!"Time {time} precedes last accepted time {last}"
  | frameOverflow time capacity =>
    s!"Time {time} exceeds the buffer horizon of {capacity} clocks"
  | malformedText => "Parse error"
  | invalidRecording reason => s!"Parse error: {reason}"
  | audioFile reason => s!"Audio file write error: {reason}"
  | fileSystem reason => s!"IO error: {reason}"
  | other reason => reason

end Fault

end Chiptune

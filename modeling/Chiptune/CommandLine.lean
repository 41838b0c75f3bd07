import Chiptune.Disk
import Chiptune.Recording.Demo
import Chiptune.WaveFile

/-! The command line: it renders the demo tune or a recording to a wave file.  What a run does is a
function of its arguments and of the texts of the files that it reads. -/

namespace Chiptune.CommandLine

/-- How the program is used. -/
def usage : String := "Usage:
  nes-apu [options] demo <out.wav>
  nes-apu [options] render <log.json> <out.wav>

Options:
  --sample-rate <N>    Output sample rate in Hz (default 44100)
  --pal                PAL timing (default NTSC)
  --config <file>      Load an ApuConfig from JSON; other options override it
  -h, --help           Show this help

Set RUST_LOG=debug for engine diagnostics."

/-! ### Failures -/

/-- Why a text is no whole number of 32 bits. -/
inductive NumberError where
  | empty
  | invalidDigit
  | tooLarge
  deriving DecidableEq, Repr

/-- The text shown to a user. -/
def NumberError.message : NumberError → String
  | empty => "cannot parse integer from empty string"
  | invalidDigit => "invalid digit found in string"
  | tooLarge => "number too large to fit in target type"

/-- Why a run fails. -/
inductive Failure where
  | missingSampleRate
  | badSampleRate (text : String) (reason : NumberError)
  | missingConfiguration
  | unknownFlag (flag : String)
  | noCommand
  | unreadableConfiguration (path : String) (reason : DiskError)
  | unreadableRecording (path : String) (reason : DiskError)
  | fault (fault : Fault)
  deriving DecidableEq, Repr

namespace Failure

/-- What is wrong. -/
def summary : Failure → String
  | missingSampleRate => "--sample-rate requires a value"
  | badSampleRate text _ => s!"invalid sample rate '{text}'"
  | missingConfiguration => "--config requires a file"
  | unknownFlag flag => s!"unknown flag {flag}"
  | noCommand => "expected a command"
  | unreadableConfiguration path _ => s!"failed to read config '{path}'"
  | unreadableRecording path _ => s!"failed to read log '{path}'"
  | fault f => f.message

/-- The error behind a failure. -/
def cause? : Failure → Option String
  | badSampleRate _ reason => some reason.message
  | unreadableConfiguration _ reason => some reason.message
  | unreadableRecording _ reason => some reason.message
  | _ => none

/-- What is printed before the failure itself. -/
def preamble : Failure → String
  | unknownFlag flag => s!"Unknown flag: {flag}\n{usage}\n"
  | noCommand => s!"{usage}\n"
  | _ => ""

/-- What is printed on the error stream. -/
def text (failure : Failure) : String :=
  let cause :=
    match failure.cause? with
    | some cause => s!"\n\nCaused by:\n    {cause}"
    | none => ""
  s!"{failure.preamble}Error: {failure.summary}{cause}\n"

end Failure

/-! ### Arguments -/

/-- What is to be played, and the path of the file to be written. -/
inductive Command where
  | demo (output : String)
  | render (recording output : String)
  deriving DecidableEq, Repr

/-- The path of the file that a command writes. -/
def Command.output : Command → String
  | demo output => output
  | render _ output => output

/-- The options and the other arguments, as far as they are read. -/
structure Options where
  sampleRate : Option Nat := none
  pal : Bool := false
  configuration : Option String := none
  arguments : List String := []
  deriving DecidableEq, Repr

/-- What the arguments ask for. -/
inductive Request where
  | help
  | run (options : Options) (command : Command)
  deriving DecidableEq, Repr

/-- Reads decimal digits into `value`. -/
def readDigits (value : Nat) : List Char → Except NumberError Nat
  | [] => .ok value
  | c :: rest =>
    if !c.isDigit then .error .invalidDigit
    else
      let value := value * 10 + Json.digitValue c
      if twoTo 32 ≤ value then .error .tooLarge else readDigits value rest

/-- Reads a whole number of 32 bits, which may have a plus sign. -/
def readNumber (text : String) : Except NumberError Nat :=
  match text.toList with
  | [] => .error .empty
  | ['+'] => .error .invalidDigit
  | '+' :: digits => readDigits 0 digits
  | digits => readDigits 0 digits

/-- Sets the sample rate. -/
def Options.setSampleRate (options : Options) (text : String) : Except Failure Options :=
  match readNumber text with
  | .ok rate => .ok { options with sampleRate := some rate }
  | .error reason => .error (.badSampleRate text reason)

/-- The command that the other arguments make. -/
def Command.ofArguments? : List String → Option Command
  | ["demo", output] => some (demo output)
  | ["render", recording, output] => some (render recording output)
  | _ => none

/-- The option that takes the sample rate after an equals sign. -/
def sampleRateOption : String := "--sample-rate="

/-- Reads the arguments one after the other.  Help and failures end the reading. -/
def readArguments (options : Options) : List String → Except Failure Request
  | [] =>
    match Command.ofArguments? options.arguments with
    | some command => .ok (.run options command)
    | none => .error .noCommand
  | "--help" :: _ => .ok .help
  | "-h" :: _ => .ok .help
  | "--pal" :: rest => readArguments { options with pal := true } rest
  | ["--sample-rate"] => .error .missingSampleRate
  | "--sample-rate" :: value :: rest =>
    match options.setSampleRate value with
    | .ok options => readArguments options rest
    | .error failure => .error failure
  | ["--config"] => .error .missingConfiguration
  | "--config" :: path :: rest => readArguments { options with configuration := some path } rest
  | argument :: rest =>
    if argument.startsWith sampleRateOption then
      match options.setSampleRate (argument.drop sampleRateOption.length).toString with
      | .ok options => readArguments options rest
      | .error failure => .error failure
    else if argument.startsWith "-" then .error (.unknownFlag argument)
    else readArguments { options with arguments := options.arguments ++ [argument] } rest

/-! ### Rendering -/

/-- The settings of a run: those of the file, if there is one, with the region and the sample rate of
the options. -/
def settings (options : Options) (files : String → Except DiskError String) :
    Except Failure Configuration := do
  let configuration ←
    match options.configuration with
    | none => pure Configuration.standard
    | some path =>
      let text ← (files path).mapError (.unreadableConfiguration path)
      (Configuration.ofText text).mapError .fault
  let configuration :=
    if options.pal then { configuration with clockRate := Region.pal.clockRate, region := .pal }
    else configuration
  return { configuration with sampleRate := options.sampleRate.getD configuration.sampleRate }

/-- The recording that a command plays. -/
def recording (command : Command) (region : Region) (files : String → Except DiskError String) :
    Except Failure Recording :=
  match command with
  | .demo _ => .ok (.demo region)
  | .render path _ => do
    let text ← (files path).mapError (.unreadableRecording path)
    (Recording.ofText text).mapError .fault

/-- What a run has rendered. -/
structure Rendering where
  path : String
  frames : Nat
  samples : Array Int16
  sampleRate : Nat

namespace Rendering

/-- The wave file. -/
def file (rendering : Rendering) : ByteArray :=
  WaveFile.bytes rendering.samples rendering.sampleRate

/-- The length in seconds, to two places. -/
def seconds (rendering : Rendering) : String :=
  Decimal.fixed 2 (rendering.samples.size.toFloat / rendering.sampleRate.toFloat)

/-- The report of a run, up to the time that it took. -/
def report (rendering : Rendering) : String :=
  let { path, frames, samples, .. } := rendering
  s!"Rendered {frames} frames to {path} ({samples.size} samples, {rendering.seconds}s of audio)"

/-- The failure to write the wave file. -/
def unwritable (reason : DiskError) : Failure :=
  .fault (.audioFile s!"Failed to create WAV file: {reason.message}")

end Rendering

/-- Plays what a run asks for. -/
def render (options : Options) (command : Command) (files : String → Except DiskError String) :
    Except Failure Rendering := do
  let configuration ← settings options files
  let recording ← recording command configuration.region files
  let console ← (Console.create (.ofMemory Recording.Demo.sampleByte) configuration).mapError .fault
  let samples ← (recording.play console).2.mapError .fault
  return {
    path := command.output
    frames := recording.length
    samples
    sampleRate := configuration.sampleRate }

/-! ### Runs -/

/-- How a run ends. -/
inductive Outcome where
  | help
  | rendered (rendering : Rendering)
  | failed (failure : Failure)

namespace Outcome

/-- The exit code. -/
def exitCode : Outcome → Nat
  | failed _ => 1
  | _ => 0

/-- What is printed on the output stream, but for the end of a report. -/
def output : Outcome → String
  | help => usage ++ "\n"
  | rendered rendering => rendering.report
  | failed _ => ""

/-- What is printed on the error stream. -/
def errors : Outcome → String
  | failed failure => failure.text
  | _ => ""

end Outcome

/-- The request that the arguments make, or the failure. -/
def request (arguments : List String) : Except Failure Request := readArguments {} arguments

/-- The paths of the files that a run may read. -/
def inputs (arguments : List String) : List String :=
  match request arguments with
  | .ok (.run options (.demo _)) => options.configuration.toList
  | .ok (.run options (.render path _)) => options.configuration.toList ++ [path]
  | _ => []

/-- What a run does, up to the writing of the wave file. -/
def run (arguments : List String) (files : String → Except DiskError String) : Outcome :=
  match request arguments with
  | .error failure => .failed failure
  | .ok .help => .help
  | .ok (.run options command) =>
    match render options command files with
    | .ok rendering => .rendered rendering
    | .error failure => .failed failure

/-- The text of a file on a disk. -/
def readText (disk : Disk ByteArray) (path : String) : Except DiskError String := do
  let bytes ← disk.read path
  match String.fromUTF8? bytes with
  | some text => .ok text
  | none => .error .notText

/-- A run on a disk, and the disk after it. -/
def runOn (disk : Disk ByteArray) (arguments : List String) : Outcome × Disk ByteArray :=
  match run arguments (readText disk) with
  | .rendered rendering =>
    match disk.write rendering.path rendering.file with
    | .ok written => (.rendered rendering, written)
    | .error reason => (.failed (Rendering.unwritable reason), disk)
  | outcome => (outcome, disk)

end Chiptune.CommandLine

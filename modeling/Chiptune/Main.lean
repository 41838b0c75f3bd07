import Chiptune.CommandLine

/-! The program: it reads the files that a run asks for, writes the wave file and prints the report. -/

namespace Chiptune

/-- What the number of an error of the system means.  Some errors come with the number negated. -/
def DiskError.ofNumber (text : String) (number : UInt32) : DiskError :=
  match number.toInt32.toInt.natAbs with
  | 2 => .notFound
  | 20 => .notFolder
  | 21 => .isFolder
  | 36 => .nameTooLong
  | number => .system text number

/-- What an error of the file system means. -/
def DiskError.ofError : IO.Error → DiskError
  | .noFileOrDirectory _ number text => .ofNumber text number
  | .inappropriateType _ number text => .ofNumber text number
  | .permissionDenied _ number text => .ofNumber text number
  | .invalidArgument _ number text => .ofNumber text number
  | .resourceExhausted _ number text => .ofNumber text number
  | .alreadyExists _ number text => .ofNumber text number
  | .noSuchThing _ number text => .ofNumber text number
  | .interrupted _ number text => .ofNumber text number
  | .resourceBusy number text => .ofNumber text number
  | .resourceVanished number text => .ofNumber text number
  | .unsupportedOperation number text => .ofNumber text number
  | .unsatisfiedConstraints number text => .ofNumber text number
  | .illegalOperation number text => .ofNumber text number
  | .hardwareFault number text => .ofNumber text number
  | .protocolError number text => .ofNumber text number
  | .timeExpired number text => .ofNumber text number
  | .otherError number text => .ofNumber text number
  | error => .system (toString error) 0

/-- Reads the text of a file. -/
def readFile (path : String) : IO (Except DiskError String) := do
  match ← (IO.FS.readBinFile path).toBaseIO with
  | .error error => return .error (.ofError error)
  | .ok bytes =>
    match String.fromUTF8? bytes with
    | some text => return .ok text
    | none => return .error .notText

/-- A time in milliseconds with one place. -/
def milliseconds (nanoseconds : Nat) : String :=
  let tenths := roundDiv .even nanoseconds 100000
  s!"{tenths / 10}.{tenths % 10}"

/-- Prints the failure of a run. -/
def fail (failure : CommandLine.Failure) : IO UInt32 := do
  IO.eprint failure.text
  return 1

/-- Runs the program and gives its exit code. -/
def program (arguments : List String) : IO UInt32 := do
  let started ← IO.monoNanosNow
  let files ← (CommandLine.inputs arguments).mapM fun path => return (path, ← readFile path)
  let lookUp path := (files.lookup path).getD (.error .notFound)
  match CommandLine.run arguments lookUp with
  | .failed failure => fail failure
  | .help =>
    IO.print CommandLine.Outcome.help.output
    return 0
  | .rendered rendering =>
    match ← (IO.FS.writeBinFile rendering.path rendering.file).toBaseIO with
    | .error error => fail (CommandLine.Rendering.unwritable (.ofError error))
    | .ok _ =>
      let elapsed := (← IO.monoNanosNow) - started
      IO.println s!"{rendering.report} in {milliseconds elapsed} ms"
      return 0

end Chiptune

/-- The program. -/
def main (arguments : List String) : IO UInt32 := Chiptune.program arguments

/-! Paths: how a text names a file or a folder. -/

namespace Chiptune

/-- Why a file could not be read or written. -/
inductive DiskError where
  /-- There is no such file, or no such folder to hold it. -/
  | notFound
  /-- A file is used as a folder. -/
  | notFolder
  /-- A folder is used as a file. -/
  | isFolder
  /-- A path, or a name in it, is longer than any may be. -/
  | nameTooLong
  /-- A path holds a zero byte, which no name may hold. -/
  | zeroInPath
  /-- The contents are no text. -/
  | notText
  /-- Another error of the system, with its text and number. -/
  | system (text : String) (number : Nat)
  deriving DecidableEq, Repr

namespace DiskError

/-- The text shown to a user. -/
def message : DiskError → String
  | notFound => "No such file or directory (os error 2)"
  | notFolder => "Not a directory (os error 20)"
  | isFolder => "Is a directory (os error 21)"
  | nameTooLong => "File name too long (os error 36)"
  | zeroInPath => "file name contained an unexpected NUL byte"
  | notText => "stream did not contain valid UTF-8"
  | system text number => s!"{text} (os error {number})"

end DiskError

/-- A path.  It starts at the root if it is `absolute`, and else at the working folder.  From there
it enters the folders of `way` one after the other, and it ends with the name `last`, which may be
followed by a slash. -/
structure Path where
  absolute : Bool
  way : List String
  last : String
  slash : Bool
  deriving DecidableEq, Repr

namespace Path

/-- The number of bytes from which on a path is too long. -/
def tooLong : Nat := 4096

/-- The number of bytes that a name may have. -/
def maxName : Nat := 255

/-- Whether a name has more bytes than it may have. -/
def isLongName (name : String) : Bool := maxName < name.utf8ByteSize

/-- The path that a text writes down.  Slashes that follow each other count as one, and slashes alone
lead to the root. -/
def ofText (text : String) : Except DiskError Path :=
  if text.toList.contains '\x00' then .error .zeroInPath
  else if text = "" then .error .notFound
  else if tooLong ≤ text.utf8ByteSize then .error .nameTooLong
  else
    let names := (text.splitOn "/").filter (· ≠ "")
    .ok {
      absolute := text.startsWith "/"
      way := names.dropLast
      last := names.getLastD "."
      slash := text.endsWith "/" }

/-- Whether the last name leads to a folder that is already on the way. -/
def endsInDots (path : Path) : Bool := path.last = "." || path.last = ".."

end Path

end Chiptune

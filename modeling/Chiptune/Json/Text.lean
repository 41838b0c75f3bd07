import Chiptune.Json.Basic

/-! The compact text of a JSON value: no blanks, and the members of an object in their order. -/

namespace Chiptune.Json

/-- The four hexadecimal digits of a code. -/
def hexDigits (code : Nat) : List Char :=
  [code / 4096 % 16, code / 256 % 16, code / 16 % 16, code % 16].map Nat.digitChar

/-- A character within quotation marks. -/
def quoteChar (c : Char) : List Char :=
  match c with
  | '"' => ['\\', '"']
  | '\\' => ['\\', '\\']
  | '\x08' => ['\\', 'b']
  | '\x0c' => ['\\', 'f']
  | '\n' => ['\\', 'n']
  | '\r' => ['\\', 'r']
  | '\t' => ['\\', 't']
  | c => if c.toNat < 0x20 then '\\' :: 'u' :: hexDigits c.toNat else [c]

/-- A text within quotation marks. -/
def quote (text : String) : String :=
  String.ofList ('"' :: text.toList.flatMap quoteChar ++ ['"'])

mutual

/-- Adds the text of a value to `out`. -/
def write (out : String) : Json → String
  | .null => out ++ "null"
  | .bool b => out ++ if b then "true" else "false"
  | .number n => out ++ String.ofList n.chars
  | .string contents => out ++ quote (contents.getD "")
  | .array items => writeItems (out.push '[') true items |>.push ']'
  | .object members => writeMembers (out.push '\x7b') true members |>.push '\x7d'

/-- Adds the items of an array, with a comma before each but the first. -/
def writeItems (out : String) (first : Bool) : List Json → String
  | [] => out
  | json :: rest => writeItems (write (if first then out else out.push ',') json) false rest

/-- Adds the members of an object, with a comma before each but the first. -/
def writeMembers (out : String) (first : Bool) : List (Option String × Json) → String
  | [] => out
  | (name, json) :: rest =>
    let out := if first then out else out.push ','
    writeMembers (write (out ++ quote (name.getD "") ++ ":") json) false rest

end

/-- The compact text of a value. -/
def text (json : Json) : String := json.write ""

end Chiptune.Json

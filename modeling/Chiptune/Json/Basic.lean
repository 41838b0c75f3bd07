import Chiptune.Json.Token

/-! JSON values, and how they are put together from tokens.  The reader keeps the open arrays and
objects on a stack, so a text may be nested to any depth. -/

namespace Chiptune

/-- A JSON value.  Members of an object stay in the order of the text, and a name may occur twice. -/
inductive Json where
  | null
  | bool (b : Bool)
  | number (number : Json.Number)
  | string (contents : Option String)
  | array (items : List Json)
  | object (members : List (Option String × Json))
  deriving Repr

namespace Json

/-- An array or object that is still open, with what it holds so far in reverse.  The last name of an
object is the one whose value is being read. -/
inductive Frame where
  | array (items : List Json)
  | object (members : List (Option String × Json)) (name : Option String)

/-- What may come next. -/
inductive Expected where
  /-- A value. -/
  | value
  /-- A value, or the end of the array just opened. -/
  | valueOrEnd
  /-- The name of a member. -/
  | name
  /-- The name of a member, or the end of the object just opened. -/
  | nameOrEnd
  /-- The colon after a name. -/
  | colon
  /-- A comma, or the end of the innermost array or object. -/
  | separator
  /-- Nothing: the value is complete. -/
  | nothing (json : Json)

/-- The open arrays and objects, innermost first, and what may come next. -/
structure Reader where
  frames : List Frame := []
  expected : Expected := .value

namespace Reader

/-- Takes a complete value. -/
def accept (frames : List Frame) (json : Json) : Reader :=
  match frames with
  | [] => { expected := .nothing json }
  | .array items :: frames => { frames := .array (json :: items) :: frames, expected := .separator }
  | .object members name :: frames =>
    { frames := .object ((name, json) :: members) name :: frames, expected := .separator }

/-- Takes the first token of a value. -/
def value? (frames : List Frame) : Token → Option Reader
  | .null => some (accept frames .null)
  | .bool b => some (accept frames (.bool b))
  | .number n => some (accept frames (.number n))
  | .string contents => some (accept frames (.string contents))
  | .openBracket => some { frames := .array [] :: frames, expected := .valueOrEnd }
  | .openBrace => some { frames := .object [] none :: frames, expected := .nameOrEnd }
  | _ => none

/-- Closes the innermost array or object. -/
def close? (frames : List Frame) (token : Token) : Option Reader :=
  match frames, token with
  | .array items :: frames, .closeBracket => some (accept frames (.array items.reverse))
  | .object members _ :: frames, .closeBrace => some (accept frames (.object members.reverse))
  | _, _ => none

/-- Takes the name of a member. -/
def name? (frames : List Frame) (token : Token) : Option Reader :=
  match frames, token with
  | .object members _ :: frames, .string name =>
    some { frames := .object members name :: frames, expected := .colon }
  | _, _ => none

/-- Goes on after a comma. -/
def next? : List Frame → Option Reader
  | .array items :: frames => some { frames := .array items :: frames, expected := .value }
  | .object members name :: frames =>
    some { frames := .object members name :: frames, expected := .name }
  | [] => none

/-- Takes a token. -/
def step? (reader : Reader) (token : Token) : Option Reader :=
  match reader.expected with
  | .value => value? reader.frames token
  | .valueOrEnd => value? reader.frames token <|> close? reader.frames token
  | .name => name? reader.frames token
  | .nameOrEnd => name? reader.frames token <|> close? reader.frames token
  | .colon => if token = .colon then some { reader with expected := .value } else none
  | .separator => if token = .comma then next? reader.frames else close? reader.frames token
  | .nothing _ => none

/-- The value, once the tokens have ended. -/
def finish? (reader : Reader) : Option Json :=
  match reader.expected with
  | .nothing json => some json
  | _ => none

end Reader

/-- The value that a list of tokens makes. -/
def ofTokens? (tokens : List Token) : Option Json :=
  (tokens.foldlM Reader.step? {}).bind Reader.finish?

/-- The value that a text holds. -/
def ofText? (text : String) : Option Json := (Token.ofText? text).bind ofTokens?

end Json

end Chiptune

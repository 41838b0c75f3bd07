import Chiptune.Json.Number

/-! The tokens of a JSON text, read one character at a time. -/

namespace Chiptune.Json

/-- A token.  A string has no contents if it holds one half of a surrogate pair without the other,
which is well formed but names no text. -/
inductive Token where
  | openBrace
  | closeBrace
  | openBracket
  | closeBracket
  | colon
  | comma
  | string (contents : Option String)
  | number (number : Number)
  | null
  | bool (b : Bool)
  deriving DecidableEq, Repr

/-! ### Strings -/

/-- Where the reading of a string stands with respect to escapes. -/
inductive Escape where
  /-- Not within an escape. -/
  | outside
  /-- After a backslash. -/
  | begun
  /-- After `\u` and some digits, which make `code`. -/
  | unicode (digits code : Nat)
  deriving DecidableEq, Repr

/-- A string that is being read.  `contents` holds its characters in reverse, and `high` is the first
half of a surrogate pair that waits for the second. -/
structure Quoted where
  contents : Option (List Char) := some []
  high : Option Nat := none
  escape : Escape := .outside
  deriving DecidableEq, Repr

namespace Quoted

/-- Whether a code is the first half of a surrogate pair. -/
def isHigh (code : Nat) : Bool := 0xD800 ≤ code && code < 0xDC00

/-- Whether a code is the second half of a surrogate pair. -/
def isLow (code : Nat) : Bool := 0xDC00 ≤ code && code < 0xE000

/-- Adds a character. -/
def addChar (quoted : Quoted) (c : Char) : Quoted :=
  match quoted.high with
  | none => { contents := quoted.contents.map (c :: ·) }
  | some _ => { contents := none }

/-- Adds a code of sixteen bits. -/
def addCode (quoted : Quoted) (code : Nat) : Quoted :=
  match quoted.high with
  | some high =>
    if isLow code then
      { quoted with high := none, escape := .outside }.addChar
        (Char.ofNat (0x10000 + (high - 0xD800) * 0x400 + (code - 0xDC00)))
    else { contents := none }
  | none =>
    if isHigh code then { quoted with high := some code, escape := .outside }
    else if isLow code then { contents := none }
    else quoted.addChar (Char.ofNat code)

/-- The value of a hexadecimal digit. -/
def hexValue? (c : Char) : Option Nat :=
  if c.isDigit then some (c.toNat - '0'.toNat)
  else if 'a' ≤ c ∧ c ≤ 'f' then some (c.toNat - 'a'.toNat + 10)
  else if 'A' ≤ c ∧ c ≤ 'F' then some (c.toNat - 'A'.toNat + 10)
  else none

/-- The character that an escape of one letter stands for. -/
def escaped? : Char → Option Char
  | '"' => some '"'
  | '\\' => some '\\'
  | '/' => some '/'
  | 'b' => some '\x08'
  | 'f' => some '\x0c'
  | 'n' => some '\n'
  | 'r' => some '\r'
  | 't' => some '\t'
  | _ => none

/-- Reads a character that does not close the string. -/
def step? (quoted : Quoted) (c : Char) : Option Quoted :=
  match quoted.escape with
  | .outside =>
    if c = '\\' then some { quoted with escape := .begun }
    else if c.toNat < 0x20 then none
    else some (quoted.addChar c)
  | .begun =>
    if c = 'u' then some { quoted with escape := .unicode 0 0 }
    else (escaped? c).map quoted.addChar
  | .unicode digits code =>
    (hexValue? c).map fun value =>
      if digits = 3 then quoted.addCode (code * 16 + value)
      else { quoted with escape := .unicode (digits + 1) (code * 16 + value) }

/-- The contents of the string once it is closed. -/
def text? (quoted : Quoted) : Option String :=
  match quoted.high with
  | none => quoted.contents.map fun chars => String.ofList chars.reverse
  | some _ => none

end Quoted

/-! ### Reading tokens -/

/-- The token that is being read. -/
inductive Pending where
  | nothing
  | word (letters : List Char)
  | number (chars : List Char)
  | string (quoted : Quoted)
  deriving DecidableEq, Repr

/-- The tokens read so far, the last one first, and the one that is being read. -/
structure Lexer where
  tokens : List Token := []
  current : Pending := .nothing
  deriving DecidableEq, Repr

namespace Lexer

/-- The words of the format. -/
def word? (letters : List Char) : Option Token :=
  if letters = "null".toList then some .null
  else if letters = "true".toList then some (.bool true)
  else if letters = "false".toList then some (.bool false)
  else none

/-- Whether a character separates tokens. -/
def isBlank (c : Char) : Bool := c ∈ [' ', '\t', '\n', '\r']

/-- The token that a single character makes. -/
def single? : Char → Option Token
  | '\x7b' => some .openBrace
  | '\x7d' => some .closeBrace
  | '[' => some .openBracket
  | ']' => some .closeBracket
  | ':' => some .colon
  | ',' => some .comma
  | _ => none

/-- Reads the first character of a token. -/
def start? (tokens : List Token) (c : Char) : Option Lexer :=
  if isBlank c then some { tokens }
  else
    match single? c with
    | some token => some { tokens := token :: tokens }
    | none =>
      if c = '"' then some { tokens, current := .string {} }
      else if c = '-' ∨ c.isDigit then some { tokens, current := .number [c] }
      else if c.isAlpha then some { tokens, current := .word [c] }
      else none

/-- Reads a character. -/
def step? (lexer : Lexer) (c : Char) : Option Lexer :=
  match lexer.current with
  | .nothing => start? lexer.tokens c
  | .word letters =>
    if c.isAlpha then some { lexer with current := .word (c :: letters) }
    else (word? letters.reverse).bind fun token => start? (token :: lexer.tokens) c
  | .number chars =>
    if Number.isPart c then some { lexer with current := .number (c :: chars) }
    else
      (Number.ofChars? chars.reverse).bind fun number =>
        start? (.number number :: lexer.tokens) c
  | .string quoted =>
    if c = '"' ∧ quoted.escape = .outside then
      some { tokens := .string quoted.text? :: lexer.tokens }
    else (quoted.step? c).map fun quoted => { lexer with current := .string quoted }

/-- The tokens once the text has ended, the first one first. -/
def finish? (lexer : Lexer) : Option (List Token) :=
  match lexer.current with
  | .nothing => some lexer.tokens.reverse
  | .word letters => (word? letters.reverse).map fun token => (token :: lexer.tokens).reverse
  | .number chars =>
    (Number.ofChars? chars.reverse).map fun number => (.number number :: lexer.tokens).reverse
  | .string _ => none

end Lexer

/-- The tokens of a text. -/
def Token.ofText? (text : String) : Option (List Token) :=
  (text.toList.foldlM Lexer.step? {}).bind Lexer.finish?

end Chiptune.Json

import Chiptune.Json.Text
import Mathlib.Data.List.Basic
import Mathlib.Data.List.TakeWhile

/-! A value that is written down is read back.  The text of a value makes its `tokens`, whatever
stands before it (`makes_write`), and the tokens make the value, whatever arrays and objects are
open around it (`Reader.reads`).  Both go by the parts of a value that has a text (`Written`). -/

namespace Chiptune.Json

/-- The values that have a text: numbers are whole, and strings and names hold no half of a
surrogate pair. -/
inductive Written : Json → Prop
  | null : Written .null
  | bool (b : Bool) : Written (.bool b)
  | number (n : Nat) : Written (.number (.ofNat n))
  | string (contents : String) : Written (.string (some contents))
  | array {items : List Json} : (∀ item ∈ items, Written item) → Written (.array items)
  | object {members : List (Option String × Json)} :
      (∀ member ∈ members, member.1.isSome = true) → (∀ member ∈ members, Written member.2) →
      Written (.object members)

mutual

/-- The tokens of a value. -/
def tokens : Json → List Token
  | .null => [.null]
  | .bool b => [.bool b]
  | .number n => [.number n]
  | .string contents => [.string contents]
  | .array items => .openBracket :: itemTokens true items ++ [.closeBracket]
  | .object members => .openBrace :: memberTokens true members ++ [.closeBrace]

/-- The tokens of the items of an array, with a comma before each but the first. -/
def itemTokens (first : Bool) : List Json → List Token
  | [] => []
  | json :: rest => (if first then [] else [.comma]) ++ tokens json ++ itemTokens false rest

/-- The tokens of the members of an object, with a comma before each but the first. -/
def memberTokens (first : Bool) : List (Option String × Json) → List Token
  | [] => []
  | (name, json) :: rest =>
    (if first then [] else [.comma]) ++ .string name :: .colon :: tokens json ++
      memberTokens false rest

end

/-! ### Whole numbers -/

theorem digitsValue_toDigits (n : Nat) : digitsValue (Nat.toDigits 10 n) = n := by
  have hvalue := @Nat.ofDigitChars_ten_toDigits n
  rw [Nat.ofDigitChars_eq_foldl] at hvalue
  simp only [Nat.mul_comm 10] at hvalue
  exact hvalue

theorem isDigit_toDigits {n : Nat} {c : Char} (h : c ∈ Nat.toDigits 10 n) : c.isDigit = true :=
  Nat.isDigit_of_mem_toDigits (by decide) (by decide) h

/-- A number of several digits does not start with zero. -/
theorem head?_toDigits {n : Nat} (h : 10 ≤ n) : (Nat.toDigits 10 n).head? ≠ some '0' := by
  induction n using Nat.strongRecOn with
  | ind n ih =>
    have hdigits : Nat.toDigits 10 n = Nat.toDigits 10 (n / 10) ++ [(n % 10).digitChar] := by
      rw [Nat.toDigits_eq_if (by decide), if_neg (Nat.not_lt.mpr h)]
    rw [hdigits, List.head?_append_of_ne_nil _ Nat.toDigits_ne_nil]
    by_cases hlast : n / 10 < 10
    · rw [Nat.toDigits_of_lt_base hlast]
      intro hzero
      have hquot := Nat.digitChar_eq_zero.mp (Option.some.inj hzero)
      omega
    · exact ih (n / 10) (by omega) (Nat.not_lt.mp hlast)

namespace Number

theorem chars_ofNat (n : Nat) : (ofNat n).chars = Nat.toDigits 10 n := by
  simp [chars, ofNat]

theorem toNat?_ofNat (n : Nat) : (ofNat n).toNat? = some n := by
  simp [toNat?, ofNat, digitsValue_toDigits]

theorem digits?_of_digits {digits : List Char} (hne : digits ≠ [])
    (h : ∀ c ∈ digits, c.isDigit = true) : digits? digits = some (digits, []) := by
  unfold digits?
  rw [List.takeWhile_eq_self_iff.mpr h, List.dropWhile_eq_nil_iff.mpr h]
  exact if_neg hne

theorem ofChars?_toDigits (n : Nat) : ofChars? (Nat.toDigits 10 n) = some (ofNat n) := by
  have hread := digits?_of_digits Nat.toDigits_ne_nil (fun c => @isDigit_toDigits n c)
  have hzero : ¬((Nat.toDigits 10 n).length ≠ 1 ∧ (Nat.toDigits 10 n).head? = some '0') := by
    rintro ⟨hlength, hhead⟩
    by_cases hn : n < 10
    · exact hlength (by rw [Nat.toDigits_of_lt_base hn]; rfl)
    · exact head?_toDigits (Nat.not_lt.mp hn) hhead
  have hsign : ∀ rest, Nat.toDigits 10 n ≠ '-' :: rest := by
    intro rest hminus
    have hdigit := @isDigit_toDigits n '-' (by rw [hminus]; exact .head _)
    exact absurd hdigit (by decide)
  unfold ofChars?
  split
  rename_i negative chars hchars
  split at hchars
  · rename_i rest hminus
    exact absurd hminus (hsign rest)
  · cases hchars
    simp [hread, hzero, exponent?, ofNat]

end Number

/-! ### Tokens of a text -/

namespace Lexer

/-- The lexer after a text. -/
def scan? (text : String) : Option Lexer := text.toList.foldlM step? {}

theorem scan?_append (text more : String) :
    scan? (text ++ more) = (scan? text).bind fun lexer => more.toList.foldlM step? lexer := by
  unfold scan?
  rw [String.toList_append, List.foldlM_append]
  rfl

theorem scan?_push (text : String) (c : Char) :
    scan? (text.push c) = (scan? text).bind fun lexer => lexer.step? c := by
  unfold scan?
  rw [String.toList_push, List.foldlM_append]
  simp

/-- The tokens are complete once the text ends or a mark follows. -/
structure Made (lexer : Lexer) (tokens : List Token) : Prop where
  finish : lexer.finish? = some tokens
  mark : ∀ {c : Char} {token : Token}, single? c = some token →
    lexer.step? c = some { tokens := token :: tokens.reverse }

theorem start?_of_single {c : Char} {token : Token} (h : single? c = some token)
    (tokens : List Token) : start? tokens c = some { tokens := token :: tokens } := by
  have hblank : isBlank c = false := by
    unfold single? at h
    split at h <;> first | rfl | cases h
  unfold start?
  rw [hblank, h]
  rfl

theorem not_isPart_of_single {c : Char} {token : Token} (h : single? c = some token) :
    Number.isPart c = false ∧ c.isAlpha = false := by
  unfold single? at h
  split at h <;> first | exact ⟨by decide, by decide⟩ | cases h

theorem made_between (tokens : List Token) : Made { tokens := tokens.reverse } tokens :=
  ⟨congrArg some tokens.reverse_reverse, fun h => start?_of_single h _⟩

theorem made_number (tokens : List Token) (n : Nat) :
    Made { tokens := tokens.reverse, current := .number (Nat.toDigits 10 n).reverse }
      (tokens ++ [.number (.ofNat n)]) := by
  have hread := Number.ofChars?_toDigits n
  constructor
  · simp [finish?, hread]
  · intro c token h
    have hnext := start?_of_single h (.number (.ofNat n) :: tokens.reverse)
    simp [step?, not_isPart_of_single h, hread, hnext]

theorem made_word (letters : List Char) {word : Token} (h : word? letters.reverse = some word)
    (tokens : List Token) :
    Made { tokens := tokens.reverse, current := .word letters } (tokens ++ [word]) := by
  constructor
  · simp [finish?, h]
  · intro c token hsingle
    have hnext := start?_of_single hsingle (word :: tokens.reverse)
    simp [step?, not_isPart_of_single hsingle, h, hnext]

/-! Within a string, each character is read back from what `quoteChar` makes of it. -/

/-- The lexer within a string, of which it has read some characters. -/
def within (tokens : List Token) (chars : List Char) : Lexer :=
  { tokens, current := .string { contents := some chars } }

theorem hexValue?_digitChar {digit : Nat} (h : digit < 16) :
    Quoted.hexValue? digit.digitChar = some digit := by
  revert digit
  decide

theorem digitChar_ne_quote {digit : Nat} (h : digit < 16) : digit.digitChar ≠ '"' := by
  revert digit
  decide

theorem foldlM_quoteChar (tokens : List Token) (chars : List Char) (c : Char) :
    (quoteChar c).foldlM step? (within tokens chars) = some (within tokens (c :: chars)) := by
  unfold quoteChar
  split <;> try rfl
  rename_i hquote hslash _ _ _ _ _
  split
  · rename_i hcontrol
    have hhex (digit : Nat) := hexValue?_digitChar (Nat.mod_lt digit (by decide : 16 > 0))
    have hne (digit : Nat) := digitChar_ne_quote (Nat.mod_lt digit (by decide : 16 > 0))
    have hcode : ((c.toNat / 4096 % 16 * 16 + c.toNat / 256 % 16) * 16 + c.toNat / 16 % 16) * 16 +
        c.toNat % 16 = c.toNat := by omega
    have hhigh : Quoted.isHigh c.toNat = false := by simp [Quoted.isHigh]; omega
    have hlow : Quoted.isLow c.toNat = false := by simp [Quoted.isLow]; omega
    simp [hexDigits, within, step?, Quoted.step?, hhex, hne, hcode, Quoted.addCode, Quoted.addChar,
      hhigh, hlow]
  · rename_i hplain
    have hq : c ≠ '"' := hquote
    have hs : c ≠ '\\' := hslash
    simp [within, step?, Quoted.step?, Quoted.addChar, hq, hs, hplain]

theorem foldlM_quote (tokens : List Token) (contents chars : List Char) :
    (contents.flatMap quoteChar).foldlM step? (within tokens chars) =
      some (within tokens (contents.reverse ++ chars)) := by
  induction contents generalizing chars with
  | nil => rfl
  | cons c contents ih =>
    rw [List.flatMap_cons, List.foldlM_append, foldlM_quoteChar]
    simp [ih]

/-! The first digit of a number opens it and every other one goes on with it. -/

theorem start?_digit {c : Char} (h : c.isDigit = true) (tokens : List Token) :
    start? tokens c = some { tokens, current := .number [c] } := by
  have hblank : isBlank c = false := by
    unfold isBlank
    refine decide_eq_false fun hc => ?_
    simp only [List.mem_cons, List.not_mem_nil, or_false] at hc
    rcases hc with rfl | rfl | rfl | rfl <;> exact absurd h (by decide)
  have hsingle : single? c = none := by
    unfold single?
    split <;> first | rfl | exact absurd h (by decide)
  have hquote : c ≠ '"' := by
    rintro rfl
    exact absurd h (by decide)
  simp [start?, hblank, hsingle, hquote, h]

theorem foldlM_digits (tokens : List Token) {digits : List Char}
    (h : ∀ c ∈ digits, c.isDigit = true) (chars : List Char) :
    digits.foldlM step? { tokens, current := .number chars } =
      some { tokens, current := .number (digits.reverse ++ chars) } := by
  induction digits generalizing chars with
  | nil => rfl
  | cons c digits ih =>
    have hpart : Number.isPart c = true := by simp [Number.isPart, h c (.head _)]
    rw [List.foldlM_cons, step?]
    simp [hpart, ih fun c hc => h c (.tail _ hc)]

end Lexer

open Lexer in
/-- Between two tokens of the text, the tokens so far are complete. -/
def Between (text : String) (tokens : List Token) : Prop :=
  scan? text = some { tokens := tokens.reverse }

open Lexer in
/-- The text makes the tokens, of which the last one may still be open. -/
def Makes (text : String) (tokens : List Token) : Prop :=
  ∃ lexer, scan? text = some lexer ∧ lexer.Made tokens

theorem Makes.ofText? {text : String} {tokens : List Token} (h : Makes text tokens) :
    Token.ofText? text = some tokens := by
  obtain ⟨lexer, hscan, hmade⟩ := h
  show (Lexer.scan? text).bind Lexer.finish? = some tokens
  rw [hscan]
  exact hmade.finish

theorem Makes.push {text : String} {tokens : List Token} (h : Makes text tokens) {c : Char}
    {token : Token} (hsingle : Lexer.single? c = some token) :
    Between (text.push c) (tokens ++ [token]) := by
  obtain ⟨lexer, hscan, hmade⟩ := h
  unfold Between
  rw [Lexer.scan?_push, hscan, Option.bind_some, hmade.mark hsingle, List.reverse_append]
  rfl

namespace Between

variable {text : String} {tokens : List Token} (h : Between text tokens)
include h

theorem makes : Makes text tokens := ⟨_, h, Lexer.made_between tokens⟩

theorem push {c : Char} {token : Token} (hsingle : Lexer.single? c = some token) :
    Between (text.push c) (tokens ++ [token]) :=
  h.makes.push hsingle

theorem number (n : Nat) :
    Makes (text ++ String.ofList (Number.ofNat n).chars) (tokens ++ [.number (.ofNat n)]) := by
  refine ⟨_, ?_, Lexer.made_number tokens n⟩
  rw [Lexer.scan?_append, h, Option.bind_some, String.toList_ofList, Number.chars_ofNat]
  have hdigits (c : Char) : c ∈ Nat.toDigits 10 n → c.isDigit = true := isDigit_toDigits
  cases hchars : Nat.toDigits 10 n with
  | nil => exact absurd hchars Nat.toDigits_ne_nil
  | cons c rest =>
    rw [hchars] at hdigits
    have hfirst : Lexer.step? { tokens := tokens.reverse } c = _ :=
      Lexer.start?_digit (hdigits c (.head _)) tokens.reverse
    rw [List.foldlM_cons, hfirst, Option.bind_eq_bind, Option.bind_some,
      Lexer.foldlM_digits tokens.reverse fun c hc => hdigits c (.tail _ hc), List.reverse_cons]

theorem string (contents : String) :
    Between (text ++ quote contents) (tokens ++ [.string (some contents)]) := by
  unfold Between
  rw [Lexer.scan?_append, h, Option.bind_some]
  unfold quote
  have hopen : Lexer.step? { tokens := tokens.reverse } '"' = some (.within tokens.reverse []) :=
    rfl
  rw [String.toList_ofList, List.cons_append, List.foldlM_cons, hopen, Option.bind_eq_bind,
    Option.bind_some, List.foldlM_append, Lexer.foldlM_quote]
  simp [Lexer.within, Lexer.step?, Quoted.text?]

theorem null : Makes (text ++ "null") (tokens ++ [.null]) :=
  ⟨_, by rw [Lexer.scan?_append, h]; rfl, Lexer.made_word "llun".toList rfl tokens⟩

theorem bool (b : Bool) :
    Makes (text ++ if b then "true" else "false") (tokens ++ [.bool b]) := by
  cases b with
  | true =>
    exact ⟨_, by rw [Lexer.scan?_append, h]; rfl,
      Lexer.made_word "eurt".toList rfl tokens⟩
  | false =>
    exact ⟨_, by rw [Lexer.scan?_append, h]; rfl,
      Lexer.made_word "eslaf".toList rfl tokens⟩

end Between

/-! ### The tokens of what is written -/

/-- The items of an array follow the bracket that opens it or an item before them. -/
theorem makes_writeItems {items : List Json}
    (hwrite : ∀ item ∈ items, ∀ {text : String} {tokens : List Token}, Between text tokens →
      Makes (item.write text) (tokens ++ item.tokens))
    (first : Bool) {text : String} {tokens : List Token}
    (h : if first then Between text tokens else Makes text tokens) :
    Makes (writeItems text first items) (tokens ++ itemTokens first items) := by
  induction items generalizing first text tokens with
  | nil =>
    simp only [writeItems, itemTokens, List.append_nil]
    cases first with
    | true => exact Between.makes h
    | false => exact h
  | cons item items ih =>
    have hstart : Between (if first then text else text.push ',')
        (tokens ++ if first then [] else [.comma]) := by
      cases first with
      | true => simpa using h
      | false => exact Makes.push h rfl
    have hitem := hwrite item (.head _) hstart
    have hrest := ih (fun other hother => hwrite other (.tail _ hother)) false hitem
    simp only [writeItems, itemTokens]
    simpa only [List.append_assoc] using hrest

/-- The members of an object follow the brace that opens it or a member before them. -/
theorem makes_writeMembers {members : List (Option String × Json)}
    (hnames : ∀ member ∈ members, member.1.isSome = true)
    (hwrite : ∀ member ∈ members, ∀ {text : String} {tokens : List Token}, Between text tokens →
      Makes (member.2.write text) (tokens ++ member.2.tokens))
    (first : Bool) {text : String} {tokens : List Token}
    (h : if first then Between text tokens else Makes text tokens) :
    Makes (writeMembers text first members) (tokens ++ memberTokens first members) := by
  induction members generalizing first text tokens with
  | nil =>
    simp only [writeMembers, memberTokens, List.append_nil]
    cases first with
    | true => exact Between.makes h
    | false => exact h
  | cons member members ih =>
    obtain ⟨name, json⟩ := member
    obtain ⟨contents, hname⟩ := Option.isSome_iff_exists.mp (hnames _ (.head _))
    cases hname
    have hstart : Between (if first then text else text.push ',')
        (tokens ++ if first then [] else [.comma]) := by
      cases first with
      | true => simpa using h
      | false => exact Makes.push h rfl
    have hcolon := (hstart.string contents).push (c := ':') rfl
    have hmember := hwrite _ (.head _) hcolon
    have hrest := ih (fun other hother => hnames other (.tail _ hother))
      (fun other hother => hwrite other (.tail _ hother)) false hmember
    have hpush (out : String) : out ++ ":" = out.push ':' :=
      String.toList_inj.mp (by rw [String.toList_append, String.toList_push]; rfl)
    simp only [writeMembers, memberTokens, Option.getD_some, hpush]
    simpa [List.append_assoc] using hrest

theorem makes_write {json : Json} (hjson : Written json) {text : String} {tokens : List Token}
    (h : Between text tokens) : Makes (json.write text) (tokens ++ json.tokens) := by
  induction hjson generalizing text tokens with
  | null => simpa only [write, Json.tokens] using h.null
  | bool b => simpa only [write, Json.tokens] using h.bool b
  | number n => simpa only [write, Json.tokens] using h.number n
  | string contents =>
    simpa only [write, Json.tokens, Option.getD_some] using (h.string contents).makes
  | array _ ih =>
    have hopen := h.push (c := '[') rfl
    have hitems := makes_writeItems ih true hopen
    have hclose := (hitems.push (c := ']') rfl).makes
    simpa only [write, Json.tokens, List.append_assoc, List.cons_append, List.nil_append]
      using hclose
  | object hnames _ ih =>
    have hopen := h.push (c := '\x7b') rfl
    have hmembers := makes_writeMembers hnames ih true hopen
    have hclose := (hmembers.push (c := '\x7d') rfl).makes
    simpa only [write, Json.tokens, List.append_assoc, List.cons_append, List.nil_append]
      using hclose

/-! ### The value of the tokens -/

namespace Reader

/-- The tokens of a value are taken as that value, inside whatever is open. -/
def Reads (json : Json) : Prop :=
  ∀ frames : List Frame, json.tokens.foldlM step? { frames } = some (accept frames json)

variable (frames : List Frame)

theorem foldlM_itemTokens {items : List Json} (h : ∀ item ∈ items, Reads item)
    (before : List Json) :
    (itemTokens false items).foldlM step?
        { frames := .array before :: frames, expected := .separator } =
      some { frames := .array (items.reverse ++ before) :: frames, expected := .separator } := by
  induction items generalizing before with
  | nil => rfl
  | cons item items ih =>
    have hcomma : step? { frames := .array before :: frames, expected := .separator } .comma =
        some { frames := .array before :: frames } := rfl
    simp only [itemTokens, Bool.false_eq_true, if_false, List.cons_append, List.nil_append]
    rw [List.foldlM_cons, hcomma, Option.bind_eq_bind, Option.bind_some, List.foldlM_append,
      h item (.head _)]
    simp [accept, ih fun other hother => h other (.tail _ hother)]

theorem foldlM_member {json : Json} (h : Reads json) (name last : Option String)
    (before : List (Option String × Json)) {expected : Expected}
    (hname : expected = .name ∨ expected = .nameOrEnd) :
    (.string name :: .colon :: json.tokens).foldlM step?
        { frames := .object before last :: frames, expected } =
      some { frames := .object ((name, json) :: before) name :: frames,
             expected := .separator } := by
  have hstring : step? { frames := .object before last :: frames, expected } (.string name) =
      some { frames := .object before name :: frames, expected := .colon } := by
    rcases hname with rfl | rfl <;> rfl
  have hcolon : step? { frames := .object before name :: frames, expected := .colon } .colon =
      some { frames := .object before name :: frames } := rfl
  rw [List.foldlM_cons, hstring, Option.bind_eq_bind, Option.bind_some, List.foldlM_cons, hcolon,
    Option.bind_eq_bind, Option.bind_some, h]
  rfl

theorem foldlM_memberTokens {members : List (Option String × Json)}
    (h : ∀ member ∈ members, Reads member.2) (last : Option String)
    (before : List (Option String × Json)) :
    ∃ last', (memberTokens false members).foldlM step?
        { frames := .object before last :: frames, expected := .separator } =
      some { frames := .object (members.reverse ++ before) last' :: frames,
             expected := .separator } := by
  induction members generalizing before last with
  | nil => exact ⟨last, rfl⟩
  | cons member members ih =>
    obtain ⟨name, json⟩ := member
    have hcomma : step? { frames := .object before last :: frames, expected := .separator } .comma =
        some { frames := .object before last :: frames, expected := .name } := rfl
    have hmember := foldlM_member frames (h _ (.head _)) name last before (.inl rfl)
    obtain ⟨last', hrest⟩ :=
      ih (fun other hother => h other (.tail _ hother)) name ((name, json) :: before)
    refine ⟨last', ?_⟩
    simp only [memberTokens, Bool.false_eq_true, if_false, List.cons_append, List.nil_append]
    rw [List.foldlM_cons, hcomma, Option.bind_eq_bind, Option.bind_some, ← List.cons_append,
      ← List.cons_append, List.foldlM_append, hmember, Option.bind_eq_bind, Option.bind_some, hrest]
    simp

/-- After an opening bracket a value may be taken as well. -/
theorem Reads.first {json : Json} (h : Reads json) :
    json.tokens.foldlM step? { frames, expected := .valueOrEnd } = some (accept frames json) := by
  have hvalue := h frames
  cases htokens : json.tokens with
  | nil =>
    rw [htokens] at hvalue
    have hexpected := congrArg Reader.expected (Option.some.inj hvalue)
    cases frames with
    | nil => cases hexpected
    | cons frame frames => cases frame <;> cases hexpected
  | cons token rest =>
    rw [htokens, List.foldlM_cons] at hvalue
    obtain ⟨reader, hreader, hrest⟩ := Option.bind_eq_some_iff.mp hvalue
    have hstep : step? { frames, expected := .valueOrEnd } token = some reader := by
      have htaken : value? frames token = some reader := hreader
      simp [step?, htaken]
    rw [List.foldlM_cons, hstep]
    exact hrest

theorem reads_array {items : List Json} (h : ∀ item ∈ items, Reads item) :
    Reads (.array items) := by
  intro frames
  have hopen : step? { frames } .openBracket =
      some { frames := .array [] :: frames, expected := .valueOrEnd } := rfl
  rw [tokens, List.cons_append, List.foldlM_cons, hopen, Option.bind_eq_bind, Option.bind_some,
    List.foldlM_append]
  cases items with
  | nil => rfl
  | cons item items =>
    simp only [itemTokens, if_true, List.nil_append, List.foldlM_append]
    have haccept : accept (.array [] :: frames) item =
        { frames := .array [item] :: frames, expected := .separator } := rfl
    have hrest := foldlM_itemTokens frames
      (fun other hother => h other (.tail _ hother)) [item]
    rw [(h item (.head _)).first _, Option.bind_eq_bind, Option.bind_some, haccept, hrest]
    simp [step?, close?]

theorem reads_object {members : List (Option String × Json)}
    (h : ∀ member ∈ members, Reads member.2) : Reads (.object members) := by
  intro frames
  have hopen : step? { frames } .openBrace =
      some { frames := .object [] none :: frames, expected := .nameOrEnd } := rfl
  rw [tokens, List.cons_append, List.foldlM_cons, hopen, Option.bind_eq_bind, Option.bind_some,
    List.foldlM_append]
  cases members with
  | nil => rfl
  | cons member members =>
    obtain ⟨name, json⟩ := member
    have hmember := foldlM_member frames (h _ (.head _)) name none [] (.inr rfl)
    obtain ⟨last, hrest⟩ := foldlM_memberTokens frames
      (fun other hother => h other (.tail _ hother)) name [(name, json)]
    simp only [memberTokens, if_true, List.nil_append]
    rw [List.foldlM_append, hmember, Option.bind_eq_bind, Option.bind_some, hrest]
    simp [step?, close?]

theorem reads {json : Json} (h : Written json) : Reads json := by
  induction h with
  | null => exact fun _ => rfl
  | bool b => exact fun _ => rfl
  | number n => exact fun _ => rfl
  | string contents => exact fun _ => rfl
  | array _ ih => exact reads_array ih
  | object _ _ ih => exact reads_object ih

end Reader

theorem ofTokens?_tokens {json : Json} (h : Written json) : ofTokens? json.tokens = some json := by
  unfold ofTokens?
  rw [Reader.reads h []]
  rfl

/-- The text of a value is read back as that value. -/
theorem ofText?_text {json : Json} (h : Written json) : ofText? json.text = some json := by
  have hstart : Between "" [] := rfl
  have hmakes : Makes json.text ([] ++ json.tokens) := makes_write h hstart
  unfold ofText?
  rw [hmakes.ofText?, Option.bind_some]
  exact ofTokens?_tokens h

end Chiptune.Json

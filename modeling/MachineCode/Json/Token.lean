import MachineCode.Json
import MachineCode.Text

/-!
# Tokens of a JSON document

A document is cut into tokens in one pass, character by character (`Scanner.step`). A string is
decoded while it is read. A run of letters, digits, signs and points is a *word*, and has to be
one of the three literals or a number.
-/

namespace MachineCode

/-- A token: a mark, or a value without parts. -/
inductive Token where
  | openBrace
  | closeBrace
  | openBracket
  | closeBracket
  | comma
  | colon
  | scalar (v : Json)

namespace Token

/-- The characters are an exponent: a mark, a sign or none, and digits. -/
def isExponent : List Char → Bool
  | [] => false
  | e :: rest =>
    let digits := match rest with
      | '+' :: ds => ds
      | '-' :: ds => ds
      | ds => ds
    (e = 'e' || e = 'E') && !digits.isEmpty && digits.all Char.isDigit

/-- The characters are what may follow the integral part of a number: a fraction, an exponent, or
both. -/
def isTail : List Char → Bool
  | '.' :: rest =>
    let exponent := rest.dropWhile Char.isDigit
    !(rest.takeWhile Char.isDigit).isEmpty && (exponent.isEmpty || isExponent exponent)
  | cs => isExponent cs

/-- The number that some characters are. The integral part has no needless zero before it. -/
def number? (cs : List Char) : Option Json :=
  let negative : Bool := cs.head? = some '-'
  let digits := if negative then cs.drop 1 else cs
  let whole := digits.takeWhile Char.isDigit
  let tail := digits.dropWhile Char.isDigit
  if whole.isEmpty || (whole.head? = some '0' && whole.length ≠ 1) then none
  else if tail.isEmpty then
    if negative then
      if Text.decimal whole = 0 then some (.real (String.ofList cs))
      else some (.int (-(Text.decimal whole)))
    else some (.int (Text.decimal whole))
  else if isTail tail then some (.real (String.ofList cs))
  else none

/-- The value that a word is. -/
def word? (cs : List Char) : Option Json :=
  match String.ofList cs with
  | "null" => some .null
  | "true" => some (.bool true)
  | "false" => some (.bool false)
  | _ => number? cs

/-- The character may be part of a word. -/
def isWordChar (c : Char) : Bool := c.isAlphanum || c = '-' || c = '+' || c = '.'

/-- The character may stand between tokens. -/
def isSpace (c : Char) : Bool := c = ' ' || c = '\t' || c = '\n' || c = '\r'

/-- The token of a mark. -/
def mark? (c : Char) : Option Token :=
  match c with
  | '\x7b' => some .openBrace
  | '\x7d' => some .closeBrace
  | '[' => some .openBracket
  | ']' => some .closeBracket
  | ',' => some .comma
  | ':' => some .colon
  | _ => none

/-- The character that stands for `c` behind a backslash. -/
def unescape? (c : Char) : Option Char :=
  match c with
  | '"' => some '"'
  | '\\' => some '\\'
  | '/' => some '/'
  | 'b' => some '\x08'
  | 'f' => some '\x0c'
  | 'n' => some '\n'
  | 'r' => some '\r'
  | 't' => some '\t'
  | _ => none

/-- The value of a hexadecimal digit. -/
def hexValue? (c : Char) : Option Nat :=
  if c.isDigit then some (c.toNat - 48)
  else if 'a' ≤ c ∧ c ≤ 'f' then some (c.toNat - 87)
  else if 'A' ≤ c ∧ c ≤ 'F' then some (c.toNat - 55)
  else none

end Token

/-- The text of a string, as far as it has been read. -/
structure PartialText where
  /-- The characters, the latest first. -/
  chars : List Char := []
  /-- The first half of a surrogate pair whose second half has to follow. -/
  high : Option Nat := none
  /-- Half of a surrogate pair stood alone. -/
  broken : Bool := false

namespace PartialText

/-- Put a character behind the text. -/
def push (t : PartialText) (c : Char) : PartialText :=
  { chars := c :: t.chars, broken := t.broken || t.high.isSome }

/-- Put a code unit of 16 bits behind the text. -/
def pushUnit (t : PartialText) (n : Nat) : PartialText :=
  if 0xD800 ≤ n ∧ n < 0xDC00 then
    { t with high := some n, broken := t.broken || t.high.isSome }
  else if 0xDC00 ≤ n ∧ n < 0xE000 then
    match t.high with
    | some h =>
      { t with
        chars := Char.ofNat (0x10000 + (h - 0xD800) * 0x400 + (n - 0xDC00)) :: t.chars
        high := none }
    | none => { t with broken := true }
  else t.push (Char.ofNat n)

/-- The whole text, if there is one. -/
def text? (t : PartialText) : Option String :=
  if t.broken || t.high.isSome then none else some (String.ofList t.chars.reverse)

/-- The string as a value. -/
def toJson (t : PartialText) : Json := t.text?.elim .unreadable .str

end PartialText

/-- What the scanner is in the middle of. -/
inductive Lexeme where
  /-- Nothing. -/
  | between
  /-- A word, the latest character first. -/
  | word (cs : List Char)
  /-- A string. -/
  | string (t : PartialText)
  /-- A string, behind a backslash. -/
  | escape (t : PartialText)
  /-- A string, in an escape that owes `left` hexadecimal digits and has the value `n` so far. -/
  | unit (t : PartialText) (left n : Nat)

/-- The tokens so far, the latest first, and what has begun since. -/
structure Scanner where
  tokens : List Token := []
  lexeme : Lexeme := .between

namespace Scanner

/-- A character behind a whole token. -/
def start (tokens : List Token) (c : Char) : Option Scanner :=
  if Token.isSpace c then some { tokens }
  else if c = '"' then some { tokens, lexeme := .string {} }
  else if Token.isWordChar c then some { tokens, lexeme := .word [c] }
  else (Token.mark? c).map fun t ↦ { tokens := t :: tokens }

/-- One character more. -/
def step (s : Scanner) (c : Char) : Option Scanner :=
  match s.lexeme with
  | .between => start s.tokens c
  | .word cs =>
    if Token.isWordChar c then some { s with lexeme := .word (c :: cs) }
    else do start (.scalar (← Token.word? cs.reverse) :: s.tokens) c
  | .string t =>
    if c = '"' then some { tokens := .scalar t.toJson :: s.tokens }
    else if c = '\\' then some { s with lexeme := .escape t }
    else if c.toNat < 0x20 then none
    else some { s with lexeme := .string (t.push c) }
  | .escape t =>
    if c = 'u' then some { s with lexeme := .unit t 3 0 }
    else (Token.unescape? c).map fun c ↦ { s with lexeme := .string (t.push c) }
  | .unit t left n => do
    let n := 16 * n + (← Token.hexValue? c)
    match left with
    | 0 => some { s with lexeme := .string (t.pushUnit n) }
    | left + 1 => some { s with lexeme := .unit t left n }

/-- The tokens in order, if nothing is left unfinished. -/
def finish (s : Scanner) : Option (List Token) :=
  match s.lexeme with
  | .between => some s.tokens.reverse
  | .word cs => do return (.scalar (← Token.word? cs.reverse) :: s.tokens).reverse
  | _ => none

end Scanner

/-- The tokens of a document. -/
def Token.scan (s : String) : Option (List Token) := do
  let scanner ← s.toList.foldlM Scanner.step {}
  scanner.finish

end MachineCode

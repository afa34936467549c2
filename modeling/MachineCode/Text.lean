/-!
# Text

Small rules about text that the printers share: which characters are blank, text without blanks
at its ends, decimal digits, lines, and columns of a table.
-/

namespace MachineCode.Text

/-- The characters with the Unicode property *White Space*. -/
def isBlank (c : Char) : Bool :=
  let n := c.toNat
  (0x09 ≤ n ∧ n ≤ 0x0D) ∨ n = 0x20 ∨ n = 0x85 ∨ n = 0xA0 ∨ n = 0x1680 ∨
    (0x2000 ≤ n ∧ n ≤ 0x200A) ∨ n = 0x2028 ∨ n = 0x2029 ∨ n = 0x202F ∨ n = 0x205F ∨ n = 0x3000

/-- The characters without the blank ones at either end. -/
def trimChars (cs : List Char) : List Char :=
  ((cs.dropWhile isBlank).reverse.dropWhile isBlank).reverse

/-- The text without the blank characters at either end. -/
def trim (s : String) : String := String.ofList (trimChars s.toList)

/-- The value of some decimal digits. -/
def decimal (digits : List Char) : Nat := digits.foldl (fun n c ↦ 10 * n + (c.toNat - 48)) 0

/-- The text with `width` blanks before each line but the first. -/
def indentRest (width : Nat) (s : String) : String :=
  String.ofList (s.toList.flatMap fun c ↦
    if c = '\n' then '\n' :: List.replicate width ' ' else [c])

/-- The lines of some characters, the first of which has started with `line`, in reverse. A line
ends with a line feed, and a carriage return right before that is part of the end. -/
def splitLinesFrom (line : List Char) : List Char → List String
  | [] => if line.isEmpty then [] else [String.ofList line.reverse]
  | '\n' :: cs =>
    let whole := match line with
      | '\r' :: before => before
      | _ => line
    String.ofList whole.reverse :: splitLinesFrom [] cs
  | c :: cs => splitLinesFrom (c :: line) cs

/-- The lines of a text, without their ends. -/
def splitLines (s : String) : List String := splitLinesFrom [] s.toList

/-- The blanks that fill a text of `length` characters up to `width`. -/
def fill (width length : Nat) : String := String.ofList (List.replicate (width - length) ' ')

/-- The text at the left of a column. -/
def padRight (width : Nat) (s : String) : String := s ++ fill width s.length

/-- The text at the right of a column. -/
def padLeft (width : Nat) (s : String) : String := fill width s.length ++ s

/-- The texts with `sep` between each two of them. -/
def joinWith (sep : String) : List String → String
  | [] => ""
  | [s] => s
  | s :: rest => s ++ sep ++ joinWith sep rest

/-- The texts as lines, each with its line end. -/
def lines (ls : List String) : String := String.join (ls.map (· ++ "\n"))

end MachineCode.Text

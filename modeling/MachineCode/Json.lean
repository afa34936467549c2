/-!
# JSON values

A JSON document as a tree. The members of an object stand in the order in which they are written,
repeated keys included, and a number keeps whether it was written as an integer.

A string may spell out half of a surrogate pair. Such a string is well formed, but there is no text
that it denotes; it is kept as `Json.unreadable`, and so is an object with such a key.
-/

namespace MachineCode

/-- A JSON value. -/
inductive Json where
  | null
  | bool (b : Bool)
  /-- A number written as an integer. Minus zero is not one. -/
  | int (n : Int)
  /-- Any other number, as it is written. -/
  | real (text : String)
  | str (text : String)
  | arr (items : List Json)
  | obj (members : List (String × Json))
  /-- A well-formed value that denotes nothing. -/
  | unreadable

namespace Json

/-! ### Writing -/

/-- A hexadecimal digit. -/
def hexDigit (n : Nat) : Char := if n < 10 then Char.ofNat (48 + n) else Char.ofNat (87 + n)

/-- A character inside a written string. -/
def escape (c : Char) : String :=
  if c = '"' then "\\\""
  else if c = '\\' then "\\\\"
  else if c.toNat < 0x20 then
    "\\u00" ++ String.ofList [hexDigit (c.toNat / 16), hexDigit (c.toNat % 16)]
  else String.singleton c

/-- A text as a written string. -/
def quote (s : String) : String := "\"" ++ String.join (s.toList.map escape) ++ "\""

mutual

/-- Write a value on one line behind the text `out`. -/
def renderAfter (out : String) : Json → String
  | null => out ++ "null"
  | bool true => out ++ "true"
  | bool false => out ++ "false"
  | int n => out ++ toString n
  | real text => out ++ text
  | str text => out ++ quote text
  | arr items => renderItems (out ++ "[") items ++ "]"
  | obj members => renderMembers (out ++ "\x7b") members ++ "\x7d"
  | unreadable => out ++ "null"

/-- Write the items of an array, with commas between them. -/
def renderItems (out : String) : List Json → String
  | [] => out
  | [v] => renderAfter out v
  | v :: rest => renderItems (renderAfter out v ++ ",") rest

/-- Write the members of an object, with commas between them. -/
def renderMembers (out : String) : List (String × Json) → String
  | [] => out
  | [(k, v)] => renderAfter (out ++ quote k ++ ":") v
  | (k, v) :: rest => renderMembers (renderAfter (out ++ quote k ++ ":") v ++ ",") rest

end

/-- A value as a document on one line. -/
def render (j : Json) : String := renderAfter "" j

/-- A text, or null. -/
def ofText? (s : Option String) : Json := s.elim null str

end Json

end MachineCode

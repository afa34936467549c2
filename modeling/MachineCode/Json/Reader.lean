import MachineCode.Json.Token

/-!
# Reading JSON documents

The tokens of a document are read one by one (`Json.Reader.step`). The reader keeps the arrays and
objects that are still open on a stack, so a document may be nested as deeply as it likes.
-/

namespace MachineCode.Json

/-- An array or object that waits for the value that has begun inside it. -/
inductive Open where
  /-- The items before the value, the latest first. -/
  | array (items : List Json)
  /-- The members before the value, the latest first, and the key of the value. -/
  | object (members : List (Option String × Json)) (key : Option String)

/-- What may come next. -/
inductive Reader where
  /-- A value. -/
  | value (stack : List Open)
  /-- The first item of an array, or its end. -/
  | arrayStart (stack : List Open)
  /-- A comma, or the end of the array. -/
  | arrayNext (items : List Json) (stack : List Open)
  /-- The first key of an object, or its end. -/
  | objectStart (stack : List Open)
  /-- A key. -/
  | objectKey (members : List (Option String × Json)) (stack : List Open)
  /-- A colon. -/
  | objectColon (members : List (Option String × Json)) (key : Option String) (stack : List Open)
  /-- A comma, or the end of the object. -/
  | objectNext (members : List (Option String × Json)) (stack : List Open)
  /-- Nothing. -/
  | done (v : Json)

/-- The object with the given members. -/
def ofMembers (members : List (Option String × Json)) : Json :=
  (members.mapM fun ((key, v) : Option String × Json) ↦ key.map (·, v)).elim .unreadable .obj

namespace Reader

/-- After the value `v` is complete. -/
def complete (v : Json) : List Open → Reader
  | [] => .done v
  | .array items :: stack => .arrayNext (v :: items) stack
  | .object members key :: stack => .objectNext ((key, v) :: members) stack

/-- A token where a value has to begin. -/
def startValue (stack : List Open) : Token → Option Reader
  | .scalar v => some (complete v stack)
  | .openBracket => some (.arrayStart stack)
  | .openBrace => some (.objectStart stack)
  | _ => none

/-- A token where a key has to stand. -/
def startMember (members : List (Option String × Json)) (stack : List Open) :
    Token → Option Reader
  | .scalar (.str key) => some (.objectColon members (some key) stack)
  | .scalar .unreadable => some (.objectColon members none stack)
  | _ => none

/-- One token more. -/
def step : Reader → Token → Option Reader
  | .value stack, t => startValue stack t
  | .arrayStart stack, .closeBracket => some (complete (.arr []) stack)
  | .arrayStart stack, t => startValue (.array [] :: stack) t
  | .arrayNext items stack, .closeBracket => some (complete (.arr items.reverse) stack)
  | .arrayNext items stack, .comma => some (.value (.array items :: stack))
  | .objectStart stack, .closeBrace => some (complete (.obj []) stack)
  | .objectStart stack, t => startMember [] stack t
  | .objectKey members stack, t => startMember members stack t
  | .objectColon members key stack, .colon => some (.value (.object members key :: stack))
  | .objectNext members stack, .closeBrace => some (complete (ofMembers members.reverse) stack)
  | .objectNext members stack, .comma => some (.objectKey members stack)
  | _, _ => none

end Reader

/-- The value that some tokens spell out. -/
def ofTokens? (ts : List Token) : Option Json := do
  match ← ts.foldlM Reader.step (.value []) with
  | .done v => some v
  | _ => none

/-- The value of a document. -/
def parse? (s : String) : Option Json := do ofTokens? (← Token.scan s)

end MachineCode.Json

import MachineCode.Json

/-!
# Reading values of a given shape

Decoders for the shapes that documents are made of: numbers of a fixed width, texts, lists,
records and variants.

A *record* is an object with known fields, or an array of the fields in order, of which the last
ones may be missing. In an object unknown members are passed over, and a known one may stand only
once. A *variant* is a text, or an object with one member: its key is the name of the variant and
its value what the variant carries.
-/

namespace MachineCode.Json

variable {α : Type}

/-- An integer that fits in 32 bits without sign. -/
def toUInt32? : Json → Option UInt32
  | int n => if 0 ≤ n ∧ n < 4294967296 then some (UInt32.ofNat n.toNat) else none
  | _ => none

/-- An integer that fits in 64 bits with sign. -/
def toInt64? : Json → Option Int64
  | int n =>
    if -9223372036854775808 ≤ n ∧ n < 9223372036854775808 then some (Int64.ofInt n) else none
  | _ => none

/-- A text. -/
def toText? : Json → Option String
  | str s => some s
  | _ => none

/-- A truth value. -/
def toBool? : Json → Option Bool
  | bool b => some b
  | _ => none

/-- A list, item by item. -/
def toList? (item : Json → Option α) : Json → Option (List α)
  | arr items => items.mapM item
  | _ => none

/-- Null for no value. -/
def toOption? (value : Json → Option α) : Json → Option (Option α)
  | null => some none
  | v => (value v).map some

/-- The value of the only member with the key `name`, nothing if there is none, and failure if
there are several. -/
def member? (name : String) (members : List (String × Json)) : Option (Option Json) :=
  match members.filter (·.1 = name) with
  | [] => some none
  | [m] => some (some m.2)
  | _ => none

/-- The fields of a record, in the order of `names`. -/
def record? (names : List String) : Json → Option (List (Option Json))
  | arr items =>
    if items.length ≤ names.length then
      some (items.map some ++ List.replicate (names.length - items.length) none)
    else
      none
  | obj members => names.mapM (member? · members)
  | _ => none

/-- A field that has to be there. -/
def required (value : Json → Option α) (field : Option Json) : Option α := field.bind value

/-- A field that may be missing. -/
def orDefault (default : α) (value : Json → Option α) : Option Json → Option α
  | none => some default
  | some v => value v

/-- The name of a variant, and what it carries. -/
def variant? : Json → Option (String × Option Json)
  | str name => some (name, none)
  | obj [(name, v)] => some (name, some v)
  | _ => none

/-- Nothing, as a variant may carry it: left out, or null. -/
def isUnit : Option Json → Bool
  | none => true
  | some null => true
  | _ => false

end MachineCode.Json

import MachineCode.Json.Decode

/-!
# Configuration

The settings of a compilation session, and their JSON form. A document need not give every
setting: what it leaves out keeps its default.
-/

namespace MachineCode

/-- The settings of a session. -/
structure Config where
  /-- The function that the program starts with, if there is one. Nobody's registers have to be
  kept for its caller. -/
  entryFunction : Option String := some "main"
  /-- Report the allocation of every function. -/
  traceAllocation : Bool := false
  deriving DecidableEq

namespace Config

/-- A function of this name preserves the callee-saved registers. -/
def preserves (c : Config) (function : String) : Bool := c.entryFunction ≠ some function

/-! ### JSON form -/

open Json

/-- A configuration as a JSON value. -/
def toJson (c : Config) : Json :=
  obj [("entry_function", Json.ofText? c.entryFunction),
    ("trace_allocation", bool c.traceAllocation)]

/-- The configuration of a JSON value. What is left out keeps its default. -/
def ofJson? (j : Json) : Option Config := do
  match ← record? ["entry_function", "trace_allocation"] j with
  | [entry, trace] =>
    let entryFunction ← orDefault (some "main") (toOption? toText?) entry
    let traceAllocation ← orDefault false toBool? trace
    return { entryFunction, traceAllocation }
  | _ => none

end Config

end MachineCode

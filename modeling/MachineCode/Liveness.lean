import MachineCode.LiveRange
import MachineCode.Log
import MachineCode.RegisterMap
import MachineCode.Text

/-!
# Liveness

`Liveness` is the record that a function keeps while its instructions are appended: for each
register the live ranges that its uses span, and the program points at which calls happen. Stack
slots and the absent register are not tracked.

A call marks the ranges that are updated after it. This is enough, because a value that lives
across the call is used again behind it.
-/

namespace MachineCode

/-- The live ranges of the registers of a function, and its call points in recorded order. -/
structure Liveness where
  table : RegisterMap (List LiveRange) := {}
  calls : List Nat := []

namespace Liveness

/-- Uses of the register are tracked. -/
def tracks (r : Register) : Bool := r.isVirtual || r.isPhysical

/-- The ranges of a register, if it was used. -/
def get? (l : Liveness) (r : Register) : Option (List LiveRange) := l.table.get? r

/-- Record that `r` is used at the point `p`. -/
def recordUse (l : Liveness) (r : Register) (p : Nat) : Except Fault Liveness :=
  if tracks r then do
    let ranges := (l.get? r).getD []
    let ranges ←
      if r.isVirtual then LiveRange.extendHull p l.calls ranges
      else LiveRange.extendRuns p l.calls ranges
    return { l with table := l.table.insert r ranges }
  else
    .ok l

/-- Record a call at the point `p`. -/
def recordCall (l : Liveness) (p : Nat) : Liveness := { l with calls := l.calls ++ [p] }

/-- The virtual registers with their ranges, by id. -/
def virtualRegisters (l : Liveness) : List (Register × List LiveRange) :=
  l.table.entries.filter (·.1.isVirtual)

/-- The physical registers with their ranges, by id. -/
def physicalRegisters (l : Liveness) : List (Register × List LiveRange) :=
  l.table.entries.filter (·.1.isPhysical)

/-! ### Recording with messages -/

/-- What is said about a use of `r` at `p`, when `l` is the record after it. -/
def useEntries (l : Liveness) (r : Register) (p : Nat) : List Entry :=
  if tracks r then
    let ranges := ((l.get? r).getD []).map LiveRange.text
    [⟨.trace, "liveness: " ++ r.text ++ " used at " ++ toString p ++ " -> [" ++
      Text.joinWith ", " ranges ++ "]"⟩]
  else
    []

/-- Record a use, and say so. -/
def noteUse (l : Liveness) (r : Register) (p : Nat) : Logged Fault Liveness := do
  let l ← Logged.ofExcept (l.recordUse r p)
  Logged.sayAll (l.useEntries r p)
  return l

/-- Record a call, and say so. -/
def noteCall (l : Liveness) (p : Nat) : Logged Fault Liveness := do
  Logged.say .trace ("liveness: call boundary at " ++ toString p)
  return l.recordCall p

end Liveness

end MachineCode

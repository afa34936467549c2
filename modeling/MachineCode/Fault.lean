import MachineCode.Register

/-!
# Faults

A fault ends a computation that was asked for something outside its domain: a register number
that does not exist, an instruction handle that is not in the list, a sum that does not fit in
its word. A fault is not an error of the program being compiled; it is a broken precondition.

The registers of a class have numbers in it, and to ask for a number that is too large is a fault.
So is it to take a virtual register from a `Counter` that has handed out all of them.
-/

namespace MachineCode

/-- Why a computation was cut short. -/
inductive Fault where
  /-- No physical register has this number. -/
  | physicalRange
  /-- There are fewer stack slots than asked for. -/
  | slotRange
  /-- There are fewer virtual registers than asked for. -/
  | virtualRange
  /-- The handle does not denote an instruction of the list. -/
  | deadHandle (handle : Nat)
  /-- A sum does not fit in its word. -/
  | addOverflow
  /-- A difference does not fit in its word. -/
  | subOverflow
  /-- A product does not fit in its word. -/
  | mulOverflow
  /-- An alignment is not a power of two. -/
  | alignment
  /-- Reserved slot zero was asked for. -/
  | reservedNumbering
  /-- One register was handed to two intervals at once. -/
  | sharedRegister (reg : Register)
  deriving DecidableEq

/-- The text of a fault. -/
def Fault.message : Fault → String
  | .physicalRange => "physical register number out of range"
  | .slotRange => "stack slot index too large"
  | .virtualRange => "virtual register index too large"
  | .deadHandle h => "instruction handle InstId(" ++ toString h ++ ") is not in the list"
  | .addOverflow => "attempt to add with overflow"
  | .subOverflow => "attempt to subtract with overflow"
  | .mulOverflow => "attempt to multiply with overflow"
  | .alignment => "assertion failed: align.is_power_of_two()"
  | .reservedNumbering => "reserved slots are numbered from 1"
  | .sharedRegister r => "two active intervals share " ++ r.text

/-! ### Registers by number -/

namespace Register

/-- Physical register `n`. -/
def physical (n : Nat) : Except Fault Register :=
  (physical? n).elim (.error .physicalRange) .ok

/-- Stack slot `index`. -/
def slot (index : Nat) : Except Fault Register :=
  (slot? index).elim (.error .slotRange) .ok

/-- Virtual register `index`. -/
def virtual (index : Nat) : Except Fault Register :=
  (virtual? index).elim (.error .virtualRange) .ok

end Register

/-- The supply of virtual registers: those with an index below `issued` have been handed out. -/
structure Counter where
  issued : Nat := 0
  deriving DecidableEq

/-- Hand out the next virtual register. -/
def Counter.fresh (c : Counter) : Except Fault (Register × Counter) := do
  let r ← Register.virtual c.issued
  return (r, ⟨c.issued + 1⟩)

end MachineCode

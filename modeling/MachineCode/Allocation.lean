import MachineCode.RegisterFile
import MachineCode.RegisterMap
import MachineCode.Text

/-!
# Allocations

An allocation says where each virtual register of a function lives: in a physical register, or in
a stack slot of the frame.
-/

namespace MachineCode

/-- The places of the virtual registers, and the number of stack slots among them. -/
structure Allocation where
  places : RegisterMap Register := {}
  spillCount : Nat := 0

namespace Allocation

/-- The place of a virtual register. -/
def get? (a : Allocation) (v : Register) : Option Register := a.places.get? v

/-- The virtual register lives in a stack slot. -/
def isSpilled (a : Allocation) (v : Register) : Bool := (a.get? v).any (·.isStackSlot)

/-- The stack slot number that a virtual register lives in. -/
def slotOf? (a : Allocation) (v : Register) : Option Nat := (a.get? v).bind (·.slotIndex?)

/-- The callee-saved registers that hold a virtual register, each once, in the order of the
virtual registers. -/
def usedCalleeSaved (a : Allocation) (rf : RegisterFile) : List Register :=
  Register.distinct ((a.places.entries.map (·.2)).filter fun r ↦ r.isPhysical && rf.isCalleeSaved r)

/-- A virtual register and its place. -/
def describePlace (rf : RegisterFile) (v place : Register) : String :=
  v.text ++ " -> " ++
    match place.slotIndex? with
    | some slot => "[slot " ++ toString slot ++ "]"
    | none => rf.display place

/-- One line for each virtual register. -/
def describe (a : Allocation) (rf : RegisterFile) : List String :=
  a.places.entries.map fun e ↦ describePlace rf e.1 e.2

end Allocation

end MachineCode

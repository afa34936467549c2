import MachineCode.Operand
import MachineCode.Text

/-!
# Instructions

An instruction is an opcode with its operands. The opcodes are a parameter: each machine brings
its own. A *slot* of an instruction is an operand number with a position in that operand; the
slots of an instruction are listed operand by operand, the base of an address before its index.
-/

namespace MachineCode

/-- An opcode and its operands, in the order in which they are written. -/
structure Instruction (Op : Type) where
  opcode : Op
  operands : List Operand := []
  deriving DecidableEq

/-- A place of an instruction that names a register, with that register. -/
structure Slot where
  operand : Nat
  position : Position
  register : Register
  deriving DecidableEq

namespace Instruction

variable {Op : Type}

/-- The slots of the operands `ops`, the first of which has number `k`. -/
def slotsFrom (k : Nat) : List Operand → List Slot
  | [] => []
  | op :: rest => op.registers.map (fun p ↦ ⟨k, p.1, p.2⟩) ++ slotsFrom (k + 1) rest

/-- The slots of an instruction. -/
def slots (i : Instruction Op) : List Slot := slotsFrom 0 i.operands

/-- The registers that an instruction names, one for each slot. -/
def registers (i : Instruction Op) : List Register := i.slots.map (·.register)

/-- The instruction names a virtual register. -/
def hasVirtual (i : Instruction Op) : Bool := i.registers.any (·.isVirtual)

/-- Put a register into a slot. Without such a slot the instruction stays as it is. -/
def setRegister (i : Instruction Op) (operand : Nat) (p : Position) (r : Register) :
    Instruction Op :=
  { i with operands := i.operands.modify operand (·.setRegister p r) }

/-- Change every register of the instruction by `f`. -/
def mapRegisters (f : Register → Register) (i : Instruction Op) : Instruction Op :=
  { i with operands := i.operands.map (·.mapRegisters f) }

/-- The instruction in neutral text, with the opcode written by `mnemonic`. -/
def text (mnemonic : Op → String) (i : Instruction Op) : String :=
  match i.operands with
  | [] => mnemonic i.opcode
  | ops => mnemonic i.opcode ++ " " ++ Text.joinWith ", " (ops.map Operand.text)

end Instruction

end MachineCode

import MachineCode.Register

/-!
# Operands

An operand of a machine instruction is a register, an immediate number, a label, or a memory
address `disp(base, index, scale)`. The places of an operand where a register stands are its
*positions*: the operand itself, or the base and the index of an address. A position of an address
that names nothing holds the absent register; `Operand.registers` lists the positions that do
name a register, in the order in which they are written.
-/

namespace MachineCode

/-- A memory address: the displacement, plus the base register, plus `scale` times the index
register. Either register may be absent. -/
structure Address where
  disp : Int := 0
  base : Register := .absent
  index : Register := .absent
  scale : Nat := 1
  deriving DecidableEq

/-- What an instruction works on. -/
inductive Operand where
  | reg (r : Register)
  | mem (a : Address)
  | imm (value : Int)
  | label (name : String)
  deriving DecidableEq

/-- Where in an operand a register stands. -/
inductive Position where
  | direct
  | base
  | index
  deriving DecidableEq

namespace Operand

/-- The memory at `disp` bytes from a base register. -/
def memory (disp : Int) (base : Register) : Operand := .mem { disp, base }

/-- The positions that name a register, with that register. -/
def registers : Operand → List (Position × Register)
  | .reg r => [(.direct, r)].filter (!·.2.isAbsent)
  | .mem a => [(.base, a.base), (.index, a.index)].filter (!·.2.isAbsent)
  | .imm _ => []
  | .label _ => []

/-- The register at a position, if the operand has that position. -/
def register? : Operand → Position → Option Register
  | .reg r, .direct => some r
  | .mem a, .base => some a.base
  | .mem a, .index => some a.index
  | _, _ => none

/-- Put a register at a position. An operand without that position stays as it is. -/
def setRegister : Operand → Position → Register → Operand
  | .reg _, .direct, r => .reg r
  | .mem a, .base, r => .mem { a with base := r }
  | .mem a, .index, r => .mem { a with index := r }
  | op, _, _ => op

/-- Change every register of the operand by `f`. -/
def mapRegisters (f : Register → Register) : Operand → Operand
  | .reg r => .reg (f r)
  | .mem a => .mem { a with base := f a.base, index := f a.index }
  | .imm v => .imm v
  | .label n => .label n

/-- The operand in neutral text. -/
def text : Operand → String
  | .reg r => r.text
  | .imm v => "$" ++ toString v
  | .label name => name
  | .mem a =>
    let base := if a.base.isAbsent then "" else a.base.text
    let index :=
      if a.index.isAbsent then "" else ", " ++ a.index.text ++ ", " ++ toString a.scale
    toString a.disp ++ "(" ++ base ++ index ++ ")"

end Operand

end MachineCode

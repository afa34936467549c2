import MachineCode.Code
import MachineCode.Liveness

/-!
# Functions

A function under construction: its instructions so far, and the liveness recorded while they were
appended. The program point of an instruction is its number in the order of appending. A call
boundary recorded at a point belongs to the instruction that will stand there.
-/

namespace MachineCode

/-- A function in machine form. -/
structure Function (Op : Type) where
  name : String
  /-- The bytes of locals right below the frame pointer. -/
  localBytes : Nat := 0
  code : Code Op := {}
  liveness : Liveness := {}

namespace Function

variable {Op : Type}

/-- The program point that the next instruction will have. -/
def point (f : Function Op) : Nat := f.code.size

/-- Append an instruction and record the registers that it names. Gives its handle. -/
def append (f : Function Op) (i : Instruction Op) : Logged Fault (Handle × Function Op) := do
  let liveness ← i.registers.foldlM (fun l r ↦ l.noteUse r f.point) f.liveness
  let (h, code) := f.code.pushBack i
  return (h, { f with code, liveness })

/-- Record a call at the current point. -/
def callBoundary (f : Function Op) : Logged Fault (Function Op) := do
  let liveness ← f.liveness.noteCall f.point
  return { f with liveness }

/-- Append a call of `callee` with `count` arguments, which is a call boundary itself. The count
is an immediate of 64 bits. -/
def appendCall (f : Function Op) (opcode : Op) (callee : Operand) (count : Nat) :
    Logged Fault (Handle × Function Op) := do
  let f ← f.callBoundary
  f.append ⟨opcode, [callee, .imm (Signed64.wrap count)]⟩

/-- End the construction. -/
def finish {ε : Type} (f : Function Op) : Logged ε (Function Op) := do
  Logged.say .debug ("Finished function '" ++ f.name ++ "': " ++ toString f.code.size ++
    " instructions, " ++ toString f.liveness.calls.length ++ " call boundaries")
  return f

end Function

end MachineCode

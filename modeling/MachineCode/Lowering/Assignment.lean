import MachineCode.Allocation
import MachineCode.Error
import MachineCode.Function
import MachineCode.Target

/-!
# Putting assigned registers into the code

After allocation every virtual register that got a physical register is exchanged for it
(`Function.assign`). Those that live in stack slots stay for the spill code. A virtual register
without a place, or with a place that is neither, is an error, reported at the first slot that
shows it; the instruction is quoted as it is then, with the slots before that one exchanged.
-/

namespace MachineCode

namespace Allocation

/-- The physical register that stands for `r` in the code, or `r` itself. -/
def assigned (a : Allocation) (r : Register) : Register :=
  if r.isVirtual then
    match a.get? r with
    | some place => if place.isPhysical then place else r
    | none => r
  else
    r

/-- A virtual register needs a place, and the place has to be a physical register or a stack
slot. -/
def accepts (a : Allocation) (r : Register) : Bool :=
  !r.isVirtual || (a.get? r).any fun place ↦ place.isPhysical || place.isStackSlot

end Allocation

namespace Instruction

variable {Op : Type}

/-- The instruction with its first `k` slots exchanged for their assigned registers. -/
def assignFirst (a : Allocation) (k : Nat) (i : Instruction Op) : Instruction Op :=
  (i.slots.take k).foldl (fun i s ↦ i.setRegister s.operand s.position (a.assigned s.register)) i

/-- The instruction with its assigned registers. -/
def assign (t : Target Op) (function : String) (a : Allocation) (i : Instruction Op) :
    Except CompileError (Instruction Op) :=
  match i.slots.findIdx? fun s ↦ !a.accepts s.register with
  | none => .ok (i.mapRegisters a.assigned)
  | some k =>
    let v := (i.slots[k]?.map (·.register)).getD .absent
    match a.get? v with
    | some place => .error (.invalidAssignment function v place)
    | none => .error (.unmapped function v (t.describe (i.assignFirst a k)))

end Instruction

/-- Exchange the assigned registers in every instruction of a function. -/
def Function.assign {Op : Type} (t : Target Op) (a : Allocation) (f : Function Op) :
    Except CompileError (Function Op) := do
  let code ← f.code.entries.foldlM (fun c e ↦ do
    let i ← e.2.assign t f.name a
    return c.modify e.1 fun _ ↦ i) f.code
  return { f with code }

end MachineCode

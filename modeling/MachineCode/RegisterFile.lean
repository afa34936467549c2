import MachineCode.Register

/-!
# Register files

`RegisterFile` describes the physical registers of a machine and the calling convention on them:
their names, which of them a call preserves, which carry arguments, and which the allocator may
hand out.
-/

namespace MachineCode

/-- The physical registers of a machine, and the convention on their use. -/
structure RegisterFile where
  /-- The names of the physical registers `1, 2, …`. -/
  names : List String
  /-- The registers that a call may change. -/
  callerSaved : List Register
  /-- The registers that a call preserves. -/
  calleeSaved : List Register
  /-- The registers that carry the first arguments of a call, in order. -/
  arguments : List Register
  /-- The registers that may be handed out, the preferred ones first. -/
  allocatable : List Register
  stackPointer : Register
  framePointer : Register
  /-- The register that carries the result of a call. -/
  result : Register

namespace RegisterFile

variable (rf : RegisterFile)

/-- A call may change the register. -/
def isCallerSaved (r : Register) : Bool := rf.callerSaved.contains r

/-- A call preserves the register. -/
def isCalleeSaved (r : Register) : Bool := rf.calleeSaved.contains r

/-- The register carries an argument. -/
def isArgument (r : Register) : Bool := rf.arguments.contains r

/-- The name of a physical register. -/
def name? (r : Register) : Option String :=
  if r.isPhysical then rf.names[r.number - 1]? else none

/-- The name of a register, or its neutral text if the machine has no name for it. -/
def display (r : Register) : String := (rf.name? r).getD r.text

/-- The register with exactly the given name. -/
def named? (name : String) : Option Register :=
  (rf.names.findIdx? (· = name)).map fun i ↦ .ofNumber (i + 1)

/-- The register that is displayed as the given text. -/
def displayed? (text : String) : Option Register :=
  (rf.named? text).orElse fun _ ↦ (Register.ofText? text).filter (rf.display · = text)

/-- The registers that the machine has a name for, with their names. -/
def named : List (Register × String) :=
  rf.names.zipIdx.map fun (name, i) ↦ (.ofNumber (i + 1), name)

end RegisterFile

end MachineCode

import MachineCode.Allocation.LinearScan
import MachineCode.Config
import MachineCode.Lowering

/-!
# Sessions

A session compiles functions for one target under one configuration. Its functions draw their
virtual registers from one counter, so no two of them share a virtual register.

In assembly text a function is its header and one line for each instruction; a program is the start
of the text section and its functions, with an empty line before each.
-/

namespace MachineCode

namespace Target

variable {Op : Type} (t : Target Op)

/-- The assembly text of a function. -/
def functionText (f : Function Op) : String :=
  Text.lines (functionHeader f.name ++ f.code.instructions.map t.formatInstruction)

/-- The assembly text of a program. -/
def programText (fs : List (Function Op)) : String :=
  "\t.text\n" ++ String.join (fs.map fun f ↦ "\n" ++ t.functionText f)

end Target

/-- A compilation session. -/
structure Session (Op : Type) where
  target : Target Op
  config : Config := {}
  counter : Counter := {}

/-- A function in final form, with the allocation and the frame that it was given. -/
structure Compiled (Op : Type) where
  function : Function Op
  allocation : Allocation
  frame : Frame

namespace Session

variable {Op : Type}

/-- The lines that report an allocation: the place of each virtual register, and the ranges of
each physical one. -/
def allocationLines (rf : RegisterFile) (f : Function Op) (a : Allocation) : List String :=
  ["Allocation for '" ++ f.name ++ "' (" ++ toString a.spillCount ++ " spill slots):"] ++
    (a.describe rf).map ("  " ++ ·) ++
    f.liveness.physicalRegisters.map fun e ↦
      "  fixed " ++ rf.display e.1 ++ ": " ++
        Text.joinWith " " (e.2.map fun r ↦ LiveRange.interval r.start r.stop)

/-- Allocate registers for a function and bring it into final form. -/
def compile (s : Session Op) (f : Function Op) : Logged Failure (Compiled Op) := do
  Logged.say .debug ("Compiling function '" ++ f.name ++ "' for " ++ s.target.kind.name)
  let allocation ← (f.liveness.noteAllocate s.target.toRegisterFile).mapError .fault
  let level := if s.config.traceAllocation then .info else .debug
  Logged.sayAll ((allocationLines s.target.toRegisterFile f allocation).map (⟨level, ·⟩))
  let (function, frame) ← f.lower s.target allocation (s.config.preserves f.name)
  return { function, allocation, frame }

/-- The assembly text of a compiled function. -/
def functionText (s : Session Op) (c : Compiled Op) : String := s.target.functionText c.function

/-- The assembly text of a program of compiled functions. -/
def programText (s : Session Op) (cs : List (Compiled Op)) : String :=
  s.target.programText (cs.map (·.function))

end Session

end MachineCode

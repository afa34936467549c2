import MachineCode.Lowering.SpillCode

/-!
# Final code

From an allocated function to its final code: the assigned registers are put in, spill code is put
around the instructions that name spilled registers, and the frame that results from both is set
up at the front and taken down at the end.
-/

namespace MachineCode.Function

variable {Op : Type}

/-- Put the prologue of a frame before the code and its epilogue behind it. -/
def enclose (t : Target Op) (frame : Frame) (f : Function Op) : Except Fault (Function Op) := do
  let prologue ← t.prologue frame
  let epilogue ← t.epilogue frame
  let code ← f.code.insertAllAt f.code.front prologue
  let code ← code.insertAllAt none epilogue
  return { f with code }

/-- The message about the frame of a function. -/
def frameMessage (name : String) (frame : Frame) (total : Nat) : String :=
  "Frame for '" ++ name ++ "': " ++ toString frame.localBytes ++ " local bytes, " ++
    toString frame.spillSlots ++ " spill slots, " ++ toString frame.reservedSlots ++
    " reserved slots, " ++ toString frame.saved.length ++ " saved registers, " ++
    toString total ++ " bytes total"

/-- The final code of a function under an allocation, and its frame. The callee-saved registers
that the allocation uses are preserved only if `preserve` is set. -/
def lower (t : Target Op) (a : Allocation) (preserve : Bool) (f : Function Op) :
    Logged Failure (Function Op × Frame) := do
  let f ← Logged.orError (f.assign t a)
  let (reserved, f) ← f.insertSpillCode t a
  let saved := if preserve then a.usedCalleeSaved t.toRegisterFile else []
  let frame := t.frame f.localBytes a.spillCount reserved saved
  let total ← Logged.orFault frame.totalBytes
  Logged.say .debug (frameMessage f.name frame total)
  let f ← Logged.orFault (f.enclose t frame)
  return (f, frame)

end MachineCode.Function

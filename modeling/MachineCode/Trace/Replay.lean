import MachineCode.Session
import MachineCode.Trace

/-!
# Replaying traces

A function of a trace is built anew in a session. First every step is decoded against the target
(`TraceFunction.decode`): the first step with an unknown name or a number out of range ends it with
an error. Then the steps are done one by one, and every virtual register of the trace becomes a
fresh one of the session where it occurs first.

The session is used for one function after the other, so a replay gives it back with its answer, be
that a function or an error (`Session.replay`). Only a fault ends the session too.
-/

namespace MachineCode

variable {Op : Type}

/-! ### Decoding -/

/-- The register that a trace names. -/
def TraceRegister.decode (t : Target Op) : TraceRegister → Except CompileError Register
  | named name => (t.register? name).elim (.error (.unknownRegister t.kind.name name)) .ok
  | virtual index =>
    (Register.virtual? index.toNat).elim (.error (.virtualOutOfRange index.toNat)) .ok

/-- The register of an address part, absent if the trace names none. -/
def TraceRegister.decodePart (t : Target Op) : Option TraceRegister → Except CompileError Register
  | none => .ok .absent
  | some r => r.decode t

/-- The address that a trace describes. -/
def TraceAddress.decode (t : Target Op) (a : TraceAddress) : Except CompileError Address := do
  let base ← TraceRegister.decodePart t a.base
  let index ← TraceRegister.decodePart t a.index
  return { disp := a.disp.toInt, base, index, scale := a.scale.toNat }

/-- The operand that a trace describes. -/
def TraceOperand.decode (t : Target Op) : TraceOperand → Except CompileError Operand
  | reg r => .reg <$> r.decode t
  | imm value => .ok (.imm value.toInt)
  | label name => .ok (.label name)
  | mem a => .mem <$> a.decode t

/-- A step of a function under construction. -/
inductive BuildStep (Op : Type) where
  | append (i : Instruction Op)
  | callBoundary

/-- The step that a trace describes. -/
def TraceStep.decode (t : Target Op) : TraceStep → Except CompileError (BuildStep Op)
  | callBoundary => .ok .callBoundary
  | emit opcode operands => do
    let op ← (t.opcode? opcode).elim (.error (.unknownOpcode t.kind.name opcode)) .ok
    let operands ← operands.mapM (·.decode t)
    return .append ⟨op, operands⟩

/-- The steps that a trace describes for a function. The virtual registers still have their
numbers in the trace. -/
def TraceFunction.decode (t : Target Op) (f : TraceFunction) :
    Except CompileError (List (BuildStep Op)) :=
  f.steps.mapM (·.decode t)

/-! ### Renaming -/

/-- Fresh registers for the virtual registers met so far, the latest first, and the supply of
further ones. -/
structure Renaming where
  counter : Counter
  names : List (Register × Register) := []

namespace Renaming

/-- The register that `r` has become. -/
def apply (m : Renaming) (r : Register) : Register := (m.names.lookup r).getD r

/-- Give `r` a fresh register, if it is a virtual register that has none. -/
def meet (m : Renaming) (r : Register) : Except Fault Renaming :=
  if r.isVirtual && (m.names.lookup r).isNone then do
    let (v, counter) ← m.counter.fresh
    return { counter, names := (r, v) :: m.names }
  else
    .ok m

end Renaming

/-! ### Replay -/

/-- Do one step, with its virtual registers renamed. -/
def BuildStep.replay (step : BuildStep Op) (m : Renaming) (f : Function Op) :
    Logged Fault (Renaming × Function Op) :=
  match step with
  | callBoundary => do return (m, ← f.callBoundary)
  | append i => do
    let m ← Logged.ofExcept (i.registers.foldlM Renaming.meet m)
    let (_, f) ← f.append (i.mapRegisters m.apply)
    return (m, f)

/-- Do steps in order. -/
def BuildStep.replayAll (steps : List (BuildStep Op)) (start : Renaming × Function Op) :
    Logged Fault (Renaming × Function Op) :=
  steps.foldlM (fun p step ↦ step.replay p.1 p.2) start

namespace Session

/-- Build a function of a trace. Gives the function, or the error that stands against it, and the
session to go on with. -/
def replay (s : Session Op) (tf : TraceFunction) :
    Logged Fault (Except CompileError (Function Op) × Session Op) :=
  match tf.decode s.target with
  | .error e => return (.error e, s)
  | .ok steps => do
    let start : Renaming × Function Op :=
      ({ counter := s.counter }, { name := tf.name, localBytes := tf.localBytes.toNat })
    let (m, f) ← BuildStep.replayAll steps start
    let f ← f.finish
    return (.ok f, { s with counter := m.counter })

/-- Build and compile the functions of a trace, up to the first failure. -/
def compileAll (s : Session Op) : List TraceFunction → Logged Failure (List (Compiled Op))
  | [] => pure []
  | tf :: rest => do
    let (built, s) ← (s.replay tf).mapError .fault
    let c ← s.compile (← Logged.orError built)
    return c :: (← s.compileAll rest)

/-- The assembly text of the program that a trace describes. -/
def compileTrace (s : Session Op) (t : Trace) : Logged Failure String := do
  return s.programText (← s.compileAll t.functions)

end Session

end MachineCode

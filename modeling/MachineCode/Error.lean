import MachineCode.Fault
import MachineCode.Log

/-!
# Compile errors

What can be wrong with a function that is handed over for compilation. `CompileError` lists the
causes with what identifies each of them, and `CompileError.message` holds their wording.

A computation on a function ends in one of three ways: with a value, with a compile error, or with
a fault. `Failure` is the sum of the last two.
-/

namespace MachineCode

/-- Why a function cannot be compiled. -/
inductive CompileError where
  /-- A virtual register of the function has no place in the allocation. -/
  | unmapped (function : String) (reg : Register) (instruction : String)
  /-- Every register that spill code could borrow is taken. -/
  | noScratch (function : String) (reg : Register) (instruction : String) (inUse : String)
  /-- A virtual register was placed neither in a physical register nor in a stack slot. -/
  | invalidAssignment (function : String) (reg assigned : Register)
  /-- An instruction does not have the operands that its opcode asks for. -/
  | malformedOperand (function : String) (instruction : String) (detail : String)
  /-- The machine has no register of this name. -/
  | unknownRegister (target name : String)
  /-- The machine has no opcode of this name. -/
  | unknownOpcode (target name : String)
  /-- There are fewer virtual registers than the index asks for. -/
  | virtualOutOfRange (index : Nat)
  /-- Any other breach of a contract between the parts of the compiler. -/
  | internal (detail : String)
  deriving DecidableEq

/-- The text of a compile error. -/
def CompileError.message : CompileError → String
  | unmapped f r i =>
    "Virtual register " ++ r.text ++ " used in `" ++ f ++ "` has no allocation (instruction: " ++
      i ++ ")"
  | noScratch f r i u =>
    "No scratch register available for " ++ r.text ++ " in `" ++ f ++ "` (instruction: " ++ i ++
      ", in use: " ++ u ++ ")"
  | invalidAssignment f r a =>
    "Virtual register " ++ r.text ++ " in `" ++ f ++ "` was assigned " ++ a.text ++
      ", expected a physical register or stack slot"
  | malformedOperand f i d =>
    "Malformed operand in `" ++ f ++ "`: " ++ d ++ " (instruction: " ++ i ++ ")"
  | unknownRegister t n => "Unknown register `" ++ n ++ "` for target " ++ t
  | unknownOpcode t n => "Unknown opcode `" ++ n ++ "` for target " ++ t
  | virtualOutOfRange n =>
    "Virtual register index " ++ toString n ++ " does not fit in the virtual register range"
  | internal d => "Internal compiler error: " ++ d

/-- How a computation can end without a value. -/
inductive Failure where
  | error (e : CompileError)
  | fault (f : Fault)
  deriving DecidableEq

/-- The text of a failure. -/
def Failure.message : Failure → String
  | .error e => e.message
  | .fault f => f.message

namespace Logged

variable {α : Type}

/-- A computation that may fault, among those that may also meet a compile error. -/
def orFault (x : Except Fault α) : Logged Failure α := ofExcept (x.mapError .fault)

/-- A computation that may meet a compile error, among those that may also fault. -/
def orError (x : Except CompileError α) : Logged Failure α := ofExcept (x.mapError .error)

@[simp] theorem result_orFault (x : Except Fault α) :
    (orFault x).result = x.mapError .fault := rfl

@[simp] theorem result_orError (x : Except CompileError α) :
    (orError x).result = x.mapError .error := rfl

end Logged

end MachineCode

import MachineCode.Frame
import MachineCode.Instruction
import MachineCode.RegisterFile

/-!
# Targets

`Target Op` is a machine with opcodes `Op`, as far as code generation needs to know it: its
register file, which registers an instruction touches without naming them, how a register goes to
the frame and comes back, how a function begins and ends, and how instructions are written.

`TargetKind` names the machines that there are.
-/

namespace MachineCode

/-- The machines that code can be made for. -/
inductive TargetKind where
  | x86
  | riscV
  deriving DecidableEq

namespace TargetKind

/-- The name of a machine. -/
def name : TargetKind → String
  | x86 => "x86_64"
  | riscV => "riscv64"

/-- All machines. -/
def all : List TargetKind := [x86, riscV]

/-- The machine with exactly this name. -/
def ofName? (s : String) : Option TargetKind := all.find? (·.name = s)

/-- Every word that a user may call a machine by. -/
def spellings : List (String × TargetKind) :=
  [("x86_64", x86), ("x86-64", x86), ("x86", x86), ("amd64", x86),
    ("riscv64", riscV), ("riscv", riscV), ("rv64", riscV)]

/-- The machine that a user means, whatever the case of the ASCII letters. -/
def ofUserText? (s : String) : Option TargetKind := spellings.lookup (s.map Char.toLower)

/-- What a user is told about a word that names no machine. -/
def unknownMessage (s : String) : String :=
  "unknown target `" ++ s.map Char.toLower ++ "` (expected x86_64 or riscv64)"

end TargetKind

/-- What is wrong with the operands of a call. -/
inductive MalformedCall where
  | negativeCount (count : Int)
  | countNotImmediate
  | countMissing
  deriving DecidableEq

/-- The text for a malformed call. -/
def MalformedCall.message : MalformedCall → String
  | negativeCount n => "negative call argument count " ++ toString n
  | countNotImmediate => "call argument count must be an immediate"
  | countMissing => "call is missing its argument count operand"

/-- The number of arguments of a call: the immediate in its second operand. -/
def Instruction.argumentCount {Op : Type} (i : Instruction Op) : Except MalformedCall Nat :=
  match (i.operands[1]? : Option Operand) with
  | some (.imm n) => if 0 ≤ n then .ok n.toNat else .error (.negativeCount n)
  | some _ => .error .countNotImmediate
  | none => .error .countMissing

/-- A machine with opcodes `Op`. -/
structure Target (Op : Type) extends RegisterFile where
  kind : TargetKind
  /-- The bytes of a register. -/
  registerSize : Nat := 8
  /-- The alignment of the stack pointer. -/
  stackAlignment : Nat := 16
  /-- The opcode of a written name. -/
  opcode? : String → Option Op
  /-- What is said about a name that no opcode has. -/
  unknownOpcode : String → String
  /-- The name of an opcode in assembly text. -/
  mnemonic : Op → String
  /-- The name of an opcode in a serialized trace. -/
  opcodeName : Op → String
  /-- The register that a written name denotes. -/
  register? : String → Option Register
  /-- The physical registers that an instruction uses without naming them. -/
  implicitUses : Instruction Op → Except MalformedCall (List Register)
  /-- The instruction calls a function, and so changes the caller-saved registers. -/
  isCall : Instruction Op → Bool
  /-- Store a register at an offset from the frame pointer. -/
  store : Register → Int → Instruction Op
  /-- Load a register from an offset from the frame pointer. -/
  load : Int → Register → Instruction Op
  /-- The instructions that set up a frame. -/
  prologue : Frame → Except Fault (List (Instruction Op))
  /-- The instructions that take a frame down and return. -/
  epilogue : Frame → Except Fault (List (Instruction Op))
  /-- An operand in assembly text. -/
  formatOperand : Operand → String
  /-- A line of assembly text, with its indentation. -/
  formatInstruction : Instruction Op → String

namespace Target

variable {Op : Type} (t : Target Op)

/-- The frame of a function on this machine. -/
def frame (localBytes spillSlots reservedSlots : Nat) (saved : List Register) : Frame :=
  { localBytes, spillSlots, reservedSlots, saved,
    registerSize := t.registerSize, alignment := t.stackAlignment }

/-- The same machine with other registers to hand out. -/
def withAllocatable (rs : List Register) : Target Op := { t with allocatable := rs }

/-- The lines that announce a function. -/
def functionHeader (name : String) : List String :=
  ["\t.globl " ++ name, "\t.type " ++ name ++ ", @function", name ++ ":"]

/-- An instruction as it is quoted in messages: its line without blanks around it. -/
def describe (i : Instruction Op) : String := Text.trim (t.formatInstruction i)

/-- A line with a mnemonic and operands, as every instruction without a form of its own is
written. -/
def formatPlain (mnemonic : String) (operand : Operand → String) : List Operand → String
  | [] => "\t" ++ mnemonic
  | ops => "\t" ++ mnemonic ++ " " ++ Text.joinWith ", " (ops.map operand)

end Target

end MachineCode

import MachineCode.Target

/-!
# The x86-64 machine

Sixteen registers under the System V calling convention, instructions of two operands with the
destination last, and AT&T writing. A function pushes what it saves, points `rbp` at the saved
`rbp`, and lowers `rsp` by the padded body.
-/

namespace MachineCode.X86

/-! ### Registers -/

def rax : Register := ⟨1⟩
def rdi : Register := ⟨2⟩
def rsi : Register := ⟨3⟩
def rdx : Register := ⟨4⟩
def rcx : Register := ⟨5⟩
def r8 : Register := ⟨6⟩
def r9 : Register := ⟨7⟩
def r10 : Register := ⟨8⟩
def r11 : Register := ⟨9⟩
def rsp : Register := ⟨10⟩
def rbp : Register := ⟨11⟩
def rbx : Register := ⟨12⟩
def r12 : Register := ⟨13⟩
def r13 : Register := ⟨14⟩
def r14 : Register := ⟨15⟩
def r15 : Register := ⟨16⟩

/-- The registers of the machine and their convention. -/
def registerFile : RegisterFile where
  names := ["rax", "rdi", "rsi", "rdx", "rcx", "r8", "r9", "r10", "r11", "rsp", "rbp", "rbx",
    "r12", "r13", "r14", "r15"]
  callerSaved := [rax, rdi, rsi, rdx, rcx, r8, r9, r10, r11]
  calleeSaved := [rsp, rbp, rbx, r12, r13, r14, r15]
  arguments := [rdi, rsi, rdx, rcx, r8, r9]
  allocatable := [rax, rdi, rsi, rdx, rcx, r8, r9, r10, r11, rbx, r12, r13, r14, r15]
  stackPointer := rsp
  framePointer := rbp
  result := rax

/-! ### Opcodes -/

/-- The opcodes, all on 64-bit operands. -/
inductive Opcode where
  | mov | lea | cmp | jmp | je | jne | jg | jle | add | sub | imul | idiv | cqto | call | xor
  | push | pop | ret | label
  deriving DecidableEq

namespace Opcode

/-- All opcodes. -/
def all : List Opcode :=
  [mov, lea, cmp, jmp, je, jne, jg, jle, add, sub, imul, idiv, cqto, call, xor, push, pop, ret,
    label]

/-- The name without operand size. -/
def name : Opcode → String
  | mov => "mov"
  | lea => "lea"
  | cmp => "cmp"
  | jmp => "jmp"
  | je => "je"
  | jne => "jne"
  | jg => "jg"
  | jle => "jle"
  | add => "add"
  | sub => "sub"
  | imul => "imul"
  | idiv => "idiv"
  | cqto => "cqto"
  | call => "call"
  | xor => "xor"
  | push => "push"
  | pop => "pop"
  | ret => "ret"
  | label => "label"

/-- The assembly name, with the suffix for 64-bit operands where there is one. -/
def mnemonic : Opcode → String
  | jmp => "jmp"
  | je => "je"
  | jne => "jne"
  | jg => "jg"
  | jle => "jle"
  | cqto => "cqto"
  | label => "label"
  | op => op.name ++ "q"

/-- The opcode written `s`, with or without the suffix. -/
def ofText? (s : String) : Option Opcode := all.find? fun op ↦ op.name = s ∨ op.mnemonic = s

end Opcode

/-! ### Instructions -/

/-- The registers that an instruction uses without naming them: division works on `rdx` and
`rax`, and a call on its result and argument registers. -/
def implicitUses (i : Instruction Opcode) : Except MalformedCall (List Register) :=
  match i.opcode with
  | .idiv => .ok [rax, rdx]
  | .cqto => .ok [rax, rdx]
  | .call => do return rax :: registerFile.arguments.take (← i.argumentCount)
  | _ => .ok []

/-- Store a register in the frame. -/
def store (r : Register) (offset : Int) : Instruction Opcode :=
  ⟨.mov, [.reg r, .memory offset rbp]⟩

/-- Load a register from the frame. -/
def load (offset : Int) (r : Register) : Instruction Opcode :=
  ⟨.mov, [.memory offset rbp, .reg r]⟩

/-- Push the saved registers and the frame pointer, set the frame pointer, and make room for the
body. -/
def prologue (f : Frame) : Except Fault (List (Instruction Opcode)) := do
  let body ← f.paddedBodyBytes
  let room := if body = 0 then [] else [⟨.sub, [.imm body, .reg rsp]⟩]
  return f.saved.map (fun r ↦ ⟨.push, [.reg r]⟩) ++
    [⟨.push, [.reg rbp]⟩, ⟨.mov, [.reg rsp, .reg rbp]⟩] ++ room

/-- Give back the room of the body, pop what was pushed, and return. -/
def epilogue (f : Frame) : Except Fault (List (Instruction Opcode)) := do
  let body ← f.paddedBodyBytes
  let room := if body = 0 then [] else [⟨.add, [.imm body, .reg rsp]⟩]
  return room ++ [⟨.pop, [.reg rbp]⟩] ++ f.saved.reverse.map (fun r ↦ ⟨.pop, [.reg r]⟩) ++
    [⟨.ret, []⟩]

/-! ### Text -/

/-- The characters behind the percent signs at the front. -/
def withoutPercent (s : String) : String := String.ofList (s.toList.dropWhile (· = '%'))

/-- The register that a name with or without percent sign denotes. -/
def register? (name : String) : Option Register := registerFile.named? (withoutPercent name)

/-- A register with one percent sign before its name. -/
def formatRegister (r : Register) : String := "%" ++ withoutPercent (registerFile.display r)

/-- A memory address. A displacement of zero is left out where a register is named. -/
def formatAddress (a : Address) : String :=
  if a.base.isAbsent ∧ a.index.isAbsent then
    toString a.disp
  else
    let disp := if a.disp = 0 then "" else toString a.disp
    let base := if a.base.isAbsent then "" else formatRegister a.base
    let index :=
      if a.index.isAbsent then "" else "," ++ formatRegister a.index ++ "," ++ toString a.scale
    disp ++ "(" ++ base ++ index ++ ")"

/-- An operand in assembly text. -/
def formatOperand : Operand → String
  | .reg r => formatRegister r
  | .imm v => "$" ++ toString v
  | .label name => name
  | .mem a => formatAddress a

/-- The target of a call: a label as it is, anything else with a star. -/
def formatCallee : Operand → String
  | .label name => name
  | op => "*" ++ formatOperand op

/-- A line of assembly text. -/
def formatInstruction (i : Instruction Opcode) : String :=
  match i.opcode, i.operands with
  | .label, .label name :: _ => name ++ ":"
  | .call, callee :: _ => "\t" ++ Opcode.call.mnemonic ++ " " ++ formatCallee callee
  | .lea, [.label name, dst] =>
    "\t" ++ Opcode.lea.mnemonic ++ " " ++ name ++ "(%rip), " ++ formatOperand dst
  | op, ops => Target.formatPlain op.mnemonic formatOperand ops

/-- The machine. -/
def target : Target Opcode where
  toRegisterFile := registerFile
  kind := .x86
  opcode? := Opcode.ofText?
  unknownOpcode s := "unknown x86-64 opcode `" ++ s ++ "`"
  mnemonic := Opcode.mnemonic
  opcodeName := Opcode.name
  register? := register?
  implicitUses := implicitUses
  isCall i := i.opcode = .call
  store := store
  load := load
  prologue := prologue
  epilogue := epilogue
  formatOperand := formatOperand
  formatInstruction := formatInstruction

end MachineCode.X86

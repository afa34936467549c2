import MachineCode.Target.X86

/-!
# The RISC-V machine

Thirty-two registers under the LP64 calling convention, instructions with the destination first.
A frame of at most `maxAddiFrame` bytes is made by one `addi`; its save area lies above the body.
A larger frame is made in two steps: first the save area, then the body through `t0`.

This is the second of the two machines. `TargetKind.target` gives them by their kind.
-/

namespace MachineCode

namespace RiscV

/-! ### Registers -/

def zero : Register := ⟨1⟩
def ra : Register := ⟨2⟩
def sp : Register := ⟨3⟩
def gp : Register := ⟨4⟩
def tp : Register := ⟨5⟩
def t0 : Register := ⟨6⟩
def t1 : Register := ⟨7⟩
def t2 : Register := ⟨8⟩
def fp : Register := ⟨9⟩
def s1 : Register := ⟨10⟩
def a0 : Register := ⟨11⟩
def a1 : Register := ⟨12⟩
def a2 : Register := ⟨13⟩
def a3 : Register := ⟨14⟩
def a4 : Register := ⟨15⟩
def a5 : Register := ⟨16⟩
def a6 : Register := ⟨17⟩
def a7 : Register := ⟨18⟩
def s2 : Register := ⟨19⟩
def s3 : Register := ⟨20⟩
def s4 : Register := ⟨21⟩
def s5 : Register := ⟨22⟩
def s6 : Register := ⟨23⟩
def s7 : Register := ⟨24⟩
def s8 : Register := ⟨25⟩
def s9 : Register := ⟨26⟩
def s10 : Register := ⟨27⟩
def s11 : Register := ⟨28⟩
def t3 : Register := ⟨29⟩
def t4 : Register := ⟨30⟩
def t5 : Register := ⟨31⟩
def t6 : Register := ⟨32⟩

/-- The registers of the machine and their convention. -/
def registerFile : RegisterFile where
  names := ["zero", "ra", "sp", "gp", "tp", "t0", "t1", "t2", "fp", "s1", "a0", "a1", "a2", "a3",
    "a4", "a5", "a6", "a7", "s2", "s3", "s4", "s5", "s6", "s7", "s8", "s9", "s10", "s11", "t3",
    "t4", "t5", "t6"]
  callerSaved := [ra, t0, t1, t2, a0, a1, a2, a3, a4, a5, a6, a7, t3, t4, t5, t6]
  calleeSaved := [sp, fp, s1, s2, s3, s4, s5, s6, s7, s8, s9, s10, s11]
  arguments := [a0, a1, a2, a3, a4, a5, a6, a7]
  allocatable := [t0, t1, t2, s1, a0, a1, a2, a3, a4, a5, a6, a7, s2, s3, s4, s5, s6, s7, s8, s9,
    s10, s11, t3, t4, t5, t6]
  stackPointer := sp
  framePointer := fp
  result := a0

/-! ### Opcodes -/

/-- The opcodes. -/
inductive Opcode where
  | ld | sd | mv | li | la | beq | bne | bgt | ble | j | add | addi | sub | mul | div | call
  | jalr | ret | label
  deriving DecidableEq

namespace Opcode

/-- All opcodes. -/
def all : List Opcode :=
  [ld, sd, mv, li, la, beq, bne, bgt, ble, j, add, addi, sub, mul, div, call, jalr, ret, label]

/-- The name of an opcode. -/
def mnemonic : Opcode → String
  | ld => "ld"
  | sd => "sd"
  | mv => "mv"
  | li => "li"
  | la => "la"
  | beq => "beq"
  | bne => "bne"
  | bgt => "bgt"
  | ble => "ble"
  | j => "j"
  | add => "add"
  | addi => "addi"
  | sub => "sub"
  | mul => "mul"
  | div => "div"
  | call => "call"
  | jalr => "jalr"
  | ret => "ret"
  | label => "label"

/-- The opcode written `s`. -/
def ofText? (s : String) : Option Opcode := all.find? (·.mnemonic = s)

end Opcode

/-! ### Instructions -/

/-- The registers that an instruction uses without naming them: a call uses its result and
argument registers, of which the first is one and the same. -/
def implicitUses (i : Instruction Opcode) : Except MalformedCall (List Register) :=
  match i.opcode with
  | .call => do return a0 :: (registerFile.arguments.take (← i.argumentCount)).drop 1
  | _ => .ok []

/-- Store a register at an offset from another. -/
def sd (r : Register) (offset : Int) (base : Register) : Instruction Opcode :=
  ⟨.sd, [.reg r, .memory offset base]⟩

/-- Load a register from an offset from another. -/
def ld (r : Register) (offset : Int) (base : Register) : Instruction Opcode :=
  ⟨.ld, [.reg r, .memory offset base]⟩

/-- Add a constant to a register. -/
def addi (dst src : Register) (value : Int) : Instruction Opcode :=
  ⟨.addi, [.reg dst, .reg src, .imm value]⟩

/-- The largest frame that one `addi` can make. -/
def maxAddiFrame : Nat := 2048

/-- Save or restore `ra`, `fp` and the saved registers, one after the other from `offset(sp)` up. -/
def transfer (op : Register → Int → Register → Instruction Opcode) (offset : Nat)
    (saved : List Register) : List (Instruction Opcode) :=
  (ra :: fp :: saved).zipIdx.map fun (r, i) ↦ op r (offset + 8 * i : Nat) sp

/-- Make the frame and save what has to be saved. -/
def prologue (f : Frame) : Except Fault (List (Instruction Opcode)) := do
  let total ← f.totalBytes
  let body ← f.bodyBytes
  if total ≤ maxAddiFrame then
    return [addi sp sp (-total)] ++ transfer sd body f.saved ++ [addi fp sp body]
  else
    let save ← Frame.alignUp (← f.saveBytes) f.alignment
    let room ← Frame.alignUp body f.alignment
    return [addi sp sp (-save)] ++ transfer sd 0 f.saved ++
      [addi fp sp 0, ⟨.li, [.reg t0, .imm room]⟩, ⟨.sub, [.reg sp, .reg sp, .reg t0]⟩]

/-- Restore what was saved, take the frame down, and return. -/
def epilogue (f : Frame) : Except Fault (List (Instruction Opcode)) := do
  let total ← f.totalBytes
  let body ← f.bodyBytes
  if total ≤ maxAddiFrame then
    return transfer ld body f.saved ++ [addi sp sp total, ⟨.ret, []⟩]
  else
    let save ← Frame.alignUp (← f.saveBytes) f.alignment
    return [addi sp fp 0] ++ transfer ld 0 f.saved ++ [addi sp sp save, ⟨.ret, []⟩]

/-! ### Text -/

/-- The register that a name denotes; `s0` is another name of `fp`. -/
def register? (name : String) : Option Register :=
  registerFile.named? (if name = "s0" then "fp" else name)

/-- An operand in assembly text. Addresses have no index on this machine. -/
def formatOperand : Operand → String
  | .reg r => registerFile.display r
  | .imm v => toString v
  | .label name => name
  | .mem a =>
    if a.base.isAbsent then toString a.disp
    else toString a.disp ++ "(" ++ registerFile.display a.base ++ ")"

/-- A line of assembly text. -/
def formatInstruction (i : Instruction Opcode) : String :=
  match i.opcode, i.operands with
  | .label, .label name :: _ => name ++ ":"
  | .call, .label name :: _ => "\tcall " ++ name
  | .call, callee :: _ => "\tjalr " ++ formatOperand callee
  | op, ops => Target.formatPlain op.mnemonic formatOperand ops

/-- The machine. -/
def target : Target Opcode where
  toRegisterFile := registerFile
  kind := .riscV
  opcode? := Opcode.ofText?
  unknownOpcode s := "unknown riscv64 opcode `" ++ s ++ "`"
  mnemonic := Opcode.mnemonic
  opcodeName := Opcode.mnemonic
  register? := register?
  implicitUses := implicitUses
  isCall i := i.opcode = .call
  store r offset := sd r offset fp
  load offset r := ld r offset fp
  prologue := prologue
  epilogue := epilogue
  formatOperand := formatOperand
  formatInstruction := formatInstruction

end RiscV

/-! ### The machines by kind -/

namespace TargetKind

/-- The opcodes of a machine. -/
def Opcode : TargetKind → Type
  | x86 => X86.Opcode
  | riscV => RiscV.Opcode

/-- The description of a machine. -/
def target : (k : TargetKind) → Target k.Opcode
  | x86 => X86.target
  | riscV => RiscV.target

theorem kind_target (k : TargetKind) : k.target.kind = k := by
  cases k <;> rfl

end TargetKind

end MachineCode

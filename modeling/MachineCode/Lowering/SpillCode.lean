import MachineCode.Lowering.Assignment

/-!
# Spill code

An instruction that still names virtual registers cannot run: they live in stack slots. Around
such an instruction each of them is lent a physical register that the instruction does not touch
(`Loan`). Before the instruction the lent register is put away into a reserved slot of the frame
and filled from the stack slot; after the instruction it is written back to the stack slot and
refilled from the reserved slot. So no value that the allocation placed is disturbed.

A call changes caller-saved registers, so none of them is lent to a call.
-/

namespace MachineCode

/-- A physical register lent to a spilled one. -/
structure Loan where
  vreg : Register
  /-- The stack slot that the spilled register lives in. -/
  slot : Nat
  scratch : Register
  deriving DecidableEq

namespace Loan

/-- The register that stands for `r` under some loans. -/
def substitute (loans : List Loan) (r : Register) : Register :=
  ((loans.find? (·.vreg = r)).map (·.scratch)).getD r

end Loan

/-- The frame slots that spill code works with. -/
structure SpillArea where
  localBytes : Nat
  registerSize : Nat
  spillCount : Nat
  deriving DecidableEq

namespace SpillArea

variable {Op : Type}

/-- The offset of a stack slot from the frame pointer. -/
def slotOffset (s : SpillArea) (slot : Nat) : Int :=
  Frame.spillOffset s.localBytes s.registerSize slot

/-- The offset of a reserved slot from the frame pointer. -/
def reservedOffset (s : SpillArea) (nth : Nat) : Int :=
  Frame.reservedOffset s.localBytes s.registerSize s.spillCount nth

/-- Before an instruction: put the lent register of the `nth` loan away, and fill it. -/
def before (s : SpillArea) (t : Target Op) (nth : Nat) (l : Loan) : List (Instruction Op) :=
  [t.store l.scratch (s.reservedOffset nth), t.load (s.slotOffset l.slot) l.scratch]

/-- After an instruction: write the lent register of the `nth` loan back, and refill it. -/
def after (s : SpillArea) (t : Target Op) (nth : Nat) (l : Loan) : List (Instruction Op) :=
  [t.store l.scratch (s.slotOffset l.slot), t.load (s.reservedOffset nth) l.scratch]

end SpillArea

namespace Instruction

variable {Op : Type}

/-- The virtual registers that an instruction names, each once, in the order of their first
slots. -/
def spilled (i : Instruction Op) : List Register :=
  Register.distinct (i.registers.filter (·.isVirtual))

/-- The first allocatable register that is not in use. To a call only one that it preserves is
lent. -/
def scratch? (t : Target Op) (inUse : List Register) (i : Instruction Op) : Option Register :=
  t.allocatable.find? fun r ↦ !inUse.contains r && !(t.isCall i && t.isCallerSaved r)

/-- Lend a register to each of the given virtual registers, after the loans in `done`. The
registers in `inUse` are those that the instruction touches. -/
def lendAll (t : Target Op) (function : String) (a : Allocation) (area : SpillArea)
    (i : Instruction Op) (inUse : List Register) (done : List Loan) :
    List Register → Logged Failure (List Loan)
  | [] => pure done
  | v :: rest => do
    let current := t.describe (i.mapRegisters (Loan.substitute done))
    let taken := inUse ++ done.map (·.scratch)
    let slot ← Logged.orError <|
      (a.slotOf? v).elim (.error (.unmapped function v current)) .ok
    let scratch ← Logged.orError <|
      (i.scratch? t taken).elim
        (.error (.noScratch function v current (Text.joinWith ", " (taken.map t.display)))) .ok
    Logged.say .trace ("  " ++ v.text ++ " in '" ++ function ++ "': scratch " ++
      t.display scratch ++ " (slot " ++ toString slot ++ " at " ++
      toString (area.slotOffset slot) ++ ", saved at " ++
      toString (area.reservedOffset (done.length + 1)) ++ ")")
    lendAll t function a area i inUse (done ++ [⟨v, slot, scratch⟩]) rest

/-- The loans that an instruction needs. -/
def loans (t : Target Op) (function : String) (a : Allocation) (area : SpillArea)
    (i : Instruction Op) : Logged Failure (List Loan) :=
  if i.spilled.isEmpty then
    pure []
  else
    match t.implicitUses i with
    | .error e => Logged.fail (.error (.malformedOperand function (t.describe i) e.message))
    | .ok implicit =>
      lendAll t function a area i (implicit ++ i.registers.filter (·.isPhysical)) [] i.spilled

end Instruction

namespace Code

variable {Op : Type}

/-- Put the spill code for some loans around the instruction `h`, and the lent registers into
it. -/
def wrap (c : Code Op) (t : Target Op) (area : SpillArea) (h : Handle) (loans : List Loan) :
    Except Fault (Code Op) := do
  let anchor ← c.next h
  let c ← loans.zipIdx.foldlM (fun c (l, n) ↦ do
    let c ← c.insertAllAt (some h) (area.before t (n + 1) l)
    c.insertAllAt anchor (area.after t (n + 1) l)) c
  return c.modify h (·.mapRegisters (Loan.substitute loans))

end Code

namespace Function

variable {Op : Type}

/-- The frame slots that the spill code of a function works with. -/
def spillArea (t : Target Op) (a : Allocation) (f : Function Op) : SpillArea :=
  ⟨f.localBytes, t.registerSize, a.spillCount⟩

/-- Put spill code around every instruction that needs it. Gives the largest number of loans of
one instruction. -/
def insertSpillCode (t : Target Op) (a : Allocation) (f : Function Op) :
    Logged Failure (Nat × Function Op) := do
  let area := f.spillArea t a
  let (reserved, code) ← f.code.entries.foldlM (fun (reserved, c) e ↦ do
    let loans ← e.2.loans t f.name a area
    let c ← Logged.orFault (c.wrap t area e.1 loans)
    return (max reserved loans.length, c)) (0, f.code)
  return (reserved, { f with code })

end Function

end MachineCode

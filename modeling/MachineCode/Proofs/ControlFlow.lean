import MachineCode.Code
import MachineCode.Proofs.Renaming
import MachineCode.Target.RiscV

/-!
# Flow of data and of control

`Flow Op` says of a machine which registers an instruction reads and writes, and where control may
go from it: on to the next instruction, or to a label. A jump names its label in its last operand;
if there is something else, as in a jump through a register, then control may go to any label.
`X86.flow` and `RiscV.flow` are the two machines.

`Flow.leads` is one step of control between positions of a code, and `Flow.Leaves` the way that
control takes through a part of the code until it is outside. From a block of straight code around
one instruction control can get out in two ways (`leaves_block_iff`): behind the last instruction of
the block, or from the instruction in the middle to a label.
-/

namespace MachineCode

/-- What an instruction does to a register that is an operand of it. -/
inductive Access where
  | read
  | write
  | update
  deriving DecidableEq

/-- What a machine says about the flow of data and of control. -/
structure Flow (Op : Type) where
  /-- What an instruction with `count` operands does to operand number `n`. -/
  access : Op → (count n : Nat) → Access
  /-- Control may go on to the next instruction. -/
  falls : Op → Bool
  /-- Control may go to a label. -/
  jumps : Op → Bool
  /-- The instruction is a label. -/
  marks : Op → Bool

namespace Flow

variable {Op : Type} (flow : Flow Op)

/-! ### Data -/

/-- The registers of an operand that are read. The registers of an address always are. -/
def readOf (a : Access) (op : Operand) : List Register :=
  match op, a with
  | .reg _, .write => []
  | _, _ => op.registers.map (·.2)

/-- The registers of an operand that are written. Those of an address never are. -/
def writtenOf (a : Access) (op : Operand) : List Register :=
  match op, a with
  | .reg _, .write => op.registers.map (·.2)
  | .reg _, .update => op.registers.map (·.2)
  | _, _ => []

/-- The registers that an instruction reads, of those that it names. -/
def reads (i : Instruction Op) : List Register :=
  i.operands.zipIdx.flatMap fun x ↦ readOf (flow.access i.opcode i.operands.length x.2) x.1

/-- The registers that an instruction writes, of those that it names. -/
def writes (i : Instruction Op) : List Register :=
  i.operands.zipIdx.flatMap fun x ↦ writtenOf (flow.access i.opcode i.operands.length x.2) x.1

theorem readOf_subset {a : Access} {op : Operand} {r : Register} (h : r ∈ readOf a op) :
    r ∈ op.registers.map (·.2) := by
  unfold readOf at h
  split at h
  · cases h
  · exact h

theorem writtenOf_subset {a : Access} {op : Operand} {r : Register} (h : r ∈ writtenOf a op) :
    r ∈ op.registers.map (·.2) := by
  unfold writtenOf at h
  split at h
  · exact h
  · exact h
  · cases h

/-- What is collected from the operands of an instruction is named by it. -/
theorem mem_registers_of_mem_zipIdx {i : Instruction Op} {x : Operand × Nat}
    (hx : x ∈ i.operands.zipIdx) {r : Register} (hr : r ∈ x.1.registers.map (·.2)) :
    r ∈ i.registers := by
  rw [Instruction.registers_eq]
  exact List.mem_flatMap.2 ⟨x.1, List.fst_mem_of_mem_zipIdx hx, hr⟩

variable {flow}

/-- An instruction reads only registers that it names. -/
theorem reads_subset {i : Instruction Op} {r : Register} (h : r ∈ flow.reads i) :
    r ∈ i.registers := by
  obtain ⟨x, hx, hr⟩ := List.mem_flatMap.1 h
  exact mem_registers_of_mem_zipIdx hx (readOf_subset hr)

theorem writes_subset {i : Instruction Op} {r : Register} (h : r ∈ flow.writes i) :
    r ∈ i.registers := by
  obtain ⟨x, hx, hr⟩ := List.mem_flatMap.1 h
  exact mem_registers_of_mem_zipIdx hx (writtenOf_subset hr)

/-! ### Control -/

variable (flow)

/-- The label that an instruction is. -/
def label? (i : Instruction Op) : Option String :=
  match flow.marks i.opcode, i.operands with
  | true, .label name :: _ => some name
  | _, _ => none

/-- Control may go from the instruction to a label. -/
def mayJumpTo (i : Instruction Op) (name : String) : Bool :=
  flow.jumps i.opcode &&
    match i.operands.getLast? with
    | some (.label other) => other = name
    | _ => true

/-- Control may go from one position of the code to another. -/
def leads (code : List (Handle × Instruction Op)) (p q : Nat) : Bool :=
  code[p]?.any fun e ↦ (flow.falls e.2.opcode && q = p + 1) ||
    code[q]?.any fun e' ↦ (flow.label? e'.2).any (flow.mayJumpTo e.2)

variable {flow}

/-- Control goes to the next position, or to a label that the instruction may jump to. -/
theorem leads_iff {code : List (Handle × Instruction Op)} {p q : Nat} :
    flow.leads code p q ↔ ∃ e, code[p]? = some e ∧ ((flow.falls e.2.opcode ∧ q = p + 1) ∨
      ∃ e' name, code[q]? = some e' ∧ flow.label? e'.2 = some name ∧ flow.mayJumpTo e.2 name) := by
  simp only [leads, Option.any_eq_true, Bool.or_eq_true, Bool.and_eq_true, decide_eq_true_eq]
  constructor
  · rintro ⟨e, he, hfall | ⟨e', he', name, hname, hjump⟩⟩
    · exact ⟨e, he, Or.inl hfall⟩
    · exact ⟨e, he, Or.inr ⟨e', name, he', hname, hjump⟩⟩
  · rintro ⟨e, he, hfall | ⟨e', name, he', hname, hjump⟩⟩
    · exact ⟨e, he, Or.inl hfall⟩
    · exact ⟨e, he, Or.inr ⟨e', he', name, hname, hjump⟩⟩

theorem marks_of_label? {i : Instruction Op} {name : String} (h : flow.label? i = some name) :
    flow.marks i.opcode := by
  rw [label?] at h
  split at h
  · assumption
  · cases h

theorem jumps_of_mayJumpTo {i : Instruction Op} {name : String} (h : flow.mayJumpTo i name) :
    flow.jumps i.opcode := by
  rw [mayJumpTo, Bool.and_eq_true] at h
  exact h.1

/-! ### Ways out of a part of the code -/

/-- From the position `p` control runs through the entries `path`, all of them at positions from
`lo` to before `hi`, and then comes to the position `r` outside. -/
inductive Leaves (flow : Flow Op) (code : List (Handle × Instruction Op)) (lo hi : Nat) :
    Nat → List (Handle × Instruction Op) → Nat → Prop
  | out {p : Nat} : ¬ (lo ≤ p ∧ p < hi) → Leaves flow code lo hi p [] p
  | step {p q r : Nat} {e : Handle × Instruction Op} {path : List (Handle × Instruction Op)} :
    lo ≤ p → p < hi → code[p]? = some e → flow.leads code p q →
      Leaves flow code lo hi q path r → Leaves flow code lo hi p (e :: path) r

/-- Control goes through the instruction and on to the next one, and nowhere else. -/
structure Straight (flow : Flow Op) (i : Instruction Op) : Prop where
  falls : flow.falls i.opcode
  not_jumps : ¬ flow.jumps i.opcode
  not_marks : ¬ flow.marks i.opcode

variable {code : List (Handle × Instruction Op)} {lo hi p r : Nat}
  {path : List (Handle × Instruction Op)}

/-- From a position outside there is nowhere to go: it is the way out. -/
theorem leaves_outside_iff (hp : ¬ (lo ≤ p ∧ p < hi)) :
    Leaves flow code lo hi p path r ↔ path = [] ∧ r = p := by
  constructor
  · intro h
    cases h with
    | out _ => exact ⟨rfl, rfl⟩
    | step hlo hhi _ _ _ => exact absurd ⟨hlo, hhi⟩ hp
  · rintro ⟨rfl, rfl⟩
    exact .out hp

/-- From a position inside the first step is through its instruction. -/
theorem leaves_inside_iff (hlo : lo ≤ p) (hhi : p < hi) {e : Handle × Instruction Op}
    (he : code[p]? = some e) :
    Leaves flow code lo hi p path r ↔
      ∃ q path', path = e :: path' ∧ flow.leads code p q ∧ Leaves flow code lo hi q path' r := by
  constructor
  · intro h
    cases h with
    | out hp => exact absurd ⟨hlo, hhi⟩ hp
    | step _ _ he' hleads hrest =>
      cases he'.symm.trans he
      exact ⟨_, _, rfl, hleads, hrest⟩
  · rintro ⟨q, path', rfl, hleads, hrest⟩
    exact .step hlo hhi he hleads hrest

/-- From an instruction that is straight control only goes to the next position. -/
theorem leads_iff_of_straight {e : Handle × Instruction Op} (he : code[p]? = some e)
    (hstraight : flow.Straight e.2) {q : Nat} : flow.leads code p q ↔ q = p + 1 := by
  rw [leads_iff]
  constructor
  · rintro ⟨e', he', ⟨-, hq⟩ | ⟨_, name, -, -, hjump⟩⟩
    · exact hq
    · cases he'.symm.trans he
      exact absurd (jumps_of_mayJumpTo hjump) hstraight.not_jumps
  · intro hq
    exact ⟨e, he, Or.inl ⟨hstraight.falls, hq⟩⟩

/-- Through straight code there is one way. -/
theorem leaves_straight_iff {ps : List (Handle × Instruction Op)}
    (hps : ∀ e ∈ ps, flow.Straight e.2) (hcode : ∀ n, n < ps.length → code[p + n]? = ps[n]?)
    (hlo : lo ≤ p) (hhi : p + ps.length ≤ hi) :
    Leaves flow code lo hi p path r ↔
      ∃ path', path = ps ++ path' ∧ Leaves flow code lo hi (p + ps.length) path' r := by
  induction ps generalizing p path with
  | nil => simp
  | cons e ps ih =>
    rw [List.length_cons] at hhi hcode
    have he : code[p]? = some e := hcode 0 (Nat.succ_pos _)
    have hrest : ∀ n, n < ps.length → code[p + 1 + n]? = ps[n]? := by
      intro n hn
      rw [Nat.add_assoc, Nat.add_comm 1 n]
      exact hcode (n + 1) (Nat.succ_lt_succ hn)
    have hlen : p + 1 + ps.length = p + (e :: ps).length := by
      rw [List.length_cons]
      omega
    have ih' : ∀ path', Leaves flow code lo hi (p + 1) path' r ↔
        ∃ path'', path' = ps ++ path'' ∧ Leaves flow code lo hi (p + 1 + ps.length) path'' r :=
      fun _ ↦ ih (fun e' he' ↦ hps e' (List.mem_cons_of_mem _ he')) hrest
        (Nat.le_succ_of_le hlo) (by omega)
    rw [leaves_inside_iff hlo (by omega) he]
    simp only [leads_iff_of_straight he (hps e List.mem_cons_self)]
    constructor
    · rintro ⟨q, path', rfl, rfl, hq⟩
      obtain ⟨path'', rfl, hout⟩ := (ih' _).1 hq
      exact ⟨path'', rfl, hlen ▸ hout⟩
    · rintro ⟨path'', rfl, hout⟩
      exact ⟨p + 1, ps ++ path'', rfl, rfl, (ih' _).2 ⟨path'', rfl, hlen ▸ hout⟩⟩

section Block

variable {pre before after post : List (Handle × Instruction Op)} {e : Handle × Instruction Op}

/-- The entries of a block behind the code in front of it. -/
theorem getElem?_block {n : Nat} (hn : n < (before ++ e :: after).length) :
    (pre ++ (before ++ e :: after) ++ post)[pre.length + n]? = (before ++ e :: after)[n]? := by
  rw [List.append_assoc, List.getElem?_append_right (Nat.le_add_right _ _),
    Nat.add_sub_cancel_left, List.getElem?_append_left hn]

theorem length_block : (before ++ e :: after).length = before.length + 1 + after.length := by
  rw [List.length_append, List.length_cons]
  omega

/-- A jump from the middle of a block leads out of it, since there is no label in the block. -/
theorem not_inside_of_mayJumpTo (hbefore : ∀ x ∈ before, flow.Straight x.2)
    (hafter : ∀ x ∈ after, flow.Straight x.2)
    (hmarks : flow.jumps e.2.opcode → ¬ flow.marks e.2.opcode) {q : Nat}
    {e' : Handle × Instruction Op} {name : String}
    (he' : (pre ++ (before ++ e :: after) ++ post)[q]? = some e')
    (hname : flow.label? e'.2 = some name) (hjump : flow.mayJumpTo e.2 name) :
    ¬ (pre.length ≤ q ∧ q < pre.length + (before ++ e :: after).length) := by
  rintro ⟨hlo, hlt⟩
  obtain ⟨n, rfl⟩ := Nat.exists_eq_add_of_le hlo
  rw [getElem?_block (by omega)] at he'
  have hmark := marks_of_label? hname
  have hmem := List.mem_of_getElem? he'
  rw [List.mem_append, List.mem_cons] at hmem
  rcases hmem with hmem | rfl | hmem
  · exact (hbefore _ hmem).not_marks hmark
  · exact hmarks (jumps_of_mayJumpTo hjump) hmark
  · exact (hafter _ hmem).not_marks hmark

/-- From the start of a block control comes to its instruction. -/
theorem leaves_before_iff (hbefore : ∀ x ∈ before, flow.Straight x.2) :
    Leaves flow (pre ++ (before ++ e :: after) ++ post) pre.length
        (pre.length + (before ++ e :: after).length) pre.length path r ↔
      ∃ path', path = before ++ path' ∧ Leaves flow (pre ++ (before ++ e :: after) ++ post)
        pre.length (pre.length + (before ++ e :: after).length) (pre.length + before.length)
        path' r := by
  have hlen : (before ++ e :: after).length = before.length + 1 + after.length := length_block
  refine leaves_straight_iff hbefore (fun n hn ↦ ?_) (Nat.le_refl _) (by omega)
  rw [getElem?_block (by omega), List.getElem?_append_left hn]

/-- From behind the instruction of a block control comes to the end of the block. -/
theorem leaves_after_iff (hafter : ∀ x ∈ after, flow.Straight x.2) :
    Leaves flow (pre ++ (before ++ e :: after) ++ post) pre.length
        (pre.length + (before ++ e :: after).length) (pre.length + before.length + 1) path r ↔
      path = after ∧ r = pre.length + (before ++ e :: after).length := by
  have hlen : (before ++ e :: after).length = before.length + 1 + after.length := length_block
  rw [leaves_straight_iff hafter (fun n hn ↦ ?_) (by omega) (by omega)]
  · rw [show pre.length + before.length + 1 + after.length =
      pre.length + (before ++ e :: after).length by omega]
    simp only [leaves_outside_iff (fun h ↦ Nat.lt_irrefl _ h.2)]
    constructor
    · rintro ⟨path', rfl, rfl, rfl⟩
      exact ⟨List.append_nil _, rfl⟩
    · rintro ⟨rfl, rfl⟩
      exact ⟨[], (List.append_nil _).symm, rfl, rfl⟩
  · rw [show pre.length + before.length + 1 + n = pre.length + (before.length + 1 + n) by omega,
      getElem?_block (by omega), List.getElem?_append_right (by omega),
      show before.length + 1 + n - before.length = n + 1 by omega]
    rfl

/-- **The ways out of a block** of straight code around one instruction: behind its end, if control
goes on from the instruction, and from the instruction to a label. -/
theorem leaves_block_iff (hbefore : ∀ x ∈ before, flow.Straight x.2)
    (hafter : ∀ x ∈ after, flow.Straight x.2)
    (hmarks : flow.jumps e.2.opcode → ¬ flow.marks e.2.opcode) :
    Leaves flow (pre ++ (before ++ e :: after) ++ post) pre.length
        (pre.length + (before ++ e :: after).length) pre.length path r ↔
      (flow.falls e.2.opcode ∧ path = before ++ e :: after ∧
        r = pre.length + (before ++ e :: after).length) ∨
      path = before ++ [e] ∧ ∃ e' name, (pre ++ (before ++ e :: after) ++ post)[r]? = some e' ∧
        flow.label? e'.2 = some name ∧ flow.mayJumpTo e.2 name := by
  have hlt : before.length < (before ++ e :: after).length := by
    rw [length_block]
    omega
  have hcenter : (pre ++ (before ++ e :: after) ++ post)[pre.length + before.length]? = some e := by
    rw [getElem?_block hlt, List.getElem?_append_right (Nat.le_refl _), Nat.sub_self]
    rfl
  -- control comes to the instruction itself, and from there it falls through or jumps
  rw [leaves_before_iff hbefore]
  simp only [leaves_inside_iff (Nat.le_add_right _ _) (Nat.add_lt_add_left hlt _) hcenter,
    leads_iff, hcenter]
  constructor
  · rintro ⟨_, rfl, q, path', rfl, ⟨_, ⟨⟩, ⟨hfalls, rfl⟩ | ⟨e', name, he', hname, hjump⟩⟩, hout⟩
    · obtain ⟨rfl, rfl⟩ := (leaves_after_iff hafter).1 hout
      exact Or.inl ⟨hfalls, rfl, rfl⟩
    · have hq := not_inside_of_mayJumpTo hbefore hafter hmarks he' hname hjump
      obtain ⟨rfl, rfl⟩ := (leaves_outside_iff hq).1 hout
      exact Or.inr ⟨rfl, e', name, he', hname, hjump⟩
  · rintro (⟨hfalls, rfl, rfl⟩ | ⟨rfl, e', name, he', hname, hjump⟩)
    · exact ⟨e :: after, rfl, _, after, rfl, ⟨e, rfl, Or.inl ⟨hfalls, rfl⟩⟩,
        (leaves_after_iff hafter).2 ⟨rfl, rfl⟩⟩
    · have hq := not_inside_of_mayJumpTo hbefore hafter hmarks he' hname hjump
      exact ⟨[e], rfl, r, [], rfl, ⟨e, rfl, Or.inr ⟨e', name, he', hname, hjump⟩⟩,
        (leaves_outside_iff hq).2 ⟨rfl, rfl⟩⟩

end Block

/-! ### Renamed registers -/

/-- Labels are no registers, so a renaming does not change where control goes. -/
theorem mayJumpTo_mapRegisters (ρ : Register → Register) (i : Instruction Op) (name : String) :
    flow.mayJumpTo (i.mapRegisters ρ) name = flow.mayJumpTo i name := by
  rw [mayJumpTo, mayJumpTo, Instruction.mapRegisters, List.getLast?_map]
  cases i.operands.getLast? with
  | none => rfl
  | some op => cases op <;> rfl

end Flow

/-! ### The machines -/

/-- The destination is last. It is also read, unless it is moved to. A multiplication of three
operands does not read its destination, and one of one operand has none. -/
def X86.access : X86.Opcode → Nat → Nat → Access
  | .mov, count, n => if n + 1 = count then .write else .read
  | .lea, count, n => if n + 1 = count then .write else .read
  | .add, count, n => if n + 1 = count then .update else .read
  | .sub, count, n => if n + 1 = count then .update else .read
  | .xor, count, n => if n + 1 = count then .update else .read
  | .imul, 2, 1 => .update
  | .imul, 3, 2 => .write
  | .pop, _, _ => .write
  | _, _, _ => .read

/-- The flow of the x86-64 machine. A call comes back. -/
def X86.flow : Flow X86.Opcode where
  access := X86.access
  falls op := op ≠ .jmp ∧ op ≠ .ret
  jumps op := op = .jmp ∨ op = .je ∨ op = .jne ∨ op = .jg ∨ op = .jle
  marks op := op = .label

/-- The destination is first, where there is one. A jump through a register has one if it is
written with more than the register. -/
def RiscV.access : RiscV.Opcode → Nat → Nat → Access
  | .ld, _, 0 => .write
  | .mv, _, 0 => .write
  | .li, _, 0 => .write
  | .la, _, 0 => .write
  | .add, _, 0 => .write
  | .addi, _, 0 => .write
  | .sub, _, 0 => .write
  | .mul, _, 0 => .write
  | .div, _, 0 => .write
  | .jalr, count, 0 => if count = 1 then .read else .write
  | _, _, _ => .read

/-- The flow of the RISC-V machine. A call comes back, and so may a jump through a register. -/
def RiscV.flow : Flow RiscV.Opcode where
  access := RiscV.access
  falls op := op ≠ .j ∧ op ≠ .ret
  jumps op := op = .beq ∨ op = .bne ∨ op = .bgt ∨ op = .ble ∨ op = .j ∨ op = .jalr
  marks op := op = .label

namespace TargetKind

/-- The flow of a machine. -/
def flow : (k : TargetKind) → Flow k.Opcode
  | x86 => X86.flow
  | riscV => RiscV.flow

/-- Stores to the frame are straight. -/
theorem straight_store (k : TargetKind) (r : Register) (offset : Int) :
    k.flow.Straight (k.target.store r offset) := by
  cases k <;> exact ⟨rfl, Bool.false_ne_true, Bool.false_ne_true⟩

theorem straight_load (k : TargetKind) (offset : Int) (r : Register) :
    k.flow.Straight (k.target.load offset r) := by
  cases k <;> exact ⟨rfl, Bool.false_ne_true, Bool.false_ne_true⟩

/-- No instruction of either machine is a jump and a label. -/
theorem not_marks_of_jumps (k : TargetKind) {op : k.Opcode} (h : k.flow.jumps op) :
    ¬ k.flow.marks op := by
  revert h
  cases k <;> cases op <;> decide

end TargetKind

end MachineCode

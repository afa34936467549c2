import MachineCode.Proofs.Machine

/-!
# Execution of x86-64 data instructions

`X86.semantics` is the meaning of the instructions that move and combine data: `mov`, `add`, `sub`,
`imul` and `xor` on 64-bit operands, with the destination last. The other opcodes are left without
effect, since code made of these alone is enough to run spill code.

All laws that code generation relies on hold of it, for every instruction (`X86.lawful`), and so do
those of the moves to the frame and back (`X86.movesFrame`). What an operand denotes depends on the
registers that it names and on the memory that it points to, and commutes with renaming
(`State.value_congr`, `State.value_mapRegisters`); the laws of an instruction follow from those of
its two operands.
-/

namespace MachineCode

namespace Machine.State

variable {ρ : Register → Register} {s s' : State} {op : Operand} {x : Word}

/-! ### Operands -/

/-- The value of a register position. An absent register counts as zero. -/
def read (s : State) (r : Register) : Word := if r.isAbsent then 0 else s.regs r

/-- The address that an address operand denotes. -/
def address (s : State) (a : Address) : Word :=
  BitVec.ofInt 64 a.disp + s.read a.base + BitVec.ofNat 64 a.scale * s.read a.index

/-- The value of an operand, with the labels at the addresses `symbol`. -/
def value (symbol : String → Word) (s : State) : Operand → Word
  | .reg r => s.read r
  | .mem a => s.mem.load (s.address a)
  | .imm v => BitVec.ofInt 64 v
  | .label name => symbol name

/-- The addresses that an operand stands for. -/
def touches (s : State) : Operand → Word → Prop
  | .mem a, x => InWord (s.address a) x
  | _, _ => False

/-- The state with another value in a register or at an address. -/
def assign (s : State) (w : Word) : Operand → State
  | .reg r => if r.isAbsent then s else s.set r w
  | .mem a => { s with mem := s.mem.store (s.address a) w }
  | _ => s

/-- The register that an operand is, if it is one. -/
def destination : Operand → List Register
  | .reg r => if r.isAbsent then [] else [r]
  | _ => []

/-- The registers that an operand names. -/
def named (op : Operand) : List Register := op.registers.map (·.2)

/-- The registers that an operand names as parts of an address. -/
def addressed : Operand → List Register
  | .mem a => named (.mem a)
  | _ => []

/-- A physical register is never absent. -/
theorem read_of_isPhysical (s : State) {r : Register} (hr : r.isPhysical) :
    s.read r = s.regs r := by
  rw [read, Register.not_isAbsent_of_isPhysical hr]
  rfl

/-- An address without an index is at its displacement from the base. -/
theorem address_of_base (s : State) {r : Register} (hr : r.isPhysical) (offset : Int) :
    s.address { disp := offset, base := r } = offsetFrom (s.regs r) offset := by
  have hindex : s.read Register.absent = 0#64 := rfl
  rw [address, s.read_of_isPhysical hr, hindex, BitVec.mul_zero, BitVec.add_zero, BitVec.add_comm]
  rfl

/-- The registers of an address are among those that the operand names. -/
theorem addressed_subset {r : Register} (h : r ∈ addressed op) : r ∈ named op := by
  cases op with
  | mem a => exact h
  | reg q => cases h
  | imm v => cases h
  | label name => cases h

theorem destination_subset {r : Register} (h : r ∈ destination op) : r ∈ named op := by
  cases op with
  | reg q =>
    rw [destination] at h
    split at h
    · cases h
    · rename_i hq
      simp [named, Operand.registers, hq, List.mem_singleton.1 h]
  | mem a => cases h
  | imm v => cases h
  | label name => cases h

/-- A renaming that keeps absent registers absent renames what an operand names. -/
theorem named_mapRegisters (hρ : ∀ r, (ρ r).isAbsent = r.isAbsent) (op : Operand) :
    named (op.mapRegisters ρ) = (named op).map ρ := by
  have h := Instruction.registers_mapRegisters hρ (⟨(), [op]⟩ : Instruction Unit)
  rw [Instruction.registers_eq, Instruction.registers_eq] at h
  simpa [Instruction.mapRegisters, named] using h

theorem addressed_mapRegisters (hρ : ∀ r, (ρ r).isAbsent = r.isAbsent) (op : Operand) :
    addressed (op.mapRegisters ρ) = (addressed op).map ρ := by
  cases op with
  | mem a => exact named_mapRegisters hρ (.mem a)
  | reg q => rfl
  | imm v => rfl
  | label name => rfl

/-- Reading a renamed register is reading the register in the renamed state. -/
theorem read_rename (hρ : ∀ r, (ρ r).isAbsent = r.isAbsent) (r : Register) :
    s.read (ρ r) = (s.rename ρ).read r := by
  rw [read, read, hρ, regs_rename]

theorem address_mapRegisters (hρ : ∀ r, (ρ r).isAbsent = r.isAbsent) (a : Address) :
    s.address { a with base := ρ a.base, index := ρ a.index } = (s.rename ρ).address a := by
  rw [address, address, read_rename hρ, read_rename hρ]

theorem value_mapRegisters (symbol : String → Word) (hρ : ∀ r, (ρ r).isAbsent = r.isAbsent)
    (op : Operand) : s.value symbol (op.mapRegisters ρ) = (s.rename ρ).value symbol op := by
  cases op with
  | reg r => exact read_rename hρ r
  | mem a =>
    show s.mem.load _ = s.mem.load _
    rw [address_mapRegisters hρ]
  | imm v => rfl
  | label name => rfl

theorem touches_mapRegisters (hρ : ∀ r, (ρ r).isAbsent = r.isAbsent) (op : Operand) :
    s.touches (op.mapRegisters ρ) = (s.rename ρ).touches op := by
  cases op with
  | mem a =>
    funext x
    show InWord (s.address _) x = InWord ((s.rename ρ).address a) x
    rw [address_mapRegisters hρ]
  | reg r => rfl
  | imm v => rfl
  | label name => rfl

theorem destination_mapRegisters (hρ : ∀ r, (ρ r).isAbsent = r.isAbsent) (op : Operand) :
    destination (op.mapRegisters ρ) = (destination op).map ρ := by
  cases op with
  | reg r =>
    rw [Operand.mapRegisters, destination, destination, hρ]
    split <;> rfl
  | mem a => rfl
  | imm v => rfl
  | label name => rfl

/-- An assignment to a renamed operand does to the memory what it does in the renamed state. -/
theorem mem_assign_mapRegisters (hρ : ∀ r, (ρ r).isAbsent = r.isAbsent) (w : Word) (op : Operand) :
    (s.assign w (op.mapRegisters ρ)).mem = ((s.rename ρ).assign w op).mem := by
  cases op with
  | reg r =>
    rw [Operand.mapRegisters, assign, assign, hρ]
    split <;> rfl
  | mem a =>
    show s.mem.store _ w = s.mem.store _ w
    rw [address_mapRegisters hρ]
  | imm v => rfl
  | label name => rfl

/-- An assignment to a register puts the value there. -/
theorem regs_assign_of_mem {r : Register} (w : Word) (h : r ∈ destination op) :
    (s.assign w op).regs r = w := by
  cases op with
  | reg q =>
    rw [destination] at h
    split at h
    · cases h
    · rename_i hq
      rw [List.mem_singleton] at h
      rw [assign, if_neg hq, regs_set, if_pos h]
  | mem a => cases h
  | imm v => cases h
  | label name => cases h

theorem regs_assign_of_not_mem {r : Register} (w : Word) (h : r ∉ destination op) :
    (s.assign w op).regs r = s.regs r := by
  cases op with
  | reg q =>
    rw [destination] at h
    split at h
    · rename_i hq
      rw [assign, if_pos hq]
    · rename_i hq
      rw [List.mem_singleton] at h
      rw [assign, if_neg hq, regs_set, if_neg h]
  | mem a => rfl
  | imm v => rfl
  | label name => rfl

/-- An assignment leaves the memory alone that the operand does not stand for. -/
theorem mem_assign_of_not_touches (w : Word) (h : ¬ s.touches op x) :
    (s.assign w op).mem x = s.mem x := by
  cases op with
  | reg q =>
    rw [assign]
    split <;> rfl
  | mem a => exact Memory.store_of_not_inWord h
  | imm v => rfl
  | label name => rfl

/-! ### States that agree on an operand -/

/-- An absent register reads as zero in every state. -/
theorem read_congr {r : Register} (h : ¬ r.isAbsent → s.regs r = s'.regs r) :
    s.read r = s'.read r := by
  rw [read, read]
  split
  · rfl
  · rename_i hr
    exact h hr

/-- An address depends on its base and its index only. -/
theorem address_congr {a : Address} (h : ∀ r ∈ addressed (.mem a), s.regs r = s'.regs r) :
    s.address a = s'.address a := by
  have hbase : s.read a.base = s'.read a.base := read_congr fun hr ↦ h _ (by
    simp [addressed, named, Operand.registers, hr])
  have hindex : s.read a.index = s'.read a.index := read_congr fun hr ↦ h _ (by
    simp [addressed, named, Operand.registers, hr])
  rw [address, address, hbase, hindex]

theorem touches_congr (h : ∀ r ∈ addressed op, s.regs r = s'.regs r) :
    s.touches op = s'.touches op := by
  cases op with
  | mem a =>
    funext x
    rw [touches, touches, address_congr h]
  | reg r => rfl
  | imm v => rfl
  | label name => rfl

/-- An operand has the same value where its registers and its memory have. -/
theorem value_congr (symbol : String → Word) (h : ∀ r ∈ named op, s.regs r = s'.regs r)
    (hmem : ∀ x, s.touches op x → s.mem x = s'.mem x) :
    s.value symbol op = s'.value symbol op := by
  cases op with
  | reg r =>
    refine read_congr fun hr ↦ h r ?_
    simp [named, Operand.registers, hr]
  | mem a =>
    rw [value, value, ← address_congr h]
    exact Memory.load_congr hmem
  | imm v => rfl
  | label name => rfl

/-- Assigning one value to an operand leaves the same byte wherever there was the same byte. -/
theorem mem_assign_congr (h : ∀ r ∈ addressed op, s.regs r = s'.regs r) (w : Word)
    (hmem : s.mem x = s'.mem x) : (s.assign w op).mem x = (s'.assign w op).mem x := by
  cases op with
  | mem a =>
    show s.mem.store _ w x = s'.mem.store _ w x
    rw [address_congr h, Memory.store, Memory.store, hmem]
  | reg r =>
    rw [assign, assign]
    split <;> exact hmem
  | imm v => exact hmem
  | label name => exact hmem

end Machine.State

/-! ### Instructions -/

namespace X86

open Machine State

/-- What an opcode makes of the source and the destination. -/
def combine : Opcode → Option (Word → Word → Word)
  | .mov => some fun src _ ↦ src
  | .add => some fun src dst ↦ dst + src
  | .sub => some fun src dst ↦ dst - src
  | .imul => some fun src dst ↦ dst * src
  | .xor => some fun src dst ↦ dst ^^^ src
  | _ => none

/-- The function, the source and the destination of a data instruction. -/
def parts (i : Instruction Opcode) : Option ((Word → Word → Word) × Operand × Operand) :=
  match combine i.opcode, i.operands with
  | some f, [src, dst] => some (f, src, dst)
  | _, _ => none

/-- The registers that are read of a destination: a move reads only those of its address. -/
def readOf (op : Opcode) (dst : Operand) : List Register :=
  if op = .mov then addressed dst else named dst

/-- The meaning of the data instructions, with the labels at the addresses `symbol`. -/
def semantics (symbol : String → Word) : Semantics Opcode where
  reads i := (parts i).elim [] fun p ↦ named p.2.1 ++ readOf i.opcode p.2.2
  writes i := (parts i).elim [] fun p ↦ destination p.2.2
  footprint i s x := (parts i).elim False fun p ↦ s.touches p.2.1 x ∨ s.touches p.2.2 x
  exec i s := (parts i).elim s fun p ↦
    s.assign (p.1 (s.value symbol p.2.1) (s.value symbol p.2.2)) p.2.2

/-- A data instruction has two operands and an opcode that combines them. -/
theorem parts_eq_some {i : Instruction Opcode} {f : Word → Word → Word} {src dst : Operand}
    (h : parts i = some (f, src, dst)) : combine i.opcode = some f ∧ i.operands = [src, dst] := by
  rw [parts] at h
  split at h
  · rename_i f' src' dst' hf hops
    cases h
    exact ⟨hf, hops⟩
  · cases h

/-- A renaming changes the operands, not the opcode. -/
theorem parts_mapRegisters (ρ : Register → Register) (i : Instruction Opcode) :
    parts (i.mapRegisters ρ) =
      (parts i).map fun p ↦ (p.1, p.2.1.mapRegisters ρ, p.2.2.mapRegisters ρ) := by
  obtain ⟨op, ops⟩ := i
  show parts ⟨op, ops.map (·.mapRegisters ρ)⟩ = _
  rw [parts, parts]
  cases combine op with
  | none => rfl
  | some f =>
    match ops with
    | [] => rfl
    | [_] => rfl
    | [_, _] => rfl
    | _ :: _ :: _ :: _ => rfl

/-- What is read of the target is among what it names. -/
theorem readOf_subset {op : Opcode} {dst : Operand} {r : Register} (h : r ∈ readOf op dst) :
    r ∈ named dst := by
  rw [readOf] at h
  split at h
  · exact addressed_subset h
  · exact h

/-- The address of the target is always read. -/
theorem addressed_subset_readOf {op : Opcode} {dst : Operand} {r : Register}
    (h : r ∈ addressed dst) : r ∈ readOf op dst := by
  rw [readOf]
  split
  · exact h
  · exact addressed_subset h

/-- What is read of a renamed target is renamed. -/
theorem readOf_mapRegisters {ρ : Register → Register} (hρ : ∀ r, (ρ r).isAbsent = r.isAbsent)
    (op : Opcode) (dst : Operand) :
    readOf op (dst.mapRegisters ρ) = (readOf op dst).map ρ := by
  rw [readOf, readOf]
  split
  · exact addressed_mapRegisters hρ dst
  · exact named_mapRegisters hρ dst

/-- What a data instruction computes depends on what it reads. -/
theorem combine_congr (symbol : String → Word) {op : Opcode} {f : Word → Word → Word}
    (hf : combine op = some f) {src dst : Operand} {s s' : State}
    (hregs : ∀ r ∈ named src ++ readOf op dst, s.regs r = s'.regs r)
    (hmem : ∀ x, s.touches src x ∨ s.touches dst x → s.mem x = s'.mem x) :
    f (s.value symbol src) (s.value symbol dst) =
      f (s'.value symbol src) (s'.value symbol dst) := by
  have hsrc : s.value symbol src = s'.value symbol src :=
    value_congr symbol (fun r hr ↦ hregs r (List.mem_append_left _ hr)) fun x hx ↦
      hmem x (Or.inl hx)
  by_cases hmov : op = .mov
  · -- a move does not look at the old value of its destination
    subst hmov
    cases hf
    exact hsrc
  · have hdst : s.value symbol dst = s'.value symbol dst := by
      refine value_congr symbol (fun r hr ↦ hregs r (List.mem_append_right _ ?_)) fun x hx ↦
        hmem x (Or.inr hx)
      rwa [readOf, if_neg hmov]
    rw [hsrc, hdst]

/-- **A data instruction keeps to its operands**: it changes only its target, and what it does
depends only on what it reads. -/
theorem confined (symbol : String → Word) (i : Instruction Opcode) :
    (semantics symbol).Confined i := by
  cases hp : parts i with
  | none =>
    constructor
    · intro s r _
      simp [semantics, hp]
    · intro s x _
      simp [semantics, hp]
    · intro s s' _ _
      simp [semantics, hp]
  | some p =>
    obtain ⟨f, src, dst⟩ := p
    obtain ⟨hf, -⟩ := parts_eq_some hp
    constructor
    · intro s r hr
      simp only [semantics, hp, Option.elim_some] at hr ⊢
      exact regs_assign_of_not_mem _ hr
    · intro s x hx
      simp only [semantics, hp, Option.elim_some, not_or] at hx ⊢
      exact mem_assign_of_not_touches _ hx.2
    · -- the same operands are read, and the same place is written
      intro s s' hregs hmem
      simp only [semantics, hp, Option.elim_some] at hregs hmem ⊢
      have haddr : ∀ r ∈ addressed dst, s.regs r = s'.regs r := fun r hr ↦
        hregs r (List.mem_append_right _ (addressed_subset_readOf hr))
      have htouch : s.touches src = s'.touches src := touches_congr fun r hr ↦
        hregs r (List.mem_append_left _ (addressed_subset hr))
      rw [← combine_congr symbol hf hregs hmem, ← htouch, ← touches_congr haddr]
      refine ⟨rfl, fun r hr ↦ ?_, fun x hx ↦ ?_⟩
      · rw [regs_assign_of_mem _ hr, regs_assign_of_mem _ hr]
      · exact (mem_assign_congr haddr _ (hmem x hx)).symm

/-- **A data instruction commutes with renamings** that keep absent registers absent. -/
theorem renames (symbol : String → Word) {ρ : Register → Register}
    (hρ : ∀ r, (ρ r).isAbsent = r.isAbsent) (i : Instruction Opcode) :
    (semantics symbol).Renames i ρ := by
  have hparts := parts_mapRegisters ρ i
  cases hp : parts i with
  | none =>
    rw [hp, Option.map_none] at hparts
    constructor
    · simp [semantics, hp, hparts]
    · simp [semantics, hp, hparts]
    · intro s
      simp [semantics, hp, hparts]
    · intro s r hr
      simp [semantics, hp] at hr
    · intro s
      simp [semantics, hp, hparts]
  -- each law is that of the two operands, as the machine does the same with their renamed copies
  | some p =>
    obtain ⟨f, src, dst⟩ := p
    rw [hp, Option.map_some] at hparts
    constructor
    · simp only [semantics, hp, hparts, Option.elim_some, List.map_append]
      rw [named_mapRegisters hρ, ← readOf_mapRegisters hρ]
      rfl
    · simp only [semantics, hp, hparts, Option.elim_some]
      exact destination_mapRegisters hρ dst
    · intro s
      simp only [semantics, hp, hparts, Option.elim_some]
      rw [touches_mapRegisters hρ, touches_mapRegisters hρ]
    · intro s r hr
      simp only [semantics, hp, hparts, Option.elim_some] at hr ⊢
      have hr' : ρ r ∈ destination (dst.mapRegisters ρ) := by
        rw [destination_mapRegisters hρ]
        exact List.mem_map_of_mem hr
      rw [regs_assign_of_mem _ hr, regs_assign_of_mem _ hr', value_mapRegisters symbol hρ,
        value_mapRegisters symbol hρ]
    · intro s
      simp only [semantics, hp, hparts, Option.elim_some]
      rw [mem_assign_mapRegisters hρ, value_mapRegisters symbol hρ, value_mapRegisters symbol hρ]

/-- **The data instructions obey all laws that code generation relies on.** -/
theorem lawful (symbol : String → Word) {rs : List Register} (hrs : ∀ r ∈ rs, r.isPhysical)
    (i : Instruction Opcode) (implicit : List Register) :
    (semantics symbol).Lawful rs i implicit := by
  -- whatever is read or written is named by one of the two operands
  have hnamed : ∀ f src dst, parts i = some (f, src, dst) → ∀ r, r ∈ named src ∨ r ∈ named dst →
      r ∈ i.registers ++ implicit := by
    intro f src dst hp r hr
    rw [Instruction.registers_eq, (parts_eq_some hp).2]
    simp only [List.flatMap_cons, List.flatMap_nil, List.append_nil, List.mem_append]
    exact Or.inl hr
  constructor
  · intro r hr
    cases hp : parts i with
    | none => simp [semantics, hp] at hr
    | some p =>
      simp only [semantics, hp, Option.elim_some, List.mem_append] at hr
      exact hnamed _ _ _ hp r (hr.imp_right readOf_subset)
  · intro r hr
    cases hp : parts i with
    | none => simp [semantics, hp] at hr
    | some p =>
      simp only [semantics, hp, Option.elim_some] at hr
      exact hnamed _ _ _ hp r (Or.inr (destination_subset hr))
  · exact fun ρ _ ↦ confined symbol _
  · exact fun ρ hρ ↦ renames symbol (hρ.isAbsent_eq hrs) i

/-- Every physical register can be moved to the frame and back. -/
theorem movesFrame (symbol : String → Word) {rs : List Register}
    (hrs : ∀ r ∈ rs, r.isPhysical) :
    (semantics symbol).MovesFrame (target.withAllocatable rs) := by
  have hfp : rbp.isPhysical := by decide
  constructor
  · intro r hr offset s
    show { s with mem := s.mem.store (s.address { disp := offset, base := rbp }) (s.read r) } = _
    rw [s.address_of_base hfp, s.read_of_isPhysical (hrs r hr)]
    rfl
  · intro r hr offset s
    show (if r.isAbsent then s else
      s.set r (s.mem.load (s.address { disp := offset, base := rbp }))) = _
    rw [s.address_of_base hfp, Register.not_isAbsent_of_isPhysical (hrs r hr)]
    rfl

end X86

end MachineCode

import MachineCode.Proofs.FrameMoves
import MachineCode.Proofs.X86Execution

/-!
# Execution of RISC-V data instructions

`RiscV.semantics` is the meaning of the instructions that move and combine data: `ld`, `sd`, `mv`,
`li`, `la`, `add`, `addi`, `sub`, `mul` and `div`. The other opcodes are left without effect on
registers and memory; a branch only decides where control goes.

Each of these instructions assigns a value that it computes from two operands to a third one
(`Machine.Assignment`), and the laws that code generation relies on are proved of assignments. The
register `zero` reads as zero and is never written, just as an absent one (`RiscV.visible`). So it
must not be handed out: a value that is lent this register would be lost (`RiscV.lawful`). In
statements about both machines it is the register that `TargetKind.isHardwired` tells.
-/

namespace MachineCode

namespace Machine

open State

/-! ### Assignments -/

/-- A value that is computed from two operands goes to a third one. -/
structure Assignment where
  compute : Word → Word → Word
  left : Operand
  right : Operand
  target : Operand

namespace Assignment

/-- Change every register by `ρ`. -/
def mapRegisters (ρ : Register → Register) (x : Assignment) : Assignment :=
  ⟨x.compute, x.left.mapRegisters ρ, x.right.mapRegisters ρ, x.target.mapRegisters ρ⟩

/-- The registers that are read: of the target only those of its address. -/
def reads (x : Assignment) : List Register := named x.left ++ named x.right ++ addressed x.target

/-- The addresses that are read or written. -/
def touches (x : Assignment) (s : State) (a : Word) : Prop :=
  s.touches x.left a ∨ s.touches x.right a ∨ s.touches x.target a

/-- The value that is assigned. -/
def value (symbol : String → Word) (x : Assignment) (s : State) : Word :=
  x.compute (s.value symbol x.left) (s.value symbol x.right)

/-- The state after the assignment. -/
def exec (symbol : String → Word) (x : Assignment) (s : State) : State :=
  s.assign (x.value symbol s) x.target

variable {symbol : String → Word} {x : Assignment} {s s' : State} {ρ : Register → Register}

/-- The value that is assigned depends on what the assignment reads. -/
theorem value_congr (hregs : ∀ r ∈ x.reads, s.regs r = s'.regs r)
    (hmem : ∀ a, x.touches s a → s.mem a = s'.mem a) : x.value symbol s = x.value symbol s' := by
  have hleft : s.value symbol x.left = s'.value symbol x.left :=
    State.value_congr symbol (fun r hr ↦ hregs r (by simp [reads, hr])) fun a ha ↦
      hmem a (Or.inl ha)
  have hright : s.value symbol x.right = s'.value symbol x.right :=
    State.value_congr symbol (fun r hr ↦ hregs r (by simp [reads, hr])) fun a ha ↦
      hmem a (Or.inr (Or.inl ha))
  rw [value, value, hleft, hright]

theorem touches_congr (hregs : ∀ r ∈ x.reads, s.regs r = s'.regs r) :
    x.touches s = x.touches s' := by
  have hleft : s.touches x.left = s'.touches x.left :=
    State.touches_congr fun r hr ↦ hregs r (by simp [reads, addressed_subset hr])
  have hright : s.touches x.right = s'.touches x.right :=
    State.touches_congr fun r hr ↦ hregs r (by simp [reads, addressed_subset hr])
  have htarget : s.touches x.target = s'.touches x.target :=
    State.touches_congr fun r hr ↦ hregs r (by simp [reads, hr])
  funext a
  rw [touches, touches, hleft, hright, htarget]

/-- A renamed assignment reads the renamed registers. -/
theorem reads_mapRegisters (hρ : ∀ r, (ρ r).isAbsent = r.isAbsent) :
    (x.mapRegisters ρ).reads = x.reads.map ρ := by
  rw [reads, reads, List.map_append, List.map_append, ← named_mapRegisters hρ,
    ← named_mapRegisters hρ, ← addressed_mapRegisters hρ]
  rfl

/-- A renamed assignment touches what the assignment touches under the old names. -/
theorem touches_mapRegisters (hρ : ∀ r, (ρ r).isAbsent = r.isAbsent) :
    (x.mapRegisters ρ).touches s = x.touches (s.rename ρ) := by
  funext a
  rw [touches, touches, ← State.touches_mapRegisters hρ, ← State.touches_mapRegisters hρ,
    ← State.touches_mapRegisters hρ]
  rfl

/-- A renamed assignment has the value of the assignment under the old names. -/
theorem value_mapRegisters (hρ : ∀ r, (ρ r).isAbsent = r.isAbsent) :
    (x.mapRegisters ρ).value symbol s = x.value symbol (s.rename ρ) := by
  rw [value, value, ← State.value_mapRegisters symbol hρ, ← State.value_mapRegisters symbol hρ]
  rfl

end Assignment

/-! ### Machines that assign -/

/-- The instructions are assignments or have no effect. -/
def Semantics.ofAssignments {Op : Type} (assignment : Instruction Op → Option Assignment)
    (symbol : String → Word) : Semantics Op where
  reads i := (assignment i).elim [] (·.reads)
  writes i := (assignment i).elim [] fun x ↦ destination x.target
  footprint i s a := (assignment i).elim False fun x ↦ x.touches s a
  exec i s := (assignment i).elim s (·.exec symbol s)

variable {Op : Type} {assignment : Instruction Op → Option Assignment} {symbol : String → Word}

/-- An assignment changes its target and depends on what it reads. -/
theorem Semantics.confined_ofAssignments (i : Instruction Op) :
    (Semantics.ofAssignments assignment symbol).Confined i := by
  cases hx : assignment i with
  | none =>
    constructor
    · intro s r _
      simp [ofAssignments, hx]
    · intro s a _
      simp [ofAssignments, hx]
    · intro s s' _ _
      simp [ofAssignments, hx]
  | some x =>
    constructor
    · intro s r hr
      simp only [ofAssignments, hx, Option.elim_some] at hr ⊢
      exact regs_assign_of_not_mem _ hr
    · intro s a ha
      simp only [ofAssignments, hx, Option.elim_some] at ha ⊢
      exact mem_assign_of_not_touches _ fun htarget ↦ ha (Or.inr (Or.inr htarget))
    · -- the same value is computed, and goes to the same place
      intro s s' hregs hmem
      simp only [ofAssignments, hx, Option.elim_some] at hregs hmem ⊢
      rw [Assignment.exec, Assignment.exec, ← Assignment.value_congr hregs hmem]
      refine ⟨?_, fun r hr ↦ ?_, fun a ha ↦ ?_⟩
      · rw [Assignment.touches_congr hregs]
      · rw [regs_assign_of_mem _ hr, regs_assign_of_mem _ hr]
      · refine (mem_assign_congr (fun r hr ↦ hregs r ?_) _ (hmem a ha)).symm
        exact List.mem_append_right _ hr

/-- If the assignment of a renamed instruction is the renamed assignment, the instruction runs alike
under the new names. -/
theorem Semantics.renames_ofAssignments {i : Instruction Op} {ρ : Register → Register}
    (hρ : ∀ r, (ρ r).isAbsent = r.isAbsent)
    (hassignment : assignment (i.mapRegisters ρ) = (assignment i).map (·.mapRegisters ρ)) :
    (Semantics.ofAssignments assignment symbol).Renames i ρ := by
  cases hx : assignment i with
  | none =>
    rw [hx, Option.map_none] at hassignment
    constructor
    · simp [ofAssignments, hx, hassignment]
    · simp [ofAssignments, hx, hassignment]
    · intro s
      simp [ofAssignments, hx, hassignment]
    · intro s r hr
      simp [ofAssignments, hx] at hr
    · intro s
      simp [ofAssignments, hx, hassignment]
  | some x =>
    rw [hx, Option.map_some] at hassignment
    constructor
    · simp only [ofAssignments, hx, hassignment, Option.elim_some]
      exact Assignment.reads_mapRegisters hρ
    · simp only [ofAssignments, hx, hassignment, Option.elim_some]
      exact destination_mapRegisters hρ x.target
    · intro s
      simp only [ofAssignments, hx, hassignment, Option.elim_some]
      rw [Assignment.touches_mapRegisters hρ]
    · intro s r hr
      simp only [ofAssignments, hx, hassignment, Option.elim_some] at hr ⊢
      have hr' : ρ r ∈ destination (x.mapRegisters ρ).target := by
        rw [Assignment.mapRegisters, destination_mapRegisters hρ]
        exact List.mem_map_of_mem hr
      rw [Assignment.exec, Assignment.exec, regs_assign_of_mem _ hr, regs_assign_of_mem _ hr',
        Assignment.value_mapRegisters hρ]
    · intro s
      simp only [ofAssignments, hx, hassignment, Option.elim_some]
      rw [Assignment.exec, Assignment.exec, Assignment.value_mapRegisters hρ]
      exact mem_assign_mapRegisters hρ _ x.target

end Machine

/-! ### Instructions -/

namespace RiscV

open Machine State

/-- The register `zero` is no register to read from or to write to. -/
def visible (r : Register) : Register := if r = zero then .absent else r

/-- What an opcode makes of its two sources. A division by zero gives a word of ones. -/
def combine : Opcode → Option (Word → Word → Word)
  | .add => some (· + ·)
  | .addi => some (· + ·)
  | .sub => some (· - ·)
  | .mul => some (· * ·)
  | .div => some fun a b ↦ if b = 0 then -1 else a.sdiv b
  | _ => none

/-- An instruction of two operands moves one of them to the other. -/
def move (src dst : Operand) : Assignment := ⟨fun a _ ↦ a, src, .imm 0, dst⟩

/-- The assignment that some operands make under an opcode. A store has its destination last. -/
def assigns : Opcode → List Operand → Option Assignment
  | .sd, [src, dst] => some (move src dst)
  | .ld, [dst, src] => some (move src dst)
  | .mv, [dst, src] => some (move src dst)
  | .li, [dst, src] => some (move src dst)
  | .la, [dst, src] => some (move src dst)
  | op, [dst, a, b] => (combine op).map fun f ↦ ⟨f, a, b, dst⟩
  | _, _ => none

/-- The assignment that an instruction makes. -/
def assignment (i : Instruction Opcode) : Option Assignment :=
  assigns i.opcode (i.mapRegisters visible).operands

/-- The meaning of the data instructions, with the labels at the addresses `symbol`. -/
def semantics (symbol : String → Word) : Semantics Opcode := .ofAssignments assignment symbol

/-- The assignment of an instruction is found by its opcode and the form of its operands. -/
theorem assigns_mapRegisters (ρ : Register → Register) (op : Opcode) (ops : List Operand) :
    assigns op (ops.map (·.mapRegisters ρ)) = (assigns op ops).map (·.mapRegisters ρ) := by
  match ops with
  | [] => cases op <;> rfl
  | [_] => cases op <;> rfl
  | [_, _] => cases op <;> rfl
  | [_, _, _] => cases op <;> rfl
  | _ :: _ :: _ :: _ :: _ => cases op <;> rfl

/-- The operands of an assignment are operands of the instruction, or a constant. -/
theorem exists_of_assigns {op : Opcode} {ops : List Operand} {x : Assignment}
    (h : assigns op ops = some x) {r : Register}
    (hr : r ∈ named x.left ++ named x.right ++ named x.target) : ∃ o ∈ ops, r ∈ named o := by
  have hmove : ∀ src dst, x = move src dst → r ∈ named src ∨ r ∈ named dst := by
    rintro src dst rfl
    simpa [move, named, Operand.registers] using hr
  unfold assigns at h
  split at h
  · simpa using hmove _ _ (Option.some.inj h).symm
  · simpa [or_comm] using hmove _ _ (Option.some.inj h).symm
  · simpa [or_comm] using hmove _ _ (Option.some.inj h).symm
  · simpa [or_comm] using hmove _ _ (Option.some.inj h).symm
  · simpa [or_comm] using hmove _ _ (Option.some.inj h).symm
  · obtain ⟨f, -, rfl⟩ := Option.map_eq_some_iff.1 h
    simp only [List.mem_append] at hr
    simp only [List.mem_cons, List.not_mem_nil, or_false, exists_eq_or_imp, exists_eq_left]
    exact hr.symm
  · cases h

/-! ### The register that is always zero -/

theorem visible_of_ne {r : Register} (hr : r ≠ zero) : visible r = r := if_neg hr

/-- A renaming that spares `zero` does not make it visible. -/
theorem visible_comm {rs touched : List Register} {ρ : Register → Register}
    (hρ : RegisterRenaming rs touched ρ) (hrs : zero ∉ rs) (r : Register) :
    visible (ρ r) = ρ (visible r) := by
  by_cases hr : r = zero
  · rw [hr, hρ.fixes zero (by decide), visible, if_pos rfl, hρ.fixes .absent (by decide)]
  · have hne : ρ r ≠ zero := by
      intro heq
      by_cases hv : r.isVirtual
      · rcases hρ.into r hv with hv' | hmem
        · rw [heq] at hv'
          exact absurd hv' (by decide)
        · exact hrs (heq ▸ hmem)
      · exact hr (hρ.fixes r hv ▸ heq)
    rw [visible_of_ne hne, visible_of_ne hr]

/-- What is visible is named. -/
theorem named_of_visible {op : Operand} {r : Register} (h : r ∈ named (op.mapRegisters visible)) :
    r ∈ named op := by
  -- what is visible of a register and not absent is the register itself
  have hself : ∀ q : Register, ¬ (visible q).isAbsent → visible q = q ∧ ¬ q.isAbsent := by
    intro q hq
    by_cases hz : q = zero
    · rw [visible, if_pos hz] at hq
      exact absurd rfl hq
    · rw [visible_of_ne hz] at hq ⊢
      exact ⟨rfl, hq⟩
  cases op with
  | reg q =>
    simp only [named, Operand.mapRegisters, Operand.registers, List.mem_map, List.mem_filter,
      List.mem_singleton, Bool.not_eq_true'] at h ⊢
    obtain ⟨x, ⟨rfl, habsent⟩, rfl⟩ := h
    obtain ⟨heq, hq⟩ := hself q (by simp [habsent])
    exact ⟨_, ⟨rfl, by simpa using hq⟩, heq.symm⟩
  | mem a =>
    simp only [named, Operand.mapRegisters, Operand.registers, List.mem_map, List.mem_filter,
      List.mem_cons, List.not_mem_nil, or_false, Bool.not_eq_true'] at h ⊢
    obtain ⟨x, ⟨rfl | rfl, habsent⟩, rfl⟩ := h
    · obtain ⟨heq, hq⟩ := hself a.base (by simp [habsent])
      exact ⟨_, ⟨Or.inl rfl, by simpa using hq⟩, heq.symm⟩
    · obtain ⟨heq, hq⟩ := hself a.index (by simp [habsent])
      exact ⟨_, ⟨Or.inr rfl, by simpa using hq⟩, heq.symm⟩
  | imm v => exact h
  | label name => exact h

/-- A renamed instruction has the renamed assignment, `zero` hidden in both. -/
theorem assignment_mapRegisters {rs touched : List Register} {ρ : Register → Register}
    (hρ : RegisterRenaming rs touched ρ) (hrs : zero ∉ rs) (i : Instruction Opcode) :
    assignment (i.mapRegisters ρ) = (assignment i).map (·.mapRegisters ρ) := by
  -- hiding `zero` and renaming commute, as no register is renamed to or from it
  have hswap : (i.mapRegisters ρ).mapRegisters visible =
      (i.mapRegisters visible).mapRegisters ρ := by
    rw [Instruction.mapRegisters_mapRegisters, Instruction.mapRegisters_mapRegisters,
      show visible ∘ ρ = ρ ∘ visible from funext (visible_comm hρ hrs)]
  rw [assignment, hswap]
  exact assigns_mapRegisters ρ i.opcode _

/-! ### Laws -/

/-- **The data instructions obey all laws that code generation relies on**, if the register `zero`
is not handed out. -/
theorem lawful (symbol : String → Word) {rs : List Register}
    (hrs : ∀ r ∈ rs, r.isPhysical ∧ r ≠ zero) (i : Instruction Opcode)
    (implicit : List Register) : (semantics symbol).Lawful rs i implicit := by
  have hzero : zero ∉ rs := fun hmem ↦ (hrs zero hmem).2 rfl
  have hnamed : ∀ x, assignment i = some x → ∀ r ∈ named x.left ++ named x.right ++ named x.target,
      r ∈ i.registers ++ implicit := by
    intro x hx r hr
    obtain ⟨o, ho, hro⟩ := exists_of_assigns hx hr
    obtain ⟨op, hop, rfl⟩ := List.mem_map.1 ho
    rw [Instruction.registers_eq]
    exact List.mem_append_left _ (List.mem_flatMap.2 ⟨op, hop, named_of_visible hro⟩)
  constructor
  · intro r hr
    cases hx : assignment i with
    | none => simp [semantics, Semantics.ofAssignments, hx] at hr
    | some x =>
      simp only [semantics, Semantics.ofAssignments, hx, Option.elim_some] at hr
      refine hnamed x hx r ?_
      rcases List.mem_append.1 hr with hr | hr
      · exact List.mem_append_left _ hr
      · exact List.mem_append_right _ (addressed_subset hr)
  · intro r hr
    cases hx : assignment i with
    | none => simp [semantics, Semantics.ofAssignments, hx] at hr
    | some x =>
      simp only [semantics, Semantics.ofAssignments, hx, Option.elim_some] at hr
      exact hnamed x hx r (List.mem_append_right _ (destination_subset hr))
  · exact fun ρ _ ↦ Semantics.confined_ofAssignments _
  · intro ρ hρ
    exact Semantics.renames_ofAssignments (hρ.isAbsent_eq fun r hr ↦ (hrs r hr).1)
      (assignment_mapRegisters hρ hzero i)

/-- Every physical register can be stored and loaded, but only zeros of the register `zero`. -/
theorem movesWords (symbol : String → Word) {rs : List Register} (hrs : ∀ r ∈ rs, r.isPhysical) :
    (semantics symbol).MovesWords (target.withAllocatable rs) (· ≠ zero) := by
  have hfp : fp.isPhysical := by decide
  constructor
  · intro r hr offset s
    refine ⟨s.read (visible r), ?_, fun hne ↦ ?_⟩
    · show { s with
        mem := s.mem.store (s.address { disp := offset, base := fp }) (s.read (visible r)) } = _
      rw [s.address_of_base hfp]
      rfl
    · rw [visible_of_ne hne, s.read_of_isPhysical (hrs r hr)]
  · intro r hr offset s
    have hload : (semantics symbol).exec (target.load offset r) s =
        if (visible r).isAbsent then s else
          s.set (visible r) (s.mem.load (s.address { disp := offset, base := fp })) := rfl
    -- a load leaves `zero` alone, which is as good as writing its own value
    by_cases hzero : r = zero
    · refine ⟨s.regs r, ?_, fun hne ↦ absurd hzero hne⟩
      rw [State.set_self, hzero]
      rfl
    · rw [s.address_of_base hfp, visible_of_ne hzero,
        Register.not_isAbsent_of_isPhysical (hrs r hr)] at hload
      exact ⟨_, hload, fun _ ↦ rfl⟩

/-- Moves to and from the frame carry whole words, and every register but `zero` takes them. -/
theorem movesFrame (symbol : String → Word) {rs : List Register}
    (hrs : ∀ r ∈ rs, r.isPhysical ∧ r ≠ zero) :
    (semantics symbol).MovesFrame (target.withAllocatable rs) :=
  (movesWords symbol fun r hr ↦ (hrs r hr).1).movesFrame fun r hr ↦ (hrs r hr).2

end RiscV

/-- The register has its value for good, whatever is written to it. Only RISC-V has one. -/
def TargetKind.isHardwired : TargetKind → Register → Bool
  | x86, _ => false
  | riscV, r => r = RiscV.zero

end MachineCode

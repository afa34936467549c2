import MachineCode.Proofs.ControlFlow
import MachineCode.Proofs.MeaningPreservation
import MachineCode.Proofs.RiscVExecution

/-!
# Spill code and the paths of control

The code that gives lent registers back stands behind the instruction that they were lent to. It is
run by control that goes on from the instruction, and passed over by control that goes from the
instruction to a label.

`Settled` says that a loan is over: the lent register holds what it held before, and the slot of the
spilled register holds what the instruction left in it. At the end of a block all loans are settled
(`settled_block`). Where control leaves a block by a jump, the lent register still holds the value
of the spilled one, and the slot its old value; so the loans are settled only if these values happen
to be the same (`settled_jump_iff`). `Function.lower_paths` says so for every instruction of a
lowered function and every way out of its block.
-/

namespace MachineCode

open Machine

namespace Machine

/-- The loans are over in the state `s'`, if the block was entered in the state `s` and its
instruction leads to the state `r`. -/
def Settled (area : SpillArea) (fp : Word) (loans : List Loan) (s r s' : State) : Prop :=
  ∀ x ∈ loans, s'.regs x.scratch = s.regs x.scratch ∧
    s'.mem.load (area.slotAddress fp x.slot) = r.regs x.vreg

section Block

variable {Op : Type} {t : Target Op} {sem : Semantics Op} {a : Allocation} {area : SpillArea}
  {i : Instruction Op} {implicit : List Register} {loans : List Loan} {reserved bound : Nat}
  {fp : Word} {s : State} {before after : List (Handle × Instruction Op)}
  (ht : t.Conforming) (hsem : sem.MovesFrame t)
  (hphys : ∀ r ∈ t.allocatable, r.isPhysical ∧ r ≠ t.framePointer) (ha : a.DistinctSlots)
  (harea : area.Fits) (hcount : area.spillCount = a.spillCount)
  (hlends : Lends t a i (implicit ++ i.registers.filter (·.isPhysical)) i.spilled loans)
  (hlen : loans.length ≤ reserved) (hcode : SpillCode t area bound loans before after)
  (hlaw : sem.Lawful t.allocatable i implicit) (left : Handle → Register → Word) (h : Handle)
  (hfp : s.regs t.framePointer = fp)
  (hclear : ∀ x, sem.footprint i (s.fromSlots a area fp i.spilled) x → ¬ area.InSlots fp reserved x)

include ht hsem hphys ha harea hcount hlends hlen hcode hlaw hfp hclear

/-- At the end of a block all loans are settled. -/
theorem settled_block (hwrites : t.framePointer ∉ sem.writes i) :
    Settled area fp loans s (sem.step t (left h) i (s.fromSlots a area fp i.spilled))
      (sem.run t left (before ++ (h, i.mapRegisters (Loan.substitute loans)) :: after) s) := by
  obtain ⟨htrans, -, -⟩ := transparent_block ht hsem hphys ha harea hcount hlends hlen hcode hlaw
    hwrites left h hfp hclear
  intro x hx
  have hlent : x.scratch ∈ loans.map (·.scratch) := List.mem_map_of_mem hx
  have hscratch := (hphys _ (hlends.allocatable x hx)).1
  have hw : x.scratch ∉ sem.writes i := fun hw ↦
    hlends.not_lent_of_touched (fun r hr ↦ (hphys r hr).1) (hlaw.writes_subset _ hw) hlent
  have hmem : x.vreg ∈ i.spilled := hlends.vregs ▸ List.mem_map_of_mem hx
  refine ⟨(htrans.regs _ hscratch).trans ?_, htrans.slots _ hmem _ (hlends.slot x hx)⟩
  exact regs_step_fromSlots hlaw.self_confined _ hscratch hw (hlends.saved x hx)

/-- Where control leaves a block right after its instruction, a lent register holds what the
instruction left in the spilled one, and the slot what it held before the block. -/
theorem settled_jump_iff (hreserved : reserved < Unsigned32.bound) :
    let r := sem.step t (left h) i (s.fromSlots a area fp i.spilled)
    Settled area fp loans s r
        (sem.run t left (before ++ [(h, i.mapRegisters (Loan.substitute loans))]) s) ↔
      ∀ x ∈ loans, r.regs x.vreg = s.regs x.scratch ∧
        s.mem.load (area.slotAddress fp x.slot) = r.regs x.vreg := by
  intro r
  obtain ⟨hbefore, hmirrors, hregs⟩ := mirrors_block ht hsem hphys ha harea hcount hlends hlen
    hcode hlaw left hfp hclear
  rw [Settled, Semantics.run_append]
  refine forall₂_congr fun x hx ↦ ?_
  have hmem : x.vreg ∈ i.spilled := hlends.vregs ▸ List.mem_map_of_mem hx
  have hnot := hlends.not_lent_of_touched (fun r hr ↦ (hphys r hr).1)
    (List.mem_append_left implicit (Instruction.mem_spilled.1 hmem).1)
  have hscratch := hregs (left h) x.vreg hnot
  rw [hlends.substitute_vreg hx] at hscratch
  -- the slot is apart from all that the code before the instruction and the instruction write
  have hslot : x.slot < area.spillCount :=
    hcount ▸ ha.bounded _ _ (hlends.isVirtual hx) (hlends.slot x hx)
  have hload : (sem.step t (left h) (i.mapRegisters (Loan.substitute loans))
      (sem.run t left before s)).mem.load (area.slotAddress fp x.slot) =
      s.mem.load (area.slotAddress fp x.slot) := by
    refine Memory.load_congr fun y hy ↦ ?_
    have hfoot : ¬ sem.footprint i (s.fromSlots a area fp i.spilled) y := fun hfoot ↦
      hclear y hfoot (Or.inl ⟨x.slot, hslot, hy⟩)
    rw [Semantics.mem_step, hmirrors.untouched y hfoot]
    exact mem_of_exchanged hlen hbefore fun n hn hn' hin ↦
      SpillArea.apart_slot_reserved harea fp hslot hn (by omega) y hy hin
  show (sem.step t (left h) _ _).regs x.scratch = _ ∧ (sem.step t (left h) _ _).mem.load _ = _ ↔ _
  rw [hscratch, hload]

end Block

end Machine

/-! ### Ways out of the blocks of a function -/

/-- Spill code is straight. -/
theorem SpillCode.straight (k : TargetKind) {allocatable : List Register} {area : SpillArea}
    {bound : Nat} {loans : List Loan} {before after : List (Handle × Instruction k.Opcode)}
    (h : SpillCode (k.target.withAllocatable allocatable) area bound loans before after) :
    (∀ e ∈ before, k.flow.Straight e.2) ∧ ∀ e ∈ after, k.flow.Straight e.2 := by
  have hmoves : ∀ (code : List (Handle × Instruction k.Opcode)) (g : Loan × Nat → _),
      (∀ x, ∀ i ∈ g x, k.flow.Straight i) → code.map (·.2) = loans.zipIdx.flatMap g →
      ∀ e ∈ code, k.flow.Straight e.2 := by
    intro code g hg heq e he
    have hmem : e.2 ∈ code.map (·.2) := List.mem_map_of_mem he
    rw [heq] at hmem
    obtain ⟨x, -, hx⟩ := List.mem_flatMap.1 hmem
    exact hg x _ hx
  refine ⟨hmoves _ _ (fun x i hi ↦ ?_) h.before_eq, hmoves _ _ (fun x i hi ↦ ?_) h.after_eq⟩
  all_goals
    rcases List.mem_cons.1 hi with rfl | hi
    · exact k.straight_store _ _
    · rcases List.mem_singleton.1 hi with rfl
      exact k.straight_load _ _

/-- The block `before ++ e' :: after` behind the code `pre` is for the instruction `e`, with its
spilled registers lent as in `loans`. Control leaves it at its end or from the instruction to a
label. At the end the loans are settled. At a label they are settled exactly if each lent register
held what the instruction leaves in the spilled one, and the slot holds that value already. This is
true in every machine state, on every machine that moves the registers `solid` to the frame and
back, for every meaning of the instruction that obeys the laws, does not write the frame pointer and
works on memory outside the slots. -/
def BlockPaths {Op : Type} (flow : Flow Op) (t : Target Op) (solid : Register → Prop)
    (a : Allocation) (area : SpillArea) (reserved : Nat) (implicit : List Register)
    (loans : List Loan) (code pre before after : List (Handle × Instruction Op))
    (e : Handle × Instruction Op) : Prop :=
  let e' := (e.1, e.2.mapRegisters (Loan.substitute loans))
  let stop := pre.length + (before ++ e' :: after).length
  ∀ path q, flow.Leaves code pre.length stop pre.length path q →
    (path = before ++ e' :: after ∧ q = stop ∨
      path = before ++ [e'] ∧ ∃ x name, code[q]? = some x ∧ flow.label? x.2 = some name ∧
        flow.mayJumpTo e.2 name) ∧
    ∀ (sem : Semantics Op) (left : Handle → Register → Word) (s : State),
      sem.MovesWords t solid → sem.Lawful t.allocatable e.2 implicit →
      t.framePointer ∉ sem.writes e.2 →
      let fp := s.regs t.framePointer
      let v := s.fromSlots a area fp e.2.spilled
      let r := sem.step t (left e.1) e.2 v
      (∀ x, sem.footprint e.2 v x → ¬ area.InSlots fp reserved x) →
        (path = before ++ e' :: after →
          Settled area fp loans s r (sem.run t left path s)) ∧
        (path = before ++ [e'] →
          (Settled area fp loans s r (sem.run t left path s) ↔
            ∀ x ∈ loans, r.regs x.vreg = s.regs x.scratch ∧
              s.mem.load (area.slotAddress fp x.slot) = r.regs x.vreg))

/-- Each instruction has its block in a lowered function, and the slots of the frame can be counted
in a 32-bit word. -/
theorem Function.exists_block {Op : Type} {t : Target Op} {a : Allocation} {f f' : Function Op}
    {l : List (Handle × Instruction Op)} {preserve : Bool} {frame : Frame}
    (hl : f.code.Represents l) (h : (f.lower t a preserve).result = .ok (f', frame)) :
    a.spillCount + frame.reservedSlots < Unsigned32.bound ∧
      ∀ e ∈ l, ∃ pre block post bound, f'.code.entries = pre ++ block ++ post ∧
        BlockFor t a (f.spillArea t a) bound frame.reservedSlots
          (e.1, e.2.mapRegisters a.assigned) block := by
  obtain ⟨-, prologue, blocks, epilogue, bound, total, hrep, -, -, htotal, -, hspill, -, -,
    hblocks⟩ := exists_lowered hl h
  refine ⟨hspill ▸ Frame.slots_lt_of_totalBytes htotal, ?_⟩
  rw [hrep.entries_eq]
  clear hl hrep
  -- by induction on the source, with the blocks before it in front
  induction hblocks generalizing prologue with
  | nil => exact fun e he ↦ nomatch he
  | @cons e block l blocks hblock hblocks ih =>
    rw [List.flatten_cons, ← List.append_assoc]
    rintro e' (_ | ⟨_, he'⟩)
    · exact ⟨prologue, block, blocks.flatten ++ epilogue, bound, by rw [List.append_assoc], hblock⟩
    · exact ih (prologue ++ block) e' he'

/-- The ways out of a block. -/
theorem blockPaths (k : TargetKind) {allocatable : List Register}
    (hallocatable : ∀ r ∈ allocatable,
      r.isPhysical ∧ r ≠ k.target.framePointer ∧ ¬ k.isHardwired r)
    {a : Allocation} (ha : a.DistinctSlots) {area : SpillArea} (harea : area.Fits)
    (hcount : area.spillCount = a.spillCount) {reserved bound : Nat}
    (hreserved : reserved < Unsigned32.bound) {e : Handle × Instruction k.Opcode}
    {implicit : List Register} {loans : List Loan}
    {before after : List (Handle × Instruction k.Opcode)}
    (hlends : Lends (k.target.withAllocatable allocatable) a e.2
      (implicit ++ e.2.registers.filter (·.isPhysical)) e.2.spilled loans)
    (hlen : loans.length ≤ reserved)
    (hcode : SpillCode (k.target.withAllocatable allocatable) area bound loans before after)
    (pre post : List (Handle × Instruction k.Opcode)) :
    BlockPaths k.flow (k.target.withAllocatable allocatable) (¬ k.isHardwired ·) a area reserved
      implicit loans
      (pre ++ (before ++ (e.1, e.2.mapRegisters (Loan.substitute loans)) :: after) ++ post) pre
      before after e := by
  intro path q hpath
  have ht := k.conforming allocatable
  have hphys : ∀ r ∈ allocatable, r.isPhysical ∧ r ≠ k.target.framePointer := fun r hr ↦
    ⟨(hallocatable r hr).1, (hallocatable r hr).2.1⟩
  have hmoves : ∀ sem : Semantics k.Opcode,
      sem.MovesWords (k.target.withAllocatable allocatable) (¬ k.isHardwired ·) →
        sem.MovesFrame (k.target.withAllocatable allocatable) := fun sem hwords ↦
    hwords.movesFrame fun r hr ↦ (hallocatable r hr).2.2
  obtain ⟨hbefore, hafter⟩ := hcode.straight k
  refine ⟨?_, fun sem left s hwords hlaw hwrites hclear ↦ ⟨?_, ?_⟩⟩
  -- a path leaves the block at its end or by a jump, which stands in front of the restoring code
  · rw [Flow.leaves_block_iff hbefore hafter fun hjumps ↦ k.not_marks_of_jumps hjumps] at hpath
    rcases hpath with ⟨-, hpath⟩ | ⟨hpath, x, name, hx, hname, hjump⟩
    · exact Or.inl hpath
    · rw [Flow.mayJumpTo_mapRegisters] at hjump
      exact Or.inr ⟨hpath, x, name, hx, hname, hjump⟩
  · rintro rfl
    exact settled_block ht (hmoves sem hwords) hphys ha harea hcount hlends hlen hcode hlaw left
      e.1 rfl hclear hwrites
  · rintro rfl
    exact settled_jump_iff ht (hmoves sem hwords) hphys ha harea hcount hlends hlen hcode hlaw left
      e.1 rfl hclear hreserved

/-- **Spill code on the paths of control.** On either machine, with any list of physical registers
to hand out that leaves the frame pointer and, on RISC-V, the register `zero` alone, and for any
allocation that gives different slots to different virtual registers: if a function can be lowered,
then each of its instructions with spilled registers has a block in the final code, and the ways out
of this block are as in `BlockPaths`. -/
theorem Function.lower_paths (k : TargetKind) {allocatable : List Register}
    (hallocatable : ∀ r ∈ allocatable,
      r.isPhysical ∧ r ≠ k.target.framePointer ∧ ¬ k.isHardwired r)
    {f f' : Function k.Opcode} {l : List (Handle × Instruction k.Opcode)}
    (hl : f.code.Represents l) {a : Allocation} (ha : a.DistinctSlots) {preserve : Bool}
    {frame : Frame}
    (h : (f.lower (k.target.withAllocatable allocatable) a preserve).result = .ok (f', frame)) :
    let t := k.target.withAllocatable allocatable
    let area := f.spillArea t a
    ∀ e ∈ l, (e.2.mapRegisters a.assigned).spilled ≠ [] →
      ∃ pre before after post implicit loans bound,
        let i := e.2.mapRegisters a.assigned
        f'.code.entries =
          pre ++ (before ++ (e.1, i.mapRegisters (Loan.substitute loans)) :: after) ++ post ∧
        t.implicitUses i = .ok implicit ∧
        Lends t a i (implicit ++ i.registers.filter (·.isPhysical)) i.spilled loans ∧
        SpillCode t area bound loans before after ∧
        BlockPaths k.flow t (¬ k.isHardwired ·) a area frame.reservedSlots implicit loans
          f'.code.entries pre before after (e.1, i) := by
  intro t area e he hspilled
  have ht : t.Conforming := k.conforming allocatable
  obtain ⟨hslots, hblocks⟩ := exists_block hl h
  obtain ⟨pre, block, post, bound, hentries, implicit, loans, before, after, himplicit, hlends,
    hlen, hcode, rfl⟩ := hblocks e he
  have harea : area.Fits := ⟨ht.registerSize, Nat.lt_of_le_of_lt (Nat.le_add_right _ _) hslots⟩
  have hreserved : frame.reservedSlots < Unsigned32.bound := by omega
  refine ⟨pre, before, after, post, implicit, loans, bound, hentries, himplicit hspilled, hlends,
    hcode, ?_⟩
  rw [hentries]
  exact blockPaths k hallocatable ha harea rfl hreserved hlends hlen hcode pre post

/-- A branch on a spilled register that is not taken: the lent register has its old value again, and
the slot still holds the value of the spilled register. -/
theorem Function.lower_paths_fall :
    let t := RiscV.target.withAllocatable [RiscV.t0]
    let i : Instruction RiscV.Opcode :=
      ⟨.bne, [.reg ⟨2147483648⟩, .reg RiscV.zero, .label "L"]⟩
    let f : Function RiscV.Opcode := {
      name := "f"
      code := ((Code.empty.pushBack i).2.pushBack ⟨.label, [.label "L"]⟩).2 }
    let a : Allocation :=
      { places := RegisterMap.empty.insert ⟨2147483648⟩ ⟨1073741824⟩, spillCount := 1 }
    let s : State := {
      regs := fun r ↦ if r = RiscV.fp then 4096 else if r = RiscV.t0 then 5 else 0
      mem := fun x ↦ if x = 4088 then 1 else 0 }
    ∃ f' frame, (f.lower t a false).result = .ok (f', frame) ∧
      ∃ pre block post, f'.code.entries = pre ++ block ++ post ∧
        RiscV.flow.Leaves (pre ++ block ++ post) pre.length (pre.length + block.length) pre.length
          block (pre.length + block.length) ∧
        let s' := (RiscV.semantics fun _ ↦ 0).run t (fun _ _ ↦ 0) block s
        s'.regs RiscV.t0 = 5 ∧ s'.mem.load ((f.spillArea t a).slotAddress 4096 0) = 1 := by
  intro t i f a s
  have hlower : (f.lower t a false).result.toOption.isSome := by decide
  obtain ⟨⟨f', frame⟩, hok⟩ := Option.isSome_iff_exists.1 hlower
  rw [toOption_eq_some] at hok
  have hallocatable : ∀ r ∈ [RiscV.t0],
      r.isPhysical ∧ r ≠ RiscV.fp ∧ ¬ TargetKind.riscV.isHardwired r := by decide
  have hvisible : ∀ r ∈ [RiscV.t0], r.isPhysical ∧ r ≠ RiscV.zero := by decide
  have ha : a.DistinctSlots := Allocation.distinctSlots_of_entries (by decide) (by decide)
  obtain ⟨pre, before, after, post, implicit, loans, bound, hentries, -, hlends, hcode, hpaths⟩ :=
    lower_paths .riscV hallocatable ((Code.represents_empty.pushBack i).pushBack _) ha hok
      (0, i) (.head _) (by decide)
  obtain ⟨hbefore, hafter⟩ := hcode.straight .riscV
  -- the way out at the end of the block
  let e' : Handle × Instruction TargetKind.riscV.Opcode :=
    (0, (i.mapRegisters a.assigned).mapRegisters (Loan.substitute loans))
  have hleaves : TargetKind.riscV.flow.Leaves (pre ++ (before ++ e' :: after) ++ post) pre.length
      (pre.length + (before ++ e' :: after).length) pre.length (before ++ e' :: after)
      (pre.length + (before ++ e' :: after).length) :=
    (Flow.leaves_block_iff hbefore hafter fun hjumps ↦ TargetKind.riscV.not_marks_of_jumps hjumps).2
      (Or.inl ⟨rfl, rfl, rfl⟩)
  rw [hentries] at hpaths
  obtain ⟨-, hruns⟩ := hpaths _ _ hleaves
  have hsettled := (hruns (RiscV.semantics fun _ ↦ 0) (fun _ _ ↦ 0) s
    (RiscV.movesFrame _ hvisible).movesWords (RiscV.lawful _ hvisible _ implicit) (by decide)
    (fun x hx ↦ hx.elim)).1 rfl
  -- the only loan is that of `t0`
  obtain ⟨x, rfl⟩ : ∃ x, loans = [x] := List.length_eq_one_iff.1 hlends.length_eq
  have hx : x ∈ [x] := List.mem_singleton.2 rfl
  have hscratch : x.scratch = RiscV.t0 := List.mem_singleton.1 (hlends.allocatable x hx)
  have hvreg : x.vreg = ⟨2147483648⟩ := List.singleton_inj.1 hlends.vregs
  have hslot : x.slot = 0 := by
    have hslot := hlends.slot x hx
    rw [hvreg] at hslot
    exact (Option.some.inj hslot).symm
  obtain ⟨hregs, hload⟩ := hsettled x hx
  rw [hscratch] at hregs
  rw [hslot, hvreg] at hload
  exact ⟨f', frame, hok, pre, _, post, hentries, hleaves, hregs, hload.trans (by decide)⟩

/-- A branch on a spilled register that is taken: `t0`, which holds the value 5 of another virtual
register, is lent to the branch, and at the label it holds the value 1 of the spilled one. -/
theorem Session.compile_loses_scratch_at_label :
    let t := RiscV.target.withAllocatable [RiscV.t0]
    let emissions : List (Function.Emission RiscV.Opcode) := [.newVirtual, .newVirtual,
      .emit ⟨.li, [.reg ⟨2147483648⟩, .imm 1]⟩, .emit ⟨.li, [.reg ⟨2147483649⟩, .imm 5]⟩,
      .emit ⟨.bne, [.reg ⟨2147483648⟩, .reg RiscV.zero, .label "L"]⟩,
      .emit ⟨.li, [.reg ⟨2147483649⟩, .imm 6]⟩, .emit ⟨.label, [.label "L"]⟩,
      .emit ⟨.mv, [.reg RiscV.a0, .reg ⟨2147483649⟩]⟩,
      .emit ⟨.add, [.reg RiscV.a0, .reg RiscV.a0, .reg ⟨2147483648⟩]⟩]
    let run := (RiscV.semantics fun _ ↦ 0).run t (fun _ _ ↦ 0)
    let start : State := { regs := fun r ↦ if r = RiscV.sp then 4096 else 0, mem := fun _ ↦ 0 }
    ∃ f counter compiled, Function.emitAll "f" 0 {} emissions = .ok (f, counter) ∧
      (compile ⟨t, {}, {}⟩ f).result = .ok compiled ∧
      compiled.allocation.get? ⟨2147483648⟩ = some ⟨1073741824⟩ ∧
      compiled.allocation.get? ⟨2147483649⟩ = some RiscV.t0 ∧
      let code := compiled.function.code.entries
      let path := (code.drop 10).take 3
      path.map (·.2) = [⟨.sd, [.reg RiscV.t0, .memory (-16) RiscV.fp]⟩,
        ⟨.ld, [.reg RiscV.t0, .memory (-8) RiscV.fp]⟩,
        ⟨.bne, [.reg RiscV.t0, .reg RiscV.zero, .label "L"]⟩] ∧
      RiscV.flow.Leaves code 10 15 10 path 16 ∧
      let s := run (code.take 10) start
      s.regs RiscV.t0 = 5 ∧ (run path s).regs RiscV.t0 = 1 := by
  intro t emissions run start
  -- the code up to the label
  let lowered : List (Handle × Instruction RiscV.Opcode) := [
    (19, ⟨.addi, [.reg RiscV.sp, .reg RiscV.sp, .imm (-32)]⟩),
    (20, ⟨.sd, [.reg RiscV.ra, .memory 16 RiscV.sp]⟩),
    (21, ⟨.sd, [.reg RiscV.fp, .memory 24 RiscV.sp]⟩),
    (22, ⟨.addi, [.reg RiscV.fp, .reg RiscV.sp, .imm 16]⟩),
    (7, ⟨.sd, [.reg RiscV.t0, .memory (-16) RiscV.fp]⟩),
    (8, ⟨.ld, [.reg RiscV.t0, .memory (-8) RiscV.fp]⟩), (0, ⟨.li, [.reg RiscV.t0, .imm 1]⟩),
    (9, ⟨.sd, [.reg RiscV.t0, .memory (-8) RiscV.fp]⟩),
    (10, ⟨.ld, [.reg RiscV.t0, .memory (-16) RiscV.fp]⟩), (1, ⟨.li, [.reg RiscV.t0, .imm 5]⟩),
    (11, ⟨.sd, [.reg RiscV.t0, .memory (-16) RiscV.fp]⟩),
    (12, ⟨.ld, [.reg RiscV.t0, .memory (-8) RiscV.fp]⟩),
    (2, ⟨.bne, [.reg RiscV.t0, .reg RiscV.zero, .label "L"]⟩),
    (13, ⟨.sd, [.reg RiscV.t0, .memory (-8) RiscV.fp]⟩),
    (14, ⟨.ld, [.reg RiscV.t0, .memory (-16) RiscV.fp]⟩), (3, ⟨.li, [.reg RiscV.t0, .imm 6]⟩),
    (4, ⟨.label, [.label "L"]⟩)]
  have hrun : (Function.emitAll "f" 0 {} emissions).toOption.map (fun b ↦
      (compile ⟨t, {}, {}⟩ b.1).result.toOption.map fun c ↦ (c.function.code.entries.take 17,
        c.allocation.get? ⟨2147483648⟩, c.allocation.get? ⟨2147483649⟩)) =
      some (some (lowered, some ⟨1073741824⟩, some RiscV.t0)) := by decide
  obtain ⟨⟨f, counter⟩, hf, hrun⟩ := Option.map_eq_some_iff.1 hrun
  obtain ⟨compiled, hcompile, hrun⟩ := Option.map_eq_some_iff.1 hrun
  obtain ⟨htake, hplaces⟩ := Prod.mk.inj hrun
  obtain ⟨hfirst, hsecond⟩ := Prod.mk.inj hplaces
  rw [toOption_eq_some] at hf hcompile
  refine ⟨f, counter, compiled, hf, hcompile, hfirst, hsecond, ?_⟩
  have hcode := List.take_append_drop 17 compiled.function.code.entries
  rw [htake] at hcode
  rw [← hcode]
  refine ⟨rfl, ?_, (by decide : (run (lowered.take 10) start).regs RiscV.t0 = 5),
    (by decide : (run ((lowered.drop 10).take 3) (run (lowered.take 10) start)).regs _ = 1)⟩
  -- two moves, and the jump from position 12 to the label
  refine .step (q := 11) (by decide) (by decide) rfl rfl ?_
  refine .step (q := 12) (by decide) (by decide) rfl rfl ?_
  refine .step (q := 16) (by decide) (by decide) rfl rfl ?_
  exact .out (by decide)

end MachineCode

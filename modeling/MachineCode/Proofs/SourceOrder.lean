import MachineCode.Proofs.MeaningPreservation

/-!
# Lowering keeps the source in order

Lowering loses no instruction, doubles none, and keeps their order. `Function.lower_keeps_source`
says what the code of a lowered function is, from its first instruction to its last, in terms of
the source, the allocation and the frame alone:

* the spilled registers of an instruction are those that the allocation has put into stack slots,
  each once, in the order in which the instruction names them (`Allocation.spilledIn`). They are the
  virtual registers that are left when the assigned ones have been exchanged
  (`Instruction.spilled_assigned`);
* the block of an instruction moves the lent registers out and in around it, through the slots of
  the frame that the function gets in the end (`LowersTo`);
* the frame has as many reserved slots as the instruction with the most spilled registers needs
  (`Function.reserved_insertSpillCode`).
-/

namespace MachineCode

variable {Op : Type} {t : Target Op} {a : Allocation}

/-! ### Spilled registers in terms of the source -/

namespace Allocation

/-- The registers of an instruction that live in stack slots, each once, in the order in which the
instruction names them. -/
def spilledIn (a : Allocation) (i : Instruction Op) : List Register :=
  Register.distinct (i.registers.filter fun r ↦ r.isVirtual && a.isSpilled r)

/-- The largest number of registers in stack slots that one instruction names. -/
def peak (a : Allocation) (l : List (Handle × Instruction Op)) : Nat :=
  (l.map fun e ↦ (a.spilledIn e.2).length).foldl max 0

/-- What has a stack slot is spilled. -/
theorem isSpilled_of_slotOf? {v : Register} {n : Nat} (h : a.slotOf? v = some n) :
    a.isSpilled v := by
  obtain ⟨place, hplace, hslot⟩ := Option.bind_eq_some_iff.1 h
  rw [isSpilled, hplace]
  exact (Register.isStackSlot_of_slotIndex? hslot).1

theorem not_isSpilled_of_isPhysical {v r : Register} (hr : r.isPhysical) (h : a.get? v = some r) :
    ¬ a.isSpilled v := by
  rw [isSpilled, h]
  exact Register.not_isStackSlot_of_isPhysical hr

/-- An accepted register is still virtual after assignment if and only if it is spilled. -/
theorem isVirtual_assigned_iff {r : Register} (h : a.accepts r) :
    (a.assigned r).isVirtual ↔ r.isVirtual ∧ a.isSpilled r := by
  by_cases hr : r.isVirtual
  · rcases place_cases hr h with ⟨q, hq, hplace, heq⟩ | ⟨n, hn, heq⟩
    · rw [heq]
      exact iff_of_false (Register.not_isVirtual_of_isPhysical hq) fun hboth ↦
        not_isSpilled_of_isPhysical hq hplace hboth.2
    · rw [heq]
      exact iff_of_true hr ⟨hr, isSpilled_of_slotOf? hn⟩
  · rw [assigned_of_not_isVirtual hr]
    exact iff_of_false hr fun hboth ↦ hr hboth.1

/-- The callee-saved registers in use are those that some virtual register lives in. -/
theorem mem_usedCalleeSaved {rf : RegisterFile} {r : Register} :
    r ∈ a.usedCalleeSaved rf ↔ r.isPhysical ∧ rf.isCalleeSaved r ∧ ∃ v, a.get? v = some r := by
  rw [usedCalleeSaved, Register.mem_distinct, List.mem_filter, Bool.and_eq_true, List.mem_map]
  constructor
  · rintro ⟨⟨e, he, rfl⟩, hphys, hcallee⟩
    exact ⟨hphys, hcallee, e.1, RegisterMap.mem_entries_iff.1 he⟩
  · rintro ⟨hphys, hcallee, v, hv⟩
    exact ⟨⟨(v, r), RegisterMap.mem_entries_iff.2 hv, rfl⟩, hphys, hcallee⟩

theorem isAbsent_assigned (a : Allocation) (r : Register) :
    (a.assigned r).isAbsent = r.isAbsent := by
  by_cases hr : r.isVirtual
  · rcases assigned_cases (a := a) hr with ⟨hphys, -⟩ | hself
    · rw [Register.not_isAbsent_of_isPhysical hphys, Register.not_isAbsent_of_isVirtual hr]
    · rw [hself]
  · rw [assigned_of_not_isVirtual hr]

end Allocation

namespace Instruction

variable {i : Instruction Op}

theorem registers_assigned (a : Allocation) (i : Instruction Op) :
    (i.mapRegisters a.assigned).registers = i.registers.map a.assigned :=
  registers_mapRegisters a.isAbsent_assigned i

/-- **What assignment leaves behind are the spilled registers**, in the order of the source. -/
theorem spilled_assigned (h : ∀ r ∈ i.registers, a.accepts r) :
    (i.mapRegisters a.assigned).spilled = a.spilledIn i := by
  have hkept : i.registers.filter ((·.isVirtual) ∘ a.assigned) =
      i.registers.filter fun r ↦ r.isVirtual && a.isSpilled r := by
    refine List.filter_congr fun r hr ↦ ?_
    rw [Bool.eq_iff_iff, Bool.and_eq_true]
    exact Allocation.isVirtual_assigned_iff (h r hr)
  -- the registers that are kept are exchanged for themselves
  have hself : ∀ r ∈ i.registers.filter fun r ↦ r.isVirtual && a.isSpilled r,
      a.assigned r = id r := by
    intro r hr
    rw [List.mem_filter, Bool.and_eq_true] at hr
    refine (Allocation.assigned_cases hr.2.1).resolve_left ?_
    rintro ⟨hphys, hplace⟩
    exact Allocation.not_isSpilled_of_isPhysical hphys hplace hr.2.2
  rw [spilled, Allocation.spilledIn, registers_assigned, List.filter_map, hkept,
    List.map_congr_left hself, List.map_id]

end Instruction

/-! ### The number of reserved slots -/

namespace Function

variable {f f' : Function Op} {l : List (Handle × Instruction Op)} {reserved : Nat}

/-- The reserved slots are as many as the most spilled registers of one instruction. -/
theorem reserved_insertSpillCode (hl : f.code.Represents l)
    (h : (f.insertSpillCode t a).result = .ok (reserved, f')) :
    reserved = (l.map fun e ↦ e.2.spilled.length).foldl max 0 := by
  rw [insertSpillCode, Logged.result_bind, Logged.result_foldlM] at h
  obtain ⟨⟨reserved', code⟩, hfold, heq⟩ := bind_eq_ok.1 h
  cases heq
  rw [hl.entries_eq] at hfold
  refine foldlM_invariant (fun (done : List (Handle × Instruction Op)) (s : Nat × Code Op) ↦
    s.1 = (done.map fun e ↦ e.2.spilled.length).foldl max 0) ?_ rfl hfold
  rintro done ⟨h, i⟩ rest ⟨n, c⟩ ⟨n', c'⟩ - hn hstep
  rw [Logged.result_bind] at hstep
  obtain ⟨loans, hloans, hstep⟩ := bind_eq_ok.1 hstep
  rw [Logged.result_bind] at hstep
  obtain ⟨c₁, -, hstep⟩ := bind_eq_ok.1 hstep
  cases hstep
  obtain ⟨implicit, -, hlends⟩ := Instruction.lends_of_loans hloans
  rw [List.map_append, List.foldl_append, ← hn, hlends.length_eq]
  rfl

end Function

/-! ### Blocks in terms of the source -/

/-- The offset of a stack slot from the frame pointer. -/
def Frame.slotAt (frame : Frame) (slot : Nat) : Int :=
  spillOffset frame.localBytes frame.registerSize slot

/-- The offset of a reserved slot from the frame pointer. -/
def Frame.reservedAt (frame : Frame) (nth : Nat) : Int :=
  reservedOffset frame.localBytes frame.registerSize frame.spillSlots nth

/-- What stands in lowered code for the registers of an instruction: its place for an assigned
register, the lent register for a spilled one, and any other register for itself. -/
structure Allocation.Replaces (a : Allocation) (loans : List Loan) (σ : Register → Register) :
    Prop where
  fixed : ∀ r, ¬ r.isVirtual → σ r = r
  assigned : ∀ v r, v.isVirtual → r.isPhysical → a.get? v = some r → σ v = r
  lent : ∀ x ∈ loans, σ x.vreg = x.scratch

/-- The entry `e` of the source gives way to `block`: to the same entry with its registers replaced,
between two moves for each of its spilled registers before it and two after it. Before it the `n`th
lent register goes to the `n`th reserved slot and comes from the stack slot of the spilled register,
after it the other way round. -/
def LowersTo (t : Target Op) (a : Allocation) (frame : Frame) (e : Handle × Instruction Op)
    (block : List (Handle × Instruction Op)) : Prop :=
  ∃ loans σ before after,
    block = before ++ (e.1, e.2.mapRegisters σ) :: after ∧ a.Replaces loans σ ∧
    loans.map (·.vreg) = a.spilledIn e.2 ∧ (∀ x ∈ loans, a.slotOf? x.vreg = some x.slot) ∧
    (loans.map (·.scratch)).Nodup ∧ (∀ x ∈ loans, x.scratch ∈ t.allocatable) ∧
    before.map (·.2) = loans.zipIdx.flatMap (fun x ↦
      [t.store x.1.scratch (frame.reservedAt (x.2 + 1)),
        t.load (frame.slotAt x.1.slot) x.1.scratch]) ∧
    after.map (·.2) = loans.zipIdx.flatMap (fun x ↦
      [t.store x.1.scratch (frame.slotAt x.1.slot),
        t.load (frame.reservedAt (x.2 + 1)) x.1.scratch])

/-- The registers lent to an instruction, on top of the assigned ones, replace its registers. -/
theorem Lends.replaces {i : Instruction Op} {inUse : List Register} {loans : List Loan}
    (h : Lends t a (i.mapRegisters a.assigned) inUse (i.mapRegisters a.assigned).spilled loans) :
    a.Replaces loans (Loan.substitute loans ∘ a.assigned) := by
  have hkept : ∀ r, ¬ r.isVirtual → Loan.substitute loans r = r := fun r hr ↦
    h.substitute_of_not_mem fun hmem ↦ hr (Instruction.mem_spilled.1 hmem).2
  refine ⟨fun r hr ↦ ?_, fun v r hv hr hplace ↦ ?_, fun x hx ↦ ?_⟩
  · show Loan.substitute loans (a.assigned r) = r
    rw [Allocation.assigned_of_not_isVirtual hr, hkept r hr]
  · show Loan.substitute loans (a.assigned v) = r
    rw [Allocation.assigned_of_isPhysical hv hr hplace,
      hkept r (Register.not_isVirtual_of_isPhysical hr)]
  · show Loan.substitute loans (a.assigned x.vreg) = x.scratch
    rw [Allocation.assigned_of_slotOf? (h.slot x hx), h.substitute_vreg hx]

/-- The block of an assigned instruction is what the instruction is lowered to. -/
theorem BlockFor.lowersTo {e : Handle × Instruction Op} {block : List (Handle × Instruction Op)}
    {frame : Frame} {area : SpillArea} {bound reserved : Nat}
    (haccepts : ∀ r ∈ e.2.registers, a.accepts r)
    (harea : area = ⟨frame.localBytes, frame.registerSize, frame.spillSlots⟩)
    (h : BlockFor t a area bound reserved (e.1, e.2.mapRegisters a.assigned) block) :
    LowersTo t a frame e block := by
  obtain ⟨implicit, loans, before, after, -, hlends, -, hcode, rfl⟩ := h
  subst harea
  refine ⟨loans, Loan.substitute loans ∘ a.assigned, before, after, ?_, hlends.replaces, ?_,
    hlends.slot, hlends.nodup, hlends.allocatable, hcode.before_eq, hcode.after_eq⟩
  · rw [Instruction.mapRegisters_mapRegisters]
  · rw [← Instruction.spilled_assigned haccepts]
    exact hlends.vregs

namespace LowersTo

variable {frame : Frame} {e : Handle × Instruction Op} {block : List (Handle × Instruction Op)}

/-- An instruction without spilled registers stands alone. -/
theorem eq_singleton (h : LowersTo t a frame e block) (hnone : a.spilledIn e.2 = []) :
    ∃ σ, a.Replaces [] σ ∧ block = [(e.1, e.2.mapRegisters σ)] := by
  obtain ⟨loans, σ, before, after, rfl, hσ, hvregs, -, -, -, hbefore, hafter⟩ := h
  rw [hnone, List.map_eq_nil_iff] at hvregs
  subst hvregs
  rw [List.map_eq_nil_iff.1 hbefore, List.map_eq_nil_iff.1 hafter]
  exact ⟨σ, hσ, rfl⟩

/-- There are four moves for each spilled register. -/
theorem length_eq (h : LowersTo t a frame e block) :
    block.length = 4 * (a.spilledIn e.2).length + 1 := by
  obtain ⟨loans, σ, before, after, rfl, -, hvregs, -, -, -, hbefore, hafter⟩ := h
  have hbefore' := congrArg List.length hbefore
  have hafter' := congrArg List.length hafter
  simp only [List.length_map, List.length_flatMap, List.length_cons, List.length_nil,
    List.map_const', List.length_zipIdx, List.sum_replicate_nat] at hbefore' hafter'
  rw [← hvregs, List.length_append, List.length_cons, hbefore', hafter', List.length_map]
  omega

end LowersTo

/-! ### Lowered functions -/

/-- Lowering changes nothing of a function but its code. -/
theorem Function.lower_eq_withCode {f f' : Function Op} {preserve : Bool} {frame : Frame}
    (h : (f.lower t a preserve).result = .ok (f', frame)) : f' = { f with code := f'.code } := by
  obtain ⟨f₁, reserved, f₂, total, hassign, hspill, -, -, henclose⟩ := lower_eq_ok.1 h
  obtain ⟨code₁, -, heq⟩ := bind_eq_ok.1 hassign
  cases heq
  rw [insertSpillCode, Logged.result_bind] at hspill
  obtain ⟨⟨n, code₂⟩, -, heq⟩ := bind_eq_ok.1 hspill
  cases heq
  obtain ⟨prologue, -, henclose⟩ := bind_eq_ok.1 henclose
  obtain ⟨epilogue, -, henclose⟩ := bind_eq_ok.1 henclose
  obtain ⟨code₃, -, henclose⟩ := bind_eq_ok.1 henclose
  obtain ⟨code₄, -, heq⟩ := bind_eq_ok.1 henclose
  cases heq
  rfl

/-- The reserved slots are counted after assignment, but the spilled registers are those of the
source. -/
theorem Function.reserved_eq_peak {f f₁ f₂ : Function Op} {reserved : Nat}
    {l : List (Handle × Instruction Op)} (hl : f.code.Represents l)
    (hassign : f.assign t a = .ok f₁)
    (hspill : (f₁.insertSpillCode t a).result = .ok (reserved, f₂)) : reserved = a.peak l := by
  obtain ⟨hrep, haccepts, -⟩ := represents_assign hl hassign
  rw [reserved_insertSpillCode hrep hspill, Allocation.peak, List.map_map]
  refine congrArg (List.foldl max 0) (List.map_congr_left fun e he ↦ ?_)
  exact congrArg List.length (Instruction.spilled_assigned (haccepts e he))

/-- The frame of a lowered function: its locals, the stack slots of the allocation, as many reserved
slots as the instruction with the most spilled registers needs, and the registers to preserve. -/
theorem Function.lower_frame {f f' : Function Op} {preserve : Bool} {frame : Frame}
    {l : List (Handle × Instruction Op)} (hl : f.code.Represents l)
    (h : (f.lower t a preserve).result = .ok (f', frame)) :
    frame = t.frame f.localBytes a.spillCount (a.peak l)
      (if preserve then a.usedCalleeSaved t.toRegisterFile else []) := by
  obtain ⟨f₁, reserved, f₂, total, hassign, hspill, rfl, -, -⟩ := lower_eq_ok.1 h
  obtain ⟨hrep, -, hlocal₁⟩ := represents_assign hl hassign
  obtain ⟨-, -, -, hlocal₂⟩ := represents_insertSpillCode hrep hspill
  rw [hlocal₂, hlocal₁, reserved_eq_peak hl hassign hspill]

/-- Each instruction of the source gives way to its block, between prologue and epilogue. -/
theorem Function.exists_lowersTo {f f' : Function Op} {preserve : Bool} {frame : Frame}
    {l : List (Handle × Instruction Op)} (hl : f.code.Represents l)
    (h : (f.lower t a preserve).result = .ok (f', frame)) :
    ∃ prologue blocks epilogue, f'.code.Represents (prologue ++ blocks.flatten ++ epilogue) ∧
      t.prologue frame = .ok (prologue.map (·.2)) ∧
      t.epilogue frame = .ok (epilogue.map (·.2)) ∧
      List.Forall₂ (LowersTo t a frame) l blocks := by
  obtain ⟨haccepts, prologue, blocks, epilogue, bound, total, hrep, hprologue, hepilogue, -, -, -,
    -, -, hblocks⟩ := exists_lowered hl h
  obtain rfl := lower_frame hl h
  refine ⟨prologue, blocks, epilogue, hrep, hprologue, hepilogue, ?_⟩
  rw [List.forall₂_iff_get] at hblocks ⊢
  refine ⟨hblocks.1, fun n hn hn' ↦ (hblocks.2 n hn hn').lowersTo ?_ rfl⟩
  exact haccepts _ (List.get_mem l ⟨n, hn⟩)

/-- **Lowering keeps the source in order.** If a function is lowered under an allocation, whatever
machine and allocation these are, then its code is the prologue of its frame, the blocks of the
instructions of the source one after the other, and the epilogue. No two instructions share a
handle, and those of the source have the handles that they had. The frame has the locals of the
function, the stack slots of the allocation, and as many reserved slots as the instruction with the
most spilled registers needs; but for its code the function is as it was. -/
theorem Function.lower_keeps_source {f f' : Function Op} {preserve : Bool} {frame : Frame}
    {l : List (Handle × Instruction Op)} (hl : f.code.Represents l)
    (h : (f.lower t a preserve).result = .ok (f', frame)) :
    (∃ prologue blocks epilogue,
      f'.code.entries = prologue ++ blocks.flatten ++ epilogue ∧
      f'.code.handles.Nodup ∧
      t.prologue frame = .ok (prologue.map (·.2)) ∧
      t.epilogue frame = .ok (epilogue.map (·.2)) ∧
      List.Forall₂ (LowersTo t a frame) l blocks) ∧
    frame.reservedSlots = a.peak l ∧ frame.spillSlots = a.spillCount ∧
    frame.localBytes = f.localBytes ∧ f' = { f with code := f'.code } := by
  obtain ⟨prologue, blocks, epilogue, hrep, hprologue, hepilogue, hblocks⟩ := exists_lowersTo hl h
  have hframe := lower_frame hl h
  refine ⟨⟨prologue, blocks, epilogue, hrep.entries_eq, ?_, hprologue, hepilogue, hblocks⟩, ?_, ?_,
    ?_, lower_eq_withCode h⟩
  · rw [Code.handles, hrep.entries_eq]
    exact hrep.nodup
  · rw [hframe]
    rfl
  · rw [hframe]
    rfl
  · rw [hframe]
    rfl

/-- Three instructions under an allocation that is made by hand, with two registers in stack slots
and one in `rbx`: the first instruction names both spilled registers, so two are lent around it; the
second one names the assigned register and an index that stays; the third one names nothing. -/
theorem Function.lower_keeps_source_addition :
    let t := X86.target.withAllocatable [X86.rax, X86.rdx]
    let add : Instruction X86.Opcode := ⟨.add, [.reg ⟨2147483648⟩, .reg ⟨2147483649⟩]⟩
    let move : Instruction X86.Opcode :=
      ⟨.mov, [.mem ⟨-24, ⟨2147483650⟩, X86.rcx, 8⟩, .reg ⟨2147483650⟩]⟩
    let f : Function X86.Opcode :=
      { name := "f"
        localBytes := 8
        code := (((Code.empty.pushBack add).2.pushBack move).2.pushBack ⟨.ret, []⟩).2 }
    let places := ((RegisterMap.empty.insert ⟨2147483648⟩ ⟨1073741825⟩).insert
      ⟨2147483649⟩ ⟨1073741824⟩).insert ⟨2147483650⟩ X86.rbx
    let a : Allocation := { places, spillCount := 2 }
    ∃ f' frame, (f.lower t a true).result = .ok (f', frame) ∧ frame.reservedSlots = 2 ∧
      ∃ prologue block epilogue,
        f'.code.entries = prologue ++ (block ++
          [(1, ⟨.mov, [.mem ⟨-24, X86.rbx, X86.rcx, 8⟩, .reg X86.rbx]⟩), (2, ⟨.ret, []⟩)]) ++
            epilogue ∧
        block.length = 9 := by
  intro t add move f places a
  have hrun : (f.lower t a true).result.toOption.isSome := by decide
  obtain ⟨⟨f', frame⟩, hlower⟩ := Option.isSome_iff_exists.1 hrun
  rw [toOption_eq_some] at hlower
  have hl : f.code.Represents [(0, add), (1, move), (2, ⟨.ret, []⟩)] :=
    ((Code.represents_empty.pushBack add).pushBack move).pushBack ⟨.ret, []⟩
  obtain ⟨⟨prologue, blocks, epilogue, hentries, -, -, -, hblocks⟩, hreserved, -, -, -⟩ :=
    lower_keeps_source hl hlower
  simp only [List.forall₂_cons_left_iff, List.forall₂_nil_left_iff] at hblocks
  obtain ⟨block, -, hblock, ⟨block₁, -, hblock₁, ⟨block₂, -, hblock₂, rfl, rfl⟩, rfl⟩, rfl⟩ :=
    hblocks
  obtain ⟨σ, hσ, rfl⟩ := hblock₁.eq_singleton (by decide)
  obtain ⟨τ, -, rfl⟩ := hblock₂.eq_singleton (by decide)
  have hmove : move.mapRegisters σ = ⟨.mov, [.mem ⟨-24, X86.rbx, X86.rcx, 8⟩, .reg X86.rbx]⟩ := by
    have hrcx : σ X86.rcx = X86.rcx := hσ.fixed _ (by decide)
    have hrbx : σ ⟨2147483650⟩ = X86.rbx := hσ.assigned _ _ (by decide) (by decide) (by decide)
    show (⟨.mov, [.mem ⟨-24, σ ⟨2147483650⟩, σ X86.rcx, 8⟩, .reg (σ ⟨2147483650⟩)]⟩ :
      Instruction X86.Opcode) = _
    rw [hrcx, hrbx]
  refine ⟨f', frame, hlower, hreserved.trans (by decide), prologue, block, epilogue, ?_, ?_⟩
  · rw [hentries, hmove]
    rfl
  · exact hblock.length_eq.trans (by decide)

end MachineCode

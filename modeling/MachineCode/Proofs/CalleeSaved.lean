import MachineCode.Proofs.FrameEncoding
import MachineCode.Proofs.FrameExecution
import MachineCode.Proofs.SourceOrder

/-!
# Callee-saved registers

A compiled function gives back every callee-saved register with the value that it found there
(`Session.compile_preserves_calleeSaved`). There are two ways in which its code changes such a
register, and each has its own remedy:

* a virtual register lives there: then the register is one of those that the prologue saves and the
  epilogue restores (`TargetKind.exists_undone`);
* it is lent to a spilled register: then it comes back from its reserved slot behind the instruction
  (`BlockFor.kept`).

For the second remedy to work, nobody else may write the reserved slots, and for the first one
nobody may write the save area. The slots are below the frame pointer and the save area is above it,
so spill code does no harm to the save area (`Frame.Fits.not_inSlots`); the instructions of the
source are asked to keep clear of both (`Semantics.SparesFrame`).
-/

namespace MachineCode

open Machine

/-! ### What is asked of the machine and of the source -/

namespace Machine.Semantics

variable {Op : Type} (sem : Semantics Op) (t : Target Op)

/-- An instruction leaves every callee-saved register alone that it does not name, unless it is the
stack pointer. In particular, this is what a call does. -/
def SparesUnnamed (rf : RegisterFile) : Prop :=
  ∀ i s r, rf.isCalleeSaved r → r ≠ rf.stackPointer → r ∉ i.registers →
    (sem.exec i s).regs r = s.regs r

/-- Every instruction on the way that has one of the handles `own` leaves the frame pointer and the
bytes at the addresses `P` alone. -/
def SparesFrame (left : Handle → Register → Word) (own : List Handle) (P : Word → Prop) :
    List (Handle × Instruction Op) → State → Prop
  | [], _ => True
  | e :: rest, s =>
    (e.1 ∈ own →
      (sem.step t (left e.1) e.2 s).regs t.framePointer = s.regs t.framePointer ∧
        ∀ x, P x → (sem.step t (left e.1) e.2 s).mem x = s.mem x) ∧
      SparesFrame left own P rest (sem.step t (left e.1) e.2 s)

variable {sem t} {left : Handle → Register → Word} {own : List Handle} {P : Word → Prop}

/-- The second part of a piece of code starts from where the first one leads. -/
theorem sparesFrame_append {l₁ l₂ : List (Handle × Instruction Op)} {s : State} :
    sem.SparesFrame t left own P (l₁ ++ l₂) s ↔
      sem.SparesFrame t left own P l₁ s ∧
        sem.SparesFrame t left own P l₂ (sem.run t left l₁ s) := by
  induction l₁ generalizing s with
  | nil => simp only [List.nil_append, SparesFrame, true_and, run]
  | cons e rest ih => rw [List.cons_append, SparesFrame, SparesFrame, ih, and_assoc, run]

/-- Calls do not change callee-saved registers either, so a whole step leaves them alone. -/
theorem SparesUnnamed.regs_step (h : sem.SparesUnnamed t.toRegisterFile)
    (ht : t.toRegisterFile.Conventional) {i : Instruction Op} {r : Register}
    (hr : t.isCalleeSaved r) (hsp : r ≠ t.stackPointer) (hnamed : r ∉ i.registers)
    (w : Register → Word) (s : State) : (sem.step t w i s).regs r = s.regs r := by
  rw [regs_step_of_not fun _ hcaller ↦ ht.disjoint hcaller hr]
  exact h i s r hr hsp hnamed

/-- Instructions that leave the frame alone in every state do so on the way. -/
theorem sparesFrame_of_forall {l : List (Handle × Instruction Op)}
    (h : ∀ e ∈ l, e.1 ∈ own → ∀ s,
      (sem.step t (left e.1) e.2 s).regs t.framePointer = s.regs t.framePointer ∧
        (sem.step t (left e.1) e.2 s).mem = s.mem) (s : State) :
    sem.SparesFrame t left own P l s := by
  induction l generalizing s with
  | nil => trivial
  | cons e rest ih =>
    rw [List.forall_mem_cons] at h
    refine ⟨fun hown ↦ ?_, ih h.2 _⟩
    obtain ⟨hfp, hmem⟩ := h.1 hown s
    exact ⟨hfp, fun x _ ↦ congrFun hmem x⟩

/-- A register that no instruction writes has its value at the end, unless calls change it. -/
theorem regs_run {l : List (Handle × Instruction Op)} {r : Register}
    (hr : ¬ t.isCallerSaved r) (hconfined : ∀ e ∈ l, sem.Confined e.2)
    (hwrites : ∀ e ∈ l, r ∉ sem.writes e.2) (s : State) :
    (sem.run t left l s).regs r = s.regs r := by
  induction l generalizing s with
  | nil => rfl
  | cons e rest ih =>
    rw [List.forall_mem_cons] at hconfined hwrites
    rw [run, ih hconfined.2 hwrites.2, regs_step_of_not fun _ ↦ hr,
      hconfined.1.regs s r hwrites.1]

/-- An instruction that obeys the laws leaves a register alone that it does not name. -/
theorem Lawful.regs_of_unnamed {rs : List Register} {i : Instruction Op} (h : sem.Lawful rs i [])
    {r : Register} (hr : r ∉ i.registers) (s : State) : (sem.exec i s).regs r = s.regs r :=
  h.self_confined.regs s r fun hmem ↦ hr (by simpa using h.writes_subset r hmem)

end Machine.Semantics

/-- An instruction of RISC-V writes only registers that it names. -/
theorem RiscV.sparesUnnamed (symbol : String → Word) :
    (RiscV.semantics symbol).SparesUnnamed RiscV.registerFile := fun i s _ _ _ hnamed ↦
  (RiscV.lawful symbol (List.forall_mem_nil _) i []).regs_of_unnamed hnamed s

/-- On x86 the pushes and pops write the stack pointer, too, which they do not name. -/
theorem X86.sparesUnnamed (symbol : String → Word) :
    (X86.stackSemantics symbol).SparesUnnamed X86.registerFile := by
  intro i s r _ hsp hnamed
  simp only [stackSemantics]
  split
  · exact if_neg hsp
  · rename_i op _ hops
    have hdst : r ∉ State.destination op := by
      intro hmem
      refine hnamed ?_
      rw [Instruction.registers_eq, hops, List.flatMap_singleton]
      exact State.destination_subset hmem
    rw [State.regs_assign_of_not_mem _ hdst]
    exact if_neg hsp
  · exact (X86.lawful symbol (List.forall_mem_nil _) _ []).regs_of_unnamed hnamed s

/-! ### Blocks -/

/-- What the blocks of a function have to work with, where callee-saved registers are concerned. -/
structure Preserving {Op : Type} (sem : Semantics Op) (t : Target Op) (a : Allocation)
    (area : SpillArea) : Prop where
  target : t.Conforming
  moves : sem.MovesWords t fun r ↦ t.isCalleeSaved r
  unnamed : sem.SparesUnnamed t.toRegisterFile
  allocatable : ∀ r ∈ t.allocatable, r.isPhysical ∧ r ≠ t.framePointer
  slots : a.DistinctSlots
  fits : area.Fits
  spillCount : area.spillCount = a.spillCount

section Block

variable {Op : Type} {sem : Semantics Op} {t : Target Op} {a : Allocation} {area : SpillArea}
  {i : Instruction Op} {inUse implicit : List Register} {loans : List Loan} {reserved : Nat}

/-- The places that the code before an instruction stores to, and the code after it loads from, are
reserved slots. -/
theorem Loan.inSlots_dst (hlen : loans.length ≤ reserved) {x : Exchange}
    (hx : x ∈ exchanges area loans) {fp y : Word} (hy : InWord (offsetFrom fp x.dst) y) :
    area.InSlots fp reserved y := by
  obtain ⟨z, hz, rfl⟩ := List.mem_map.1 hx
  have hlt := (mem_of_mem_zipIdx hz).2
  exact Or.inr ⟨z.2 + 1, by omega, by omega, hy⟩

/-- The places that the code before an instruction loads from, and the code after it stores to, are
stack slots. -/
theorem Lends.inSlots_src (h : Lends t a i inUse i.spilled loans) (ha : a.DistinctSlots)
    (hcount : area.spillCount = a.spillCount) {x : Exchange}
    (hx : x ∈ Loan.exchanges area loans) {fp y : Word} (hy : InWord (offsetFrom fp x.src) y) :
    area.InSlots fp reserved y := by
  obtain ⟨z, hz, rfl⟩ := List.mem_map.1 hx
  have hmem := (Loan.mem_of_mem_zipIdx hz).1
  have hlt := ha.bounded _ _ (h.isVirtual hmem) (h.slot _ hmem)
  exact Or.inl ⟨z.1.slot, hcount ▸ hlt, hy⟩

/-- A register that is not lent is named with the lent registers put in only if it was named
before. -/
theorem Lends.mem_of_mem_substitute
    (h : Lends t a i (implicit ++ i.registers.filter (·.isPhysical)) i.spilled loans)
    (hphys : ∀ r ∈ t.allocatable, r.isPhysical) {r : Register}
    (hlent : r ∉ loans.map (·.scratch))
    (hr : r ∈ (i.mapRegisters (Loan.substitute loans)).registers) : r ∈ i.registers := by
  rw [Instruction.registers_mapRegisters ((h.renaming_substitute hphys).isAbsent_eq hphys)] at hr
  obtain ⟨q, hq, rfl⟩ := List.mem_map.1 hr
  by_cases hmem : q ∈ i.spilled
  · obtain ⟨x, hx, rfl⟩ := h.exists_loan hmem
    rw [h.substitute_vreg hx] at hlent
    exact absurd (List.mem_map_of_mem hx) hlent
  · rwa [h.substitute_of_not_mem hmem]

/-- What a piece of code keeps: the frame pointer, the bytes `P`, and the registers `R`. -/
structure Kept (t : Target Op) (P : Word → Prop) (R : Register → Prop) (s s' : State) : Prop where
  framePointer : s'.regs t.framePointer = s.regs t.framePointer
  mem : ∀ x, P x → s'.mem x = s.mem x
  regs : ∀ r, R r → s'.regs r = s.regs r

variable {P : Word → Prop} {R : Register → Prop}

theorem Kept.refl (s : State) : Kept t P R s s := ⟨rfl, fun _ _ ↦ rfl, fun _ _ ↦ rfl⟩

theorem Kept.trans {s s' s'' : State} (h : Kept t P R s s') (h' : Kept t P R s' s'') :
    Kept t P R s s'' where
  framePointer := h'.framePointer.trans h.framePointer
  mem x hx := (h'.mem x hx).trans (h.mem x hx)
  regs r hr := (h'.regs r hr).trans (h.regs r hr)

/-- The registers that are lent come back from their reserved slots, if the instruction in between
has left these alone. -/
theorem Lends.kept_of_exchanged {fp : Word} {s u w s' : State}
    (hlends : Lends t a i inUse i.spilled loans) (hset : Preserving sem t a area)
    (hlen : loans.length ≤ reserved) (hR : ∀ r, R r → t.isCalleeSaved r)
    (hP : ∀ x, P x → ¬ area.InSlots fp reserved x)
    (hbefore : ExchangedOn (fun r ↦ t.isCalleeSaved r) fp (Loan.exchanges area loans) s u)
    (hfp : w.regs t.framePointer = u.regs t.framePointer)
    (hmem : ∀ x, area.InSlots fp reserved x ∨ P x → w.mem x = u.mem x)
    (hregs : ∀ r, R r → r ∉ loans.map (·.scratch) → w.regs r = u.regs r)
    (hafter : ExchangedOn (fun r ↦ t.isCalleeSaved r) fp
      ((Loan.exchanges area loans).map Exchange.reverse) w s') : Kept t P R s s' := by
  have hstill : ∀ r ∉ loans.map (·.scratch), u.regs r = s.regs r ∧ s'.regs r = w.regs r := by
    intro r hr
    exact ⟨hbefore.regs r (by rwa [Loan.reg_exchanges]),
      hafter.regs r (by rwa [Exchange.reg_reverse, Loan.reg_exchanges])⟩
  refine ⟨?_, fun x hx ↦ ?_, fun r hr ↦ ?_⟩
  · have hfree : t.framePointer ∉ loans.map (·.scratch) := by
      intro hmem
      obtain ⟨x, hx, heq⟩ := List.mem_map.1 hmem
      exact (hset.allocatable _ (hlends.allocatable x hx)).2 heq
    rw [(hstill _ hfree).2, hfp, (hstill _ hfree).1]
  · rw [hafter.mem x, hmem x (Or.inr hx), hbefore.mem x]
    · exact fun y hy hin ↦ hP x hx (Loan.inSlots_dst hlen hy hin)
    · exact List.forall_mem_map.2 fun y hy hin ↦
        hP x hx (hlends.inSlots_src hset.slots hset.spillCount hy hin)
  · by_cases hlent : r ∈ loans.map (·.scratch)
    · rw [← Loan.reg_exchanges area] at hlent
      obtain ⟨x, hx, rfl⟩ := List.mem_map.1 hlent
      -- its value was stored in the reserved slot, which nothing has changed in between
      have hback : s'.regs x.reg = w.mem.load (offsetFrom fp x.dst) :=
        hafter.filled x.reverse (List.mem_map_of_mem hx) (hR _ hr)
      rw [hback, ← hbefore.stored x hx (hR _ hr)]
      exact Memory.load_congr fun y hy ↦ hmem y (Or.inl (Loan.inSlots_dst hlen hx hy))
    · rw [(hstill r hlent).2, hregs r hr hlent, (hstill r hlent).1]

variable {bound : Nat} {block : List (Handle × Instruction Op)} {own : List Handle}
  {left : Handle → Register → Word}

/-- **A block keeps the callee-saved registers** that its instruction does not name, the frame
pointer, and the bytes outside the slots that the instruction leaves alone. -/
theorem BlockFor.kept (hset : Preserving sem t a area) {h : Handle} (hown : h ∈ own)
    (hblock : BlockFor t a area bound reserved (h, i) block)
    (hR : ∀ r, R r → t.isCalleeSaved r ∧ r ≠ t.stackPointer ∧ r ∉ i.registers) {fp : Word}
    (hP : ∀ x, P x → ¬ area.InSlots fp reserved x) {s : State}
    (hfp : s.regs t.framePointer = fp)
    (hspares : sem.SparesFrame t left own (fun x ↦ area.InSlots fp reserved x ∨ P x) block s) :
    Kept t P R s (sem.run t left block s) := by
  obtain ⟨implicit, loans, before, after, -, hlends, hlen, hcode, rfl⟩ := hblock
  have hphys : ∀ r ∈ t.allocatable, r.isPhysical := fun r hr ↦ (hset.allocatable r hr).1
  have hind := hlends.independent_exchanges hset.allocatable hset.slots hset.fits hset.spillCount fp
  rw [Semantics.sparesFrame_append] at hspares
  obtain ⟨hfpw, hmemw⟩ := hspares.2.1 hown
  rw [Semantics.run_append, Semantics.run]
  have hbefore : ExchangedOn (fun r ↦ t.isCalleeSaved r) fp (Loan.exchanges area loans) s
      (sem.run t left before s) := by
    refine exchangedOn_run hset.target hset.moves hind ?_ hfp
    rw [hcode.before_eq, Loan.exchanges, List.flatMap_map]
    rfl
  have hfree : t.framePointer ∉ (Loan.exchanges area loans).map (·.reg) := by
    intro hmem
    obtain ⟨x, hx, heq⟩ := List.mem_map.1 hmem
    exact (hind.reg x hx).2 heq
  refine hlends.kept_of_exchanged hset hlen (fun r hr ↦ (hR r hr).1) hP hbefore hfpw hmemw ?_ ?_
  · intro r hr hlent
    obtain ⟨hcallee, hsp, hnamed⟩ := hR r hr
    exact hset.unnamed.regs_step hset.target.conventional hcallee hsp
      (fun hmem ↦ hnamed (hlends.mem_of_mem_substitute hphys hlent hmem)) _ _
  · refine exchangedOn_run hset.target hset.moves hind.reverse ?_ ?_
    · rw [hcode.after_eq, Loan.exchanges, List.map_map, List.flatMap_map]
      rfl
    · rw [hfpw, hbefore.regs _ hfree, hfp]

/-- **The body keeps them too**, one block after the other. -/
theorem kept_run (hset : Preserving sem t a area) {l : List (Handle × Instruction Op)}
    {blocks : List (List (Handle × Instruction Op))} (hown : ∀ e ∈ l, e.1 ∈ own)
    (hblocks : List.Forall₂ (fun e block ↦
      BlockFor t a area bound reserved (e.1, e.2.mapRegisters a.assigned) block) l blocks)
    (hR : ∀ r, R r → t.isCalleeSaved r ∧ r ≠ t.stackPointer ∧
      ∀ e ∈ l, r ∉ (e.2.mapRegisters a.assigned).registers) {fp : Word}
    (hP : ∀ x, P x → ¬ area.InSlots fp reserved x) {s : State}
    (hfp : s.regs t.framePointer = fp)
    (hspares : sem.SparesFrame t left own (fun x ↦ area.InSlots fp reserved x ∨ P x)
      blocks.flatten s) :
    Kept t P R s (sem.run t left blocks.flatten s) := by
  induction hblocks generalizing s with
  | nil => exact .refl s
  | @cons e block rest blocks hblock _ ih =>
    rw [List.flatten_cons, Semantics.sparesFrame_append] at hspares
    rw [List.flatten_cons, Semantics.run_append]
    have hfirst := hblock.kept hset (hown e (by simp))
      (fun r hr ↦ ⟨(hR r hr).1, (hR r hr).2.1, (hR r hr).2.2 e (by simp)⟩) hP hfp hspares.1
    refine hfirst.trans (ih (fun e he ↦ hown e (by simp [he])) (fun r hr ↦ ?_) ?_ hspares.2)
    · exact ⟨(hR r hr).1, (hR r hr).2.1, fun e he ↦ (hR r hr).2.2 e (by simp [he])⟩
    · exact hfirst.framePointer.trans hfp

end Block

/-! ### Frames of compiled functions -/

/-- The addresses in a frame at `fp` that nobody but spill code, prologue and epilogue may write:
the slots, and the save area. -/
def Frame.Protects (frame : Frame) (fp x : Word) : Prop :=
  (⟨frame.localBytes, frame.registerSize, frame.spillSlots⟩ : SpillArea).InSlots fp
    frame.reservedSlots x ∨ InWords fp (2 + frame.saved.length) x

/-- A word that ends below `fp` is apart from the words from `fp` on. -/
theorem Machine.InWord.not_inWords_of_below {fp x : Word} {d n : Nat} (hd : 8 ≤ d)
    (hn : d + 8 * n ≤ 18446744073709551616) (h : InWord (offsetFrom fp (-(d : Int))) x) :
    ¬ InWords fp n x := by
  rw [InWord, offsetFrom, BitVec.ofInt_neg, BitVec.ofInt_natCast] at h
  rw [InWords]
  bv_omega

/-- **The slots are apart from the save area.** -/
theorem Frame.Fits.not_inSlots {frame : Frame} (h : frame.Fits) (hsize : frame.registerSize = 8)
    {fp x : Word} (hx : InWords fp (2 + frame.saved.length) x) :
    ¬ (⟨frame.localBytes, frame.registerSize, frame.spillSlots⟩ : SpillArea).InSlots fp
      frame.reservedSlots x := by
  have hlt := h.size
  simp only [Frame.body, Frame.save, hsize, Unsigned32.bound] at hlt
  rintro (⟨n, hn, hin⟩ | ⟨n, hn, hn', hin⟩)
  · have hn' : n < frame.spillSlots := hn
    rw [SpillArea.slotAddress, SpillArea.slotOffset, Frame.spillOffset, hsize] at hin
    exact Machine.InWord.not_inWords_of_below (d := frame.localBytes + 8 * (n + 1)) (by omega)
      (by omega) (by exact_mod_cast hin) hx
  · rw [SpillArea.reservedAddress, SpillArea.reservedOffset, Frame.reservedOffset, hsize] at hin
    exact Machine.InWord.not_inWords_of_below (d := frame.localBytes + 8 * frame.spillSlots + 8 * n)
      (by omega) (by omega) (by exact_mod_cast hin) hx

/-- A callee-saved register in which no virtual register lives is not named after assignment, unless
it was named before. -/
theorem Allocation.mem_of_mem_assigned {Op : Type} {a : Allocation} {rf : RegisterFile}
    {i : Instruction Op} {r : Register} (hr : rf.isCalleeSaved r)
    (hunused : r ∉ a.usedCalleeSaved rf)
    (hmem : r ∈ (i.mapRegisters a.assigned).registers) : r ∈ i.registers := by
  rw [Instruction.registers_assigned] at hmem
  obtain ⟨q, hq, rfl⟩ := List.mem_map.1 hmem
  by_cases hv : q.isVirtual
  · rcases Allocation.assigned_cases (a := a) hv with ⟨hphys, hplace⟩ | hself
    · exact absurd (Allocation.mem_usedCalleeSaved.2 ⟨hphys, hr, q, hplace⟩) hunused
    · rwa [hself]
  · rwa [Allocation.assigned_of_not_isVirtual hv]

namespace TargetKind

variable (k : TargetKind) {sem : Semantics k.Opcode} {allocatable : List Register}

/-- The moves of spill code are executed, but of no use for a register that is hardwired. -/
theorem movesWords (hsem : k.Executes sem) (hphys : ∀ r ∈ allocatable, r.isPhysical) :
    sem.MovesWords (k.target.withAllocatable allocatable) fun r ↦ ¬ k.isHardwired r := by
  cases k with
  | x86 =>
    exact ⟨fun r hr offset s ↦ ⟨_, hsem.store r (hphys r hr) offset s, fun _ ↦ rfl⟩,
      fun r hr offset s ↦ ⟨_, hsem.load r (hphys r hr) offset s, fun _ ↦ rfl⟩⟩
  | riscV =>
    constructor
    · intro r hr offset s
      exact ⟨_, hsem.sd r (hphys r hr) RiscV.fp (by simp) offset s, fun hwired ↦
        if_neg fun hzero ↦ hwired (decide_eq_true hzero)⟩
    · intro r hr offset s
      have hload := hsem.ld r (hphys r hr) RiscV.fp (by simp) offset s
      by_cases hzero : r = RiscV.zero
      · rw [if_pos hzero] at hload
        exact ⟨_, hload.trans (State.set_self s r).symm, fun hwired ↦
          absurd (decide_eq_true hzero) hwired⟩
      · rw [if_neg hzero] at hload
        exact ⟨_, hload, fun _ ↦ rfl⟩

/-- A callee-saved register is not hardwired, so that its value can be restored. -/
theorem not_isHardwired_of_isCalleeSaved {r : Register} (hr : k.target.isCalleeSaved r) :
    ¬ k.isHardwired r := by
  cases k with
  | x86 => exact Bool.false_ne_true
  | riscV =>
    intro hwired
    cases of_decide_eq_true hwired
    exact absurd hr (by decide)

/-- The callee-saved registers of an allocation can be saved, if the stack pointer is not handed
out. -/
theorem saves_usedCalleeSaved {a : Allocation} {live : Liveness}
    (hsp : ∀ r ∈ allocatable, r ≠ k.target.stackPointer)
    (ha : a.Faithful (k.target.withAllocatable allocatable) live) :
    ∀ r ∈ a.usedCalleeSaved (k.target.withAllocatable allocatable).toRegisterFile,
      k.target.isCalleeSaved r ∧ r ≠ k.target.stackPointer := by
  intro r hr
  obtain ⟨hphys, hcallee, v, hv⟩ := Allocation.mem_usedCalleeSaved.1 hr
  have hmem := (ha.place v r hv).resolve_left (Register.not_isStackSlot_of_isPhysical hphys)
  exact ⟨hcallee, hsp r hmem⟩

/-- The blocks of a compiled function have what they need. -/
theorem preserving
    (hallocatable : ∀ r ∈ allocatable,
      r.isPhysical ∧ r ≠ k.target.stackPointer ∧ r ≠ k.target.framePointer)
    (hexec : k.Executes sem) (hunnamed : sem.SparesUnnamed k.target.toRegisterFile)
    {a : Allocation} (hslots : a.DistinctSlots) {frame : Frame} {total : Nat}
    (htotal : frame.totalBytes = .ok total) (hsize : frame.registerSize = 8)
    (hspill : frame.spillSlots = a.spillCount) :
    Preserving sem (k.target.withAllocatable allocatable) a
      ⟨frame.localBytes, frame.registerSize, frame.spillSlots⟩ := by
  have hmoves := k.movesWords hexec fun r hr ↦ (hallocatable r hr).1
  refine ⟨k.conforming allocatable, hmoves.mono fun r ↦ k.not_isHardwired_of_isCalleeSaved,
    hunnamed, fun r hr ↦ ⟨(hallocatable r hr).1, (hallocatable r hr).2.2⟩, hslots, ⟨hsize, ?_⟩,
    hspill⟩
  exact Nat.lt_of_le_of_lt (Nat.le_add_right _ _) (Frame.slots_lt_of_totalBytes htotal)

end TargetKind

/-! ### Compiled functions -/

/-- **The body keeps the save area and what is not saved.** The callee-saved registers in which
virtual registers live are saved, and the source names no others. -/
theorem kept_body {Op : Type} {sem : Semantics Op} {t : Target Op} {a : Allocation} {frame : Frame}
    (hset : Preserving sem t a ⟨frame.localBytes, frame.registerSize, frame.spillSlots⟩)
    (hfits : frame.Fits) (hsaved : frame.saved = a.usedCalleeSaved t.toRegisterFile)
    {l : List (Handle × Instruction Op)}
    (hnamed : ∀ e ∈ l, ∀ r ∈ e.2.registers, t.isCalleeSaved r →
      r = t.stackPointer ∨ r = t.framePointer)
    {blocks : List (List (Handle × Instruction Op))} {bound : Nat}
    (hblocks : List.Forall₂ (fun e block ↦
      BlockFor t a ⟨frame.localBytes, frame.registerSize, frame.spillSlots⟩ bound
        frame.reservedSlots (e.1, e.2.mapRegisters a.assigned) block) l blocks)
    {left : Handle → Register → Word} {s : State}
    (hspares : sem.SparesFrame t left (l.map (·.1)) (frame.Protects (s.regs t.framePointer))
      blocks.flatten s) :
    Kept t (InWords (s.regs t.framePointer) (2 + frame.saved.length))
      (fun r ↦ t.isCalleeSaved r ∧ r ≠ t.stackPointer ∧ r ≠ t.framePointer ∧ r ∉ frame.saved)
      s (sem.run t left blocks.flatten s) := by
  refine kept_run hset (fun e he ↦ List.mem_map_of_mem he) hblocks ?_
    (fun x hx ↦ hfits.not_inSlots hset.fits.registerSize hx) rfl hspares
  rintro r ⟨hcallee, hrsp, hrfp, hunsaved⟩
  refine ⟨hcallee, hrsp, fun e he hmem ↦ ?_⟩
  rw [hsaved] at hunsaved
  -- a callee-saved register that was not handed out is named by the source itself
  have hmem := Allocation.mem_of_mem_assigned hcallee hunsaved hmem
  exact (hnamed e he r hmem hcallee).elim hrsp hrfp

/-- What the body keeps and what the epilogue restores are together all callee-saved registers. -/
theorem Machine.Undone.calleeSaved {rf : RegisterFile} {address : State → Word}
    {saved : List Register} {s s₁ s₂ s₃ : State} (h : Undone rf address saved s s₂ s₃)
    (hprologue : ∀ r, rf.isCalleeSaved r → r ≠ rf.stackPointer → r ≠ rf.framePointer →
      s₁.regs r = s.regs r)
    (hbody : ∀ r, rf.isCalleeSaved r ∧ r ≠ rf.stackPointer ∧ r ≠ rf.framePointer ∧ r ∉ saved →
      s₂.regs r = s₁.regs r) {r : Register} (hr : rf.isCalleeSaved r) :
    s₃.regs r = s.regs r := by
  by_cases hsp : r = rf.stackPointer
  · exact hsp ▸ h.stackPointer
  by_cases hfp : r = rf.framePointer
  · exact hfp ▸ h.framePointer
  by_cases hmem : r ∈ saved
  · exact h.restored r hmem
  calc s₃.regs r = s₂.regs r := h.kept r hr hsp hfp hmem
    _ = s₁.regs r := hbody r ⟨hr, hsp, hfp, hmem⟩
    _ = s.regs r := hprologue r hr hsp hfp

/-- **Compiled functions preserve the callee-saved registers.** Let a function be built, on either
machine, by appending instructions that name no callee-saved register but the stack pointer and the
frame pointer. Let it be compiled, not as the entry function, with any list of physical registers to
hand out that leaves the two pointers alone. Then its code is a body between a prologue and an
epilogue, with the return at the end. Let it run from any state to the return, whatever its calls
leave in the caller-saved registers. If on the way the instructions of the source leave the frame
pointer, the slots and the save area alone, and the stack pointer is at the end of the body where it
was at its start, then at the return the stack pointer, the frame pointer, the return address and
every callee-saved register have the values that they had on entry.

The code runs from its first instruction to its last, so this is about code without jumps, branches
and other returns. -/
theorem Session.compile_preserves_calleeSaved (k : TargetKind) {allocatable : List Register}
    (hallocatable : ∀ r ∈ allocatable,
      r.isPhysical ∧ r ≠ k.target.stackPointer ∧ r ≠ k.target.framePointer) {name : String}
    {localBytes : Nat} {steps : List (BuildStep k.Opcode)} {f : Function k.Opcode}
    (hbuild : Function.build name localBytes steps = .ok f)
    (hnamed : ∀ e ∈ f.code.entries, ∀ r ∈ e.2.registers, k.target.isCalleeSaved r →
      r = k.target.stackPointer ∨ r = k.target.framePointer)
    {sem : Semantics k.Opcode} (hexec : k.Executes sem)
    (hunnamed : sem.SparesUnnamed k.target.toRegisterFile) {config : Config} {supply : Counter}
    (hentry : config.entryFunction ≠ some f.name) {compiled : Compiled k.Opcode}
    (hcompile : (compile ⟨k.target.withAllocatable allocatable, config, supply⟩ f).result =
      .ok compiled) :
    let t := k.target.withAllocatable allocatable
    ∃ prologue body epilogue handle,
      compiled.function.code.entries = prologue ++ body ++ epilogue ++ [(handle, k.ret)] ∧
      t.prologue compiled.frame = .ok (prologue.map (·.2)) ∧
      t.epilogue compiled.frame = .ok (epilogue.map (·.2) ++ [k.ret]) ∧
      ∀ (left : Handle → Register → Word) (s : State),
        let s₁ := sem.run t left prologue s
        let s₂ := sem.run t left body s₁
        let s₃ := sem.run t left epilogue s₂
        sem.SparesFrame t left f.code.handles (compiled.frame.Protects (s₁.regs t.framePointer))
          body s₁ →
        s₂.regs t.stackPointer = s₁.regs t.stackPointer →
        s₃.regs t.stackPointer = s.regs t.stackPointer ∧
          s₃.regs t.framePointer = s.regs t.framePointer ∧
          k.returnAddress s₃ = k.returnAddress s ∧
          ∀ r, t.isCalleeSaved r → s₃.regs r = s.regs r := by
  intro t
  have ht : t.Conforming := k.conforming allocatable
  obtain ⟨l, hrec⟩ := Function.recorded_of_build hbuild
  obtain ⟨halloc, -, prologue, blocks, epilogue, bound, total, hrep, hprologue, hepilogue, htotal,
    hlocal, hspill, hsize, -, hblocks⟩ := exists_lowered hrec.code hcompile
  have hfaithful := Liveness.faithful_of_allocate hrec.liveness ht.conventional halloc
  have hsaved : compiled.frame.saved = compiled.allocation.usedCalleeSaved t.toRegisterFile := by
    have hpreserves : config.preserves f.name = true := by simpa [Config.preserves] using hentry
    rw [Function.lower_frame hrec.code (compile_eq_ok hcompile).2]
    exact if_pos hpreserves
  have hsaves : k.Saves compiled.frame := by
    rw [TargetKind.Saves, hsaved]
    exact k.saves_usedCalleeSaved (fun r hr ↦ (hallocatable r hr).2.1) hfaithful
  have hsize' : compiled.frame.registerSize = 8 := hsize.trans ht.registerSize
  have hfits : compiled.frame.Fits :=
    ((Frame.totalBytes_eq_ok_iff (by omega)).1 htotal).1
  have harea : f.spillArea t compiled.allocation =
      ⟨compiled.frame.localBytes, compiled.frame.registerSize, compiled.frame.spillSlots⟩ := by
    rw [hlocal, hsize, hspill]
    rfl
  rw [harea] at hblocks
  have hset := k.preserving hallocatable hexec hunnamed hfaithful.slots htotal hsize' hspill
  obtain ⟨js, hjs, hundone⟩ := k.exists_undone hexec hfits hsaves hprologue
  obtain ⟨hcalls, hcalls'⟩ := k.not_isCall_enclosure hprologue hepilogue
  -- the return is the last instruction of the epilogue
  obtain ⟨epilogue, ret, rfl, rfl, hret⟩ := List.map_eq_append_iff.1
    (Except.ok.inj (hepilogue.symm.trans hjs))
  obtain ⟨⟨handle, i⟩, rfl, rfl⟩ := List.map_eq_singleton_iff.1 hret
  refine ⟨prologue, blocks.flatten, epilogue, handle, ?_, hprologue, ?_, ?_⟩
  · rw [hrep.entries_eq, List.append_assoc _ epilogue]
  · rw [hepilogue, List.map_append]
    rfl
  intro left s s₁ s₂ s₃ hspares hsp
  have hs₁ : s₁ = sem.execAll (prologue.map (·.2)) s :=
    Semantics.run_eq_execAll (t := t) hcalls s
  have hs₃ : s₃ = sem.execAll (epilogue.map (·.2)) s₂ := Semantics.run_eq_execAll (t := t)
    (fun i hi ↦ hcalls' i (by rw [List.map_append]; exact List.mem_append_left _ hi)) s₂
  rw [Code.handles, hrec.code.entries_eq] at hspares
  have hkept := kept_body hset hfits hsaved (hrec.code.entries_eq ▸ hnamed) hblocks hspares
  have hund := hundone s s₂ (hs₁ ▸ ⟨hsp, hkept.framePointer, hkept.mem⟩)
  rw [← hs₃] at hund
  refine ⟨hund.stackPointer, hund.framePointer, hund.returnAddress, fun r hr ↦
    hund.calleeSaved (fun r hr hrsp hrfp ↦ ?_) hkept.regs hr⟩
  rw [hs₁]
  exact k.regs_prologue hexec hfits hsaves hprologue hr hrsp hrfp s

/-- One register to hand out, two values across a call, and a frame that is set up in two steps: the
register is saved, lent and changed in the body, the call changes the return address register, and
at the return all is as it was on entry. All constants of the code can be encoded. -/
theorem Session.compile_preserves_calleeSaved_call :
    let t := RiscV.target.withAllocatable [RiscV.s1]
    let steps : List (BuildStep RiscV.Opcode) := [
      .append ⟨.li, [.reg ⟨2147483648⟩, .imm 1]⟩, .append ⟨.li, [.reg ⟨2147483649⟩, .imm 2]⟩,
      .callBoundary, .append ⟨.call, [.label "g", .imm 0]⟩,
      .append ⟨.mv, [.reg RiscV.a0, .reg ⟨2147483649⟩]⟩,
      .append ⟨.mv, [.reg RiscV.a1, .reg ⟨2147483648⟩]⟩]
    let sem := RiscV.semantics fun _ ↦ 0
    ∃ f compiled, Function.build "f" 2016 steps = .ok f ∧
      (compile ⟨t, {}, {}⟩ f).result = .ok compiled ∧ compiled.frame.saved = [RiscV.s1] ∧
      compiled.frame.reservedSlots = 1 ∧
      (∀ e ∈ compiled.function.code.entries, RiscV.Encodable e.2) ∧
      ∃ code handle, compiled.function.code.entries = code ++ [(handle, ⟨.ret, []⟩)] ∧
        ∀ (left : Handle → Register → Word) (s : State),
          (sem.run t left code s).regs RiscV.ra = s.regs RiscV.ra ∧
            ∀ r ∈ RiscV.registerFile.calleeSaved, (sem.run t left code s).regs r = s.regs r := by
  intro t steps sem
  let own : List (Handle × Instruction RiscV.Opcode) := [
    (0, ⟨.li, [.reg RiscV.s1, .imm 1]⟩), (1, ⟨.li, [.reg RiscV.s1, .imm 2]⟩),
    (2, ⟨.call, [.label "g", .imm 0]⟩), (3, ⟨.mv, [.reg RiscV.a0, .reg RiscV.s1]⟩),
    (4, ⟨.mv, [.reg RiscV.a1, .reg RiscV.s1]⟩)]
  let body := fun (c : Compiled RiscV.Opcode) ↦ (c.function.code.entries.drop 7).take 13
  have hsource : (Function.build "f" 2016 steps).toOption.map (fun f ↦
      (f.name, f.code.handles, f.code.entries.flatMap fun e ↦ e.2.registers.filter fun r ↦
        RiscV.target.isCalleeSaved r)) = some ("f", [0, 1, 2, 3, 4], []) := by decide
  have hframe : (Function.build "f" 2016 steps).toOption.map (fun f ↦
      (compile ⟨t, {}, {}⟩ f).result.toOption.map fun c ↦ c.frame) =
      some (some ⟨2016, 1, 1, [RiscV.s1], 8, 16⟩) := by decide
  have hbody : (Function.build "f" 2016 steps).toOption.map (fun f ↦
      (compile ⟨t, {}, {}⟩ f).result.toOption.map fun c ↦ (c.function.code.entries.length,
        (body c).flatMap fun e ↦ (sem.writes e.2).filter (· = RiscV.sp))) =
      some (some (26, [])) := by decide
  have hown : (Function.build "f" 2016 steps).toOption.map (fun f ↦
      (compile ⟨t, {}, {}⟩ f).result.toOption.map fun c ↦
        (body c).filter fun e ↦ [0, 1, 2, 3, 4].contains e.1) = some (some own) := by decide
  have hencodable : (Function.build "f" 2016 steps).toOption.map (fun f ↦
      (compile ⟨t, {}, {}⟩ f).result.toOption.map fun c ↦
        c.function.code.entries.all fun e ↦ RiscV.Encodable e.2) = some (some true) := by decide
  obtain ⟨f, hf, hsource⟩ := Option.map_eq_some_iff.1 hsource
  rw [hf] at hframe hbody hown hencodable
  obtain ⟨compiled, hcompile, hframe⟩ := Option.map_eq_some_iff.1 (Option.some.inj hframe)
  rw [Option.map_some, hcompile] at hbody hown hencodable
  rw [toOption_eq_some] at hf hcompile
  obtain ⟨hname, hsource⟩ := Prod.mk.inj hsource
  obtain ⟨hhandles, hnamed⟩ := Prod.mk.inj hsource
  obtain ⟨hlength, hbody⟩ := Prod.mk.inj (Option.some.inj (Option.some.inj hbody))
  have hown : (body compiled).filter (fun e ↦ [0, 1, 2, 3, 4].contains e.1) = own :=
    Option.some.inj (Option.some.inj hown)
  have hencodable : compiled.function.code.entries.all (fun e ↦ RiscV.Encodable e.2) = true :=
    Option.some.inj (Option.some.inj hencodable)
  simp only [List.all_eq_true, decide_eq_true_eq] at hencodable
  rw [List.flatMap_eq_nil_iff] at hnamed hbody
  have hentry : ({} : Config).entryFunction ≠ some f.name := by
    rw [hname]
    decide
  have hsource : ∀ e ∈ f.code.entries, ∀ r ∈ e.2.registers, RiscV.target.isCalleeSaved r →
      r = RiscV.sp ∨ r = RiscV.fp := fun e he r hr hcallee ↦
    absurd hcallee (List.filter_eq_nil_iff.1 (hnamed e he) r hr)
  let ret : Instruction RiscV.Opcode := ⟨.ret, []⟩
  obtain ⟨prologue, code, epilogue, handle, hcode, hprologue, hepilogue, hrestored⟩ :
      ∃ (prologue code epilogue : List (Handle × Instruction RiscV.Opcode)) (handle : Handle),
        compiled.function.code.entries = prologue ++ code ++ epilogue ++ [(handle, ret)] ∧
        t.prologue compiled.frame = .ok (prologue.map (·.2)) ∧
        t.epilogue compiled.frame = .ok (epilogue.map (·.2) ++ [ret]) ∧ _ :=
    compile_preserves_calleeSaved .riscV (by decide) hf hsource (RiscV.executes fun _ ↦ 0)
      (RiscV.sparesUnnamed _) hentry hcompile
  -- the body is what is left without the seven instructions before it and the six after it
  have hlen : prologue.length = 7 := by
    have h : (t.prologue compiled.frame).toOption.map (·.length) = some 7 := by
      rw [hframe]
      decide
    rw [hprologue] at h
    exact (List.length_map _).symm.trans (Option.some.inj h)
  have hlen' : epilogue.length = 5 := by
    have h : (t.epilogue compiled.frame).toOption.map (·.length) = some 6 := by
      rw [hframe]
      decide
    rw [hepilogue] at h
    have h : (epilogue.map (·.2) ++ [ret]).length = 6 := Option.some.inj h
    rw [List.length_append, List.length_map, List.length_singleton] at h
    omega
  have hcode' : body compiled = code := by
    rw [hcode] at hlength
    simp only [List.length_append, List.length_singleton, hlen, hlen'] at hlength
    show (compiled.function.code.entries.drop 7).take 13 = code
    rw [hcode, List.append_assoc, List.append_assoc, List.drop_left' hlen,
      List.take_left' (by omega)]
  rw [hcode'] at hbody hown
  refine ⟨f, compiled, hf, hcompile, by rw [hframe], by rw [hframe], hencodable,
    prologue ++ code ++ epilogue, handle, hcode, fun left s ↦ ?_⟩
  rw [Semantics.run_append, Semantics.run_append]
  have hspares : ∀ e ∈ code, e.1 ∈ f.code.handles → ∀ s,
      (sem.step t (left e.1) e.2 s).regs RiscV.fp = s.regs RiscV.fp ∧
        (sem.step t (left e.1) e.2 s).mem = s.mem := by
    intro e he hhandle s
    have hmem : e ∈ own := by
      rw [← hown, List.mem_filter, List.contains_iff_mem, ← hhandles]
      exact ⟨he, hhandle⟩
    simp only [own, List.mem_cons, List.not_mem_nil, or_false] at hmem
    rcases hmem with rfl | rfl | rfl | rfl | rfl <;> exact ⟨rfl, rfl⟩
  have hsp : ∀ e ∈ code, RiscV.sp ∉ sem.writes e.2 := fun e he hmem ↦
    List.filter_eq_nil_iff.1 (hbody e he) _ hmem (decide_eq_true rfl)
  obtain ⟨-, -, hra, hregs⟩ := hrestored left s (Semantics.sparesFrame_of_forall hspares _)
    (Semantics.regs_run (by decide) (fun e _ ↦ Semantics.confined_ofAssignments e.2) hsp _)
  exact ⟨hra, fun r hr ↦ hregs r (List.contains_iff_mem.2 hr)⟩

end MachineCode

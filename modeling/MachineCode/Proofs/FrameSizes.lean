import MachineCode.Proofs.Renaming
import MachineCode.Target.RiscV
import Mathlib.Algebra.Order.Group.Nat

/-!
# Frame sizes

The sizes of a frame are computed in words, step by step, and any step may leave the word. A frame
*fits* if its exact size, with room for one alignment, is a word (`Frame.Fits`). Then no step
faults, and all computed sizes are the exact ones; and the size of the whole frame can be computed
for no other frame (`Frame.totalBytes_eq_ok_iff`).

With the sizes at hand, the code that sets a frame up and takes it down is given as a plain list
for each machine (`X86.prologue_eq`, `RiscV.prologue_eq` and the same for the epilogues). It names
physical registers only.
-/

namespace MachineCode

namespace Frame

/-! ### Exact sizes -/

/-- The least multiple of `align` that is not below `value`. -/
def roundUp (value align : Nat) : Nat := (value + align - 1) / align * align

/-- A rounded size is large enough. -/
theorem le_roundUp {align : Nat} (h : 0 < align) (value : Nat) : value ≤ roundUp value align := by
  have hmod := Nat.mod_lt (value + align - 1) h
  have hdiv := Nat.div_add_mod' (value + align - 1) align
  rw [roundUp]
  omega

/-- A rounded size is too large by less than the alignment. -/
theorem roundUp_lt {align : Nat} (h : 0 < align) (value : Nat) :
    roundUp value align < value + align := by
  have hle := Nat.div_mul_le_self (value + align - 1) align
  rw [roundUp]
  omega

theorem dvd_roundUp (value align : Nat) : align ∣ roundUp value align :=
  Nat.dvd_mul_left align _

/-- The bytes below the frame pointer. -/
def body (f : Frame) : Nat := f.localBytes + f.registerSize * (f.spillSlots + f.reservedSlots)

/-- The bytes of the save area. -/
def save (f : Frame) : Nat := f.registerSize * (2 + f.saved.length)

/-- The bytes of the whole frame. -/
def total (f : Frame) : Nat := roundUp (f.body + f.save) f.alignment

/-- The bytes below the frame pointer with the padding. -/
def padded (f : Frame) : Nat := f.total - f.save

/-- The frame and one alignment more have sizes that are words. -/
structure Fits (f : Frame) : Prop where
  registerSize : 0 < f.registerSize
  alignment : isPowerOfTwo f.alignment
  size : f.body + f.save + f.alignment < Unsigned32.bound

/-- Rounding works on 32-bit words for powers of two; there it is `roundUp`. -/
theorem alignUp_eq_ok_iff {value align n : Nat} :
    alignUp value align = .ok n ↔
      isPowerOfTwo align ∧ value + align < Unsigned32.bound ∧ n = roundUp value align := by
  rw [alignUp]
  split
  · rename_i hpow
    rw [bind_eq_ok]
    constructor
    · rintro ⟨sum, hsum, hn⟩
      obtain ⟨hlt, rfl⟩ := Unsigned32.add_eq_ok_iff.1 hsum
      cases hn
      exact ⟨hpow, hlt, rfl⟩
    · rintro ⟨-, hlt, rfl⟩
      exact ⟨_, Unsigned32.add_eq_ok_iff.2 ⟨hlt, rfl⟩, rfl⟩
  · rename_i hpow
    exact iff_of_false nofun fun h ↦ hpow h.1

/-- The size of the body is computed if it is a 32-bit word. -/
theorem bodyBytes_eq_ok_iff {f : Frame} (hsize : 0 < f.registerSize) {n : Nat} :
    f.bodyBytes = .ok n ↔ f.body < Unsigned32.bound ∧ n = f.body := by
  have hslots := Nat.le_mul_of_pos_left (f.spillSlots + f.reservedSlots) hsize
  simp only [bodyBytes, bind_eq_ok, Unsigned32.add_eq_ok_iff, Unsigned32.mul_eq_ok_iff, body]
  constructor
  · rintro ⟨slots, ⟨-, rfl⟩, size, ⟨-, rfl⟩, hlt, rfl⟩
    exact ⟨hlt, rfl⟩
  · rintro ⟨hlt, rfl⟩
    exact ⟨_, ⟨by omega, rfl⟩, _, ⟨by omega, rfl⟩, hlt, rfl⟩

theorem saveBytes_eq_ok_iff {f : Frame} (hsize : 0 < f.registerSize) {n : Nat} :
    f.saveBytes = .ok n ↔ f.save < Unsigned32.bound ∧ n = f.save := by
  have hcount := Nat.le_mul_of_pos_left (2 + f.saved.length) hsize
  simp only [saveBytes, bind_eq_ok, Unsigned32.add_eq_ok_iff, Unsigned32.mul_eq_ok_iff, save]
  constructor
  · rintro ⟨count, ⟨-, rfl⟩, hlt, rfl⟩
    exact ⟨hlt, rfl⟩
  · rintro ⟨hlt, rfl⟩
    exact ⟨_, ⟨by omega, rfl⟩, hlt, rfl⟩

/-- **The size of a frame can be computed if and only if the frame fits**, and it is exact. -/
theorem totalBytes_eq_ok_iff {f : Frame} (hsize : 0 < f.registerSize) {n : Nat} :
    f.totalBytes = .ok n ↔ f.Fits ∧ n = f.total := by
  simp only [totalBytes, bind_eq_ok, bodyBytes_eq_ok_iff hsize, saveBytes_eq_ok_iff hsize,
    Unsigned32.add_eq_ok_iff, alignUp_eq_ok_iff]
  constructor
  · rintro ⟨_, ⟨-, rfl⟩, _, ⟨-, rfl⟩, _, ⟨-, rfl⟩, hpow, hlt, rfl⟩
    exact ⟨⟨hsize, hpow, hlt⟩, rfl⟩
  · rintro ⟨⟨-, hpow, hlt⟩, rfl⟩
    exact ⟨_, ⟨by omega, rfl⟩, _, ⟨by omega, rfl⟩, _, ⟨by omega, rfl⟩, hpow, hlt, rfl⟩

namespace Fits

variable {f : Frame} (h : f.Fits)

include h

theorem alignment_pos : 0 < f.alignment := by
  have hpow := h.alignment
  rw [isPowerOfTwo, Bool.and_eq_true, decide_eq_true_eq] at hpow
  exact Nat.pos_of_ne_zero hpow.1

theorem bodyBytes_eq : f.bodyBytes = .ok f.body := by
  have := h.size
  exact (bodyBytes_eq_ok_iff h.registerSize).2 ⟨by omega, rfl⟩

theorem saveBytes_eq : f.saveBytes = .ok f.save := by
  have := h.size
  exact (saveBytes_eq_ok_iff h.registerSize).2 ⟨by omega, rfl⟩

/-- The size of a frame that fits is computed, and exact. -/
theorem totalBytes_eq : f.totalBytes = .ok f.total :=
  (totalBytes_eq_ok_iff h.registerSize).2 ⟨h, rfl⟩

/-- The saved registers can be counted in a word. -/
theorem length_saved_lt : f.saved.length + 2 < Unsigned32.bound := by
  have hle := Nat.le_mul_of_pos_left (2 + f.saved.length) h.registerSize
  have hsize := h.size
  rw [save] at hsize
  omega

/-- The frame has room for the body and the save area. -/
theorem le_total : f.body + f.save ≤ f.total := le_roundUp h.alignment_pos _

theorem paddedBodyBytes_eq : f.paddedBodyBytes = .ok f.padded := by
  have hle := h.le_total
  refine bind_eq_ok.2 ⟨f.total, h.totalBytes_eq, bind_eq_ok.2 ⟨f.save, h.saveBytes_eq, ?_⟩⟩
  exact Unsigned32.sub_eq_ok_iff.2 ⟨by omega, rfl⟩

theorem alignUp_body : alignUp f.body f.alignment = .ok (roundUp f.body f.alignment) := by
  have := h.size
  exact alignUp_eq_ok_iff.2 ⟨h.alignment, by omega, rfl⟩

theorem alignUp_save : alignUp f.save f.alignment = .ok (roundUp f.save f.alignment) := by
  have := h.size
  exact alignUp_eq_ok_iff.2 ⟨h.alignment, by omega, rfl⟩

end Fits

end Frame

/-- When the frame of a function fits, on either machine. -/
theorem TargetKind.fits_frame_iff (k : TargetKind) {allocatable saved : List Register}
    {localBytes spills reserved : Nat} :
    ((k.target.withAllocatable allocatable).frame localBytes spills reserved saved).Fits ↔
      localBytes + 8 * (spills + reserved) + 8 * (2 + saved.length) + 16 < Nat.pow 2 32 := by
  have hsize : k.target.registerSize = 8 := by cases k <;> rfl
  have halign : k.target.stackAlignment = 16 := by cases k <;> rfl
  have hbound : Unsigned32.bound = Nat.pow 2 32 := by decide
  constructor
  · intro h
    have hlt : localBytes + k.target.registerSize * (spills + reserved) +
      k.target.registerSize * (2 + saved.length) + k.target.stackAlignment < _ := h.size
    rwa [hsize, halign, hbound] at hlt
  · intro h
    refine ⟨?_, ?_, ?_⟩
    · show 0 < k.target.registerSize
      omega
    · show Frame.isPowerOfTwo k.target.stackAlignment
      rw [halign]
      decide
    · show localBytes + k.target.registerSize * (spills + reserved) +
        k.target.registerSize * (2 + saved.length) + k.target.stackAlignment < _
      rwa [hsize, halign, hbound]

/-! ### Prologues and epilogues -/

namespace X86

variable {f : Frame}

/-- **The prologue on x86** pushes the saved registers and the frame pointer, sets the frame pointer
and makes room for the body, if there is one. -/
theorem prologue_eq (h : f.Fits) :
    prologue f = .ok (f.saved.map (fun r ↦ ⟨.push, [.reg r]⟩) ++
      [⟨.push, [.reg rbp]⟩, ⟨.mov, [.reg rsp, .reg rbp]⟩] ++
      if f.padded = 0 then [] else [⟨.sub, [.imm f.padded, .reg rsp]⟩]) :=
  bind_eq_ok.2 ⟨f.padded, h.paddedBodyBytes_eq, rfl⟩

/-- The epilogue reverses this, and returns. -/
theorem epilogue_eq (h : f.Fits) :
    epilogue f = .ok ((if f.padded = 0 then [] else [⟨.add, [.imm f.padded, .reg rsp]⟩]) ++
      [⟨.pop, [.reg rbp]⟩] ++ f.saved.reverse.map (fun r ↦ ⟨.pop, [.reg r]⟩) ++ [⟨.ret, []⟩]) :=
  bind_eq_ok.2 ⟨f.padded, h.paddedBodyBytes_eq, rfl⟩

end X86

namespace RiscV

variable {f : Frame}

/-- **The prologue on RISC-V** lowers the stack pointer in one step if the frame is small enough,
and otherwise in two, with the save area first. -/
theorem prologue_eq (h : f.Fits) :
    prologue f = .ok (if f.total ≤ maxAddiFrame then
      [addi sp sp (-f.total)] ++ transfer sd f.body f.saved ++ [addi fp sp f.body]
    else
      [addi sp sp (-Frame.roundUp f.save f.alignment)] ++ transfer sd 0 f.saved ++
        [addi fp sp 0, ⟨.li, [.reg t0, .imm (Frame.roundUp f.body f.alignment)]⟩,
          ⟨.sub, [.reg sp, .reg sp, .reg t0]⟩]) := by
  refine bind_eq_ok.2 ⟨f.total, h.totalBytes_eq, bind_eq_ok.2 ⟨f.body, h.bodyBytes_eq, ?_⟩⟩
  split
  · rfl
  · refine bind_eq_ok.2 ⟨f.save, h.saveBytes_eq, ?_⟩
    refine bind_eq_ok.2 ⟨_, h.alignUp_save, bind_eq_ok.2 ⟨_, h.alignUp_body, rfl⟩⟩

/-- The epilogue of a large frame goes back over the frame pointer. -/
theorem epilogue_eq (h : f.Fits) :
    epilogue f = .ok (if f.total ≤ maxAddiFrame then
      transfer ld f.body f.saved ++ [addi sp sp f.total, ⟨.ret, []⟩]
    else
      [addi sp fp 0] ++ transfer ld 0 f.saved ++
        [addi sp sp (Frame.roundUp f.save f.alignment), ⟨.ret, []⟩]) := by
  refine bind_eq_ok.2 ⟨f.total, h.totalBytes_eq, bind_eq_ok.2 ⟨f.body, h.bodyBytes_eq, ?_⟩⟩
  split
  · rfl
  · refine bind_eq_ok.2 ⟨f.save, h.saveBytes_eq, ?_⟩
    exact bind_eq_ok.2 ⟨_, h.alignUp_save, rfl⟩

end RiscV

/-! ### Instructions around a body -/

namespace X86

/-- The instructions that set a frame up and take it down, with the registers `saved`. -/
inductive Encloses (saved : List Register) : Instruction Opcode → Prop
  | push (r : Register) (hr : r ∈ rbp :: saved) : Encloses saved ⟨.push, [.reg r]⟩
  | pop (r : Register) (hr : r ∈ rbp :: saved) : Encloses saved ⟨.pop, [.reg r]⟩
  | mov : Encloses saved ⟨.mov, [.reg rsp, .reg rbp]⟩
  | sub (n : Int) : Encloses saved ⟨.sub, [.imm n, .reg rsp]⟩
  | add (n : Int) : Encloses saved ⟨.add, [.imm n, .reg rsp]⟩
  | ret : Encloses saved ⟨.ret, []⟩

variable {f : Frame} {is : List (Instruction Opcode)}

/-- The instructions of the prologue are of the few forms of `Encloses`. -/
theorem encloses_prologue (h : prologue f = .ok is) : ∀ i ∈ is, Encloses f.saved i := by
  obtain ⟨body, -, heq⟩ := bind_eq_ok.1 h
  cases heq
  simp only [List.forall_mem_append, List.forall_mem_map, List.forall_mem_cons]
  refine ⟨⟨fun r hr ↦ .push r (by simp [hr]), .push rbp (by simp), .mov, by simp⟩, ?_⟩
  split
  · simp
  · simpa using Encloses.sub _

theorem encloses_epilogue (h : epilogue f = .ok is) : ∀ i ∈ is, Encloses f.saved i := by
  obtain ⟨body, -, heq⟩ := bind_eq_ok.1 h
  cases heq
  simp only [List.forall_mem_append, List.forall_mem_map, List.forall_mem_cons, List.mem_reverse]
  refine ⟨⟨⟨?_, .pop rbp (by simp), by simp⟩, fun r hr ↦ .pop r (by simp [hr])⟩, .ret, by simp⟩
  split
  · simp
  · simpa using Encloses.add _

end X86

namespace RiscV

/-- The instructions that set a frame up and take it down, with the registers `saved`. -/
inductive Encloses (saved : List Register) : Instruction Opcode → Prop
  | addi (dst src : Register) (hdst : dst ∈ [sp, fp]) (hsrc : src ∈ [sp, fp]) (n : Int) :
    Encloses saved (addi dst src n)
  | sd (r : Register) (hr : r ∈ ra :: fp :: saved) (offset : Int) : Encloses saved (sd r offset sp)
  | ld (r : Register) (hr : r ∈ ra :: fp :: saved) (offset : Int) : Encloses saved (ld r offset sp)
  | li (n : Int) : Encloses saved ⟨.li, [.reg t0, .imm n]⟩
  | sub : Encloses saved ⟨.sub, [.reg sp, .reg sp, .reg t0]⟩
  | ret : Encloses saved ⟨.ret, []⟩

variable {f : Frame} {is : List (Instruction Opcode)}

/-- A transfer moves the return address, the frame pointer and the saved registers. -/
theorem encloses_transfer {op : Register → Int → Register → Instruction Opcode}
    (hop : ∀ r ∈ ra :: fp :: f.saved, ∀ offset, Encloses f.saved (op r offset sp)) (offset : Nat) :
    ∀ i ∈ transfer op offset f.saved, Encloses f.saved i := by
  intro i hi
  obtain ⟨⟨r, n⟩, hmem, rfl⟩ := List.mem_map.1 hi
  exact hop r (List.fst_mem_of_mem_zipIdx hmem) _

theorem encloses_prologue (h : prologue f = .ok is) : ∀ i ∈ is, Encloses f.saved i := by
  have hsd : ∀ offset, ∀ i ∈ transfer sd offset f.saved, Encloses f.saved i :=
    encloses_transfer Encloses.sd
  obtain ⟨total, -, h⟩ := bind_eq_ok.1 h
  obtain ⟨body, -, h⟩ := bind_eq_ok.1 h
  split at h
  · cases h
    simp only [List.forall_mem_append, List.forall_mem_singleton]
    exact ⟨⟨.addi sp sp (by simp) (by simp) _, hsd _⟩, .addi fp sp (by simp) (by simp) _⟩
  · obtain ⟨save, -, h⟩ := bind_eq_ok.1 h
    obtain ⟨save, -, h⟩ := bind_eq_ok.1 h
    obtain ⟨room, -, heq⟩ := bind_eq_ok.1 h
    cases heq
    simp only [List.forall_mem_append, List.forall_mem_cons]
    exact ⟨⟨⟨.addi sp sp (by simp) (by simp) _, by simp⟩, hsd _⟩,
      .addi fp sp (by simp) (by simp) _, .li _, .sub, by simp⟩

theorem encloses_epilogue (h : epilogue f = .ok is) : ∀ i ∈ is, Encloses f.saved i := by
  have hld : ∀ offset, ∀ i ∈ transfer ld offset f.saved, Encloses f.saved i :=
    encloses_transfer Encloses.ld
  obtain ⟨total, -, h⟩ := bind_eq_ok.1 h
  obtain ⟨body, -, h⟩ := bind_eq_ok.1 h
  split at h
  · cases h
    simp only [List.forall_mem_append, List.forall_mem_cons]
    exact ⟨hld _, .addi sp sp (by simp) (by simp) _, .ret, by simp⟩
  · obtain ⟨save, -, h⟩ := bind_eq_ok.1 h
    obtain ⟨save, -, heq⟩ := bind_eq_ok.1 h
    cases heq
    simp only [List.forall_mem_append, List.forall_mem_cons]
    exact ⟨⟨⟨.addi sp fp (by simp) (by simp) _, by simp⟩, hld _⟩,
      .addi sp sp (by simp) (by simp) _, .ret, by simp⟩

end RiscV

/-! ### Registers of the code that is added -/

/-- The operand names physical registers only. -/
def Operand.Physical (op : Operand) : Prop := ∀ x ∈ op.registers, x.2.isPhysical

namespace Operand

@[simp] theorem physical_reg {r : Register} (hr : r.isPhysical) : (reg r).Physical :=
  fun _ hx ↦ List.mem_singleton.1 (List.mem_filter.1 hx).1 ▸ hr

/-- An address with a physical base and no index names the base only. -/
@[simp] theorem physical_memory {base : Register} (hbase : base.isPhysical) (disp : Int) :
    (memory disp base).Physical := by
  intro x hx
  obtain ⟨hmem, hpresent⟩ := List.mem_filter.1 hx
  rcases List.mem_cons.1 hmem with rfl | hmem
  · exact hbase
  · cases List.mem_singleton.1 hmem
    cases hpresent

@[simp] theorem physical_imm (value : Int) : (imm value).Physical := nofun

end Operand

/-- The instruction names physical registers only. -/
def Instruction.Physical {Op : Type} (i : Instruction Op) : Prop := ∀ op ∈ i.operands, op.Physical

/-- What such an instruction names is physical. -/
theorem Instruction.Physical.isPhysical {Op : Type} {i : Instruction Op} (h : i.Physical)
    {r : Register} (hr : r ∈ i.registers) : r.isPhysical := by
  rw [registers_eq] at hr
  obtain ⟨op, hop, hr⟩ := List.mem_flatMap.1 hr
  obtain ⟨x, hx, rfl⟩ := List.mem_map.1 hr
  exact h op hop x hx

theorem Instruction.Physical.not_hasVirtual {Op : Type} {i : Instruction Op} (h : i.Physical) :
    ¬ i.hasVirtual := by
  rw [hasVirtual, List.any_eq_true]
  rintro ⟨r, hr, hv⟩
  exact Register.not_isVirtual_of_isPhysical (h.isPhysical hr) hv

/-- The code around a body on x86 names no other registers than physical ones. -/
theorem X86.Encloses.physical {saved : List Register} {i : Instruction X86.Opcode}
    (h : Encloses saved i) (hsaved : ∀ r ∈ saved, r.isPhysical) : i.Physical := by
  have hsp : rsp.isPhysical := by decide
  have hfp : rbp.isPhysical := by decide
  have hwords : ∀ r ∈ rbp :: saved, r.isPhysical := List.forall_mem_cons.2 ⟨hfp, hsaved⟩
  cases h with
  | push r hr => simp [Instruction.Physical, hwords r hr]
  | pop r hr => simp [Instruction.Physical, hwords r hr]
  | mov => simp [Instruction.Physical, hsp, hfp]
  | sub n => simp [Instruction.Physical, hsp]
  | add n => simp [Instruction.Physical, hsp]
  | ret => simp [Instruction.Physical]

theorem RiscV.Encloses.physical {saved : List Register} {i : Instruction RiscV.Opcode}
    (h : Encloses saved i) (hsaved : ∀ r ∈ saved, r.isPhysical) : i.Physical := by
  have hpointers : ∀ r ∈ [sp, fp], r.isPhysical := by decide
  have hsp : sp.isPhysical := by decide
  have ht0 : t0.isPhysical := by decide
  have hwords : ∀ r ∈ ra :: fp :: saved, r.isPhysical := by
    rw [List.forall_mem_cons, List.forall_mem_cons]
    exact ⟨by decide, by decide, hsaved⟩
  cases h with
  | addi dst src hdst hsrc n =>
    simp [Instruction.Physical, RiscV.addi, hpointers dst hdst, hpointers src hsrc]
  | sd r hr offset => simp [Instruction.Physical, RiscV.sd, hwords r hr, hsp]
  | ld r hr offset => simp [Instruction.Physical, RiscV.ld, hwords r hr, hsp]
  | li n => simp [Instruction.Physical, ht0]
  | sub => simp [Instruction.Physical, hsp, ht0]
  | ret => simp [Instruction.Physical]

namespace TargetKind

variable (k : TargetKind) {frame : Frame} {is js : List (Instruction k.Opcode)}

/-- A frame that fits has a prologue and an epilogue. -/
theorem exists_enclosure (h : frame.Fits) :
    ∃ is js, k.target.prologue frame = .ok is ∧ k.target.epilogue frame = .ok js := by
  cases k with
  | x86 => exact ⟨_, _, X86.prologue_eq h, X86.epilogue_eq h⟩
  | riscV => exact ⟨_, _, RiscV.prologue_eq h, RiscV.epilogue_eq h⟩

/-- Prologue and epilogue name physical registers only. -/
theorem physical_enclosure (hsaved : ∀ r ∈ frame.saved, r.isPhysical)
    (hprologue : k.target.prologue frame = .ok is) (hepilogue : k.target.epilogue frame = .ok js) :
    (∀ i ∈ is, i.Physical) ∧ ∀ i ∈ js, i.Physical := by
  cases k with
  | x86 =>
    exact ⟨fun i hi ↦ (X86.encloses_prologue hprologue i hi).physical hsaved,
      fun i hi ↦ (X86.encloses_epilogue hepilogue i hi).physical hsaved⟩
  | riscV =>
    exact ⟨fun i hi ↦ (RiscV.encloses_prologue hprologue i hi).physical hsaved,
      fun i hi ↦ (RiscV.encloses_epilogue hepilogue i hi).physical hsaved⟩

/-- Prologue and epilogue call nothing. -/
theorem not_isCall_enclosure (hprologue : k.target.prologue frame = .ok is)
    (hepilogue : k.target.epilogue frame = .ok js) :
    (∀ i ∈ is, k.target.isCall i = false) ∧ ∀ i ∈ js, k.target.isCall i = false := by
  cases k with
  | x86 =>
    have hcall : ∀ i, X86.Encloses frame.saved i → X86.target.isCall i = false := by
      intro i hi
      cases hi <;> rfl
    exact ⟨fun i hi ↦ hcall i (X86.encloses_prologue hprologue i hi),
      fun i hi ↦ hcall i (X86.encloses_epilogue hepilogue i hi)⟩
  | riscV =>
    have hcall : ∀ i, RiscV.Encloses frame.saved i → RiscV.target.isCall i = false := by
      intro i hi
      cases hi <;> rfl
    exact ⟨fun i hi ↦ hcall i (RiscV.encloses_prologue hprologue i hi),
      fun i hi ↦ hcall i (RiscV.encloses_epilogue hepilogue i hi)⟩

end TargetKind

/-- A machine whose frame moves name the moved register and physical ones only. -/
def Target.MovesPhysical {Op : Type} (t : Target Op) : Prop :=
  ∀ r offset, r.isPhysical → (t.store r offset).Physical ∧ (t.load offset r).Physical

/-- The moves of both machines name the frame pointer besides the register. -/
theorem TargetKind.movesPhysical (k : TargetKind) (allocatable : List Register) :
    (k.target.withAllocatable allocatable).MovesPhysical := by
  intro r offset hr
  cases k with
  | x86 =>
    have hfp : X86.rbp.isPhysical := by decide
    constructor
    · show (X86.store r offset).Physical
      simp [Instruction.Physical, X86.store, hr, hfp]
    · show (X86.load offset r).Physical
      simp [Instruction.Physical, X86.load, hr, hfp]
  | riscV =>
    have hfp : RiscV.fp.isPhysical := by decide
    constructor
    · show (RiscV.sd r offset RiscV.fp).Physical
      simp [Instruction.Physical, RiscV.sd, hr, hfp]
    · show (RiscV.ld r offset RiscV.fp).Physical
      simp [Instruction.Physical, RiscV.ld, hr, hfp]

end MachineCode

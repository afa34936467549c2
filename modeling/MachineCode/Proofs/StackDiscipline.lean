import MachineCode.Proofs.FrameLayout

/-!
# The stack pointer of a function

A prologue lowers the stack pointer by `TargetKind.depth`: the bytes from its place on entry down to
the frame pointer, and those from there down to the end of the body. They are counted in another way
in each of the three layouts, and all that they have in common is their remainder modulo sixteen
(`TargetKind.depth_mod`). It is the one that keeps the stack aligned: `0` where the return address
is in a register, and `8` where the call has pushed it.

With `TargetKind.exists_undone` this is what a caller relies on (`TargetKind.enclosure_balanced`).

Is the depth of the stack the size of the frame? It is where the frame is made in one step. In two
steps each part gets a padding of its own, so a frame can take one alignment more than its size
says (`TargetKind.Overruns`); `TargetKind.prologue_lowers_iff` tells when.
-/

namespace MachineCode

open Machine

/-- A step down by what exceeds a multiple of 16 is aligned. -/
theorem Machine.aligned_sub {w : Word} {n : Nat} (h : w.toNat % 16 = n % 16) :
    (w - BitVec.ofNat 64 n).toNat % 16 = 0 := by
  bv_omega

/-- Offsets of less than the whole memory are told apart by the addresses that they lead to. -/
theorem Machine.sub_ofNat_inj {w : Word} {m n : Nat} (hm : m < 2 ^ 64) (hn : n < 2 ^ 64) :
    w - BitVec.ofNat 64 m = w - BitVec.ofNat 64 n ↔ m = n := by
  constructor
  · intro h
    bv_omega
  · rintro rfl
    rfl

namespace TargetKind

/-- How far the prologue lowers the stack pointer. -/
def depth (k : TargetKind) (f : Frame) : Nat := k.above f + k.below f

/-- What the stack pointer is modulo sixteen when a function is entered. -/
def entryOffset : TargetKind → Nat
  | x86 => 8
  | riscV => 0

variable (k : TargetKind) {sem : Semantics k.Opcode} {frame : Frame}
  {is : List (Instruction k.Opcode)}

/-- The return address is part of the frame, but it is there on entry. -/
theorem depth_x86 (hfits : frame.Fits) (hsize : frame.registerSize = 8) :
    x86.depth frame + 8 = frame.total := by
  have hle := hfits.le_total
  have hsave : frame.save = 8 * (2 + frame.saved.length) := by rw [Frame.save, hsize]
  rw [depth, above, below, Frame.padded]
  omega

/-- Made in one step, the frame is rounded as a whole. -/
theorem depth_riscV_of_le (hfits : frame.Fits) (h : frame.total ≤ RiscV.maxAddiFrame) :
    riscV.depth frame = frame.total := by
  have hle := hfits.le_total
  rw [depth, above, below, RiscV.above, RiscV.below, if_pos h, if_pos h]
  omega

/-- Made in two steps, the save area and the body are rounded each on its own. -/
theorem depth_riscV_of_lt (h : RiscV.maxAddiFrame < frame.total) :
    riscV.depth frame =
      Frame.roundUp frame.save frame.alignment + Frame.roundUp frame.body frame.alignment := by
  rw [depth, above, below, RiscV.above, RiscV.below, if_neg (Nat.not_le.2 h),
    if_neg (Nat.not_le.2 h)]

/-- **Every layout keeps the alignment.** -/
theorem depth_mod (hfits : frame.Fits) (hsize : frame.registerSize = 8)
    (halign : frame.alignment = 16) : k.depth frame % 16 = k.entryOffset := by
  have htotal : 16 ∣ frame.total := halign ▸ Frame.dvd_roundUp _ _
  cases k with
  | x86 =>
    have hdepth := depth_x86 hfits hsize
    rw [entryOffset]
    omega
  | riscV =>
    rw [entryOffset]
    rcases Nat.lt_or_ge RiscV.maxAddiFrame frame.total with hlarge | hsmall
    · have hsave : 16 ∣ Frame.roundUp frame.save frame.alignment := halign ▸ Frame.dvd_roundUp _ _
      have hbody : 16 ∣ Frame.roundUp frame.body frame.alignment := halign ▸ Frame.dvd_roundUp _ _
      rw [depth_riscV_of_lt hlarge]
      omega
    · rw [depth_riscV_of_le hfits hsmall]
      omega

/-- The prologue lowers the stack pointer, on any machine that executes it. -/
theorem stackPointer_prologue (hsem : k.Executes sem) (hfits : frame.Fits)
    (hsaved : ∀ r ∈ frame.saved, k.target.isCalleeSaved r) (hnodup : frame.saved.Nodup)
    (h : k.target.prologue frame = .ok is) (s : State) :
    (sem.execAll is s).regs k.target.stackPointer =
      s.regs k.target.stackPointer - BitVec.ofNat 64 (k.depth frame) := by
  obtain ⟨v, -, hup⟩ := k.exists_setUp hsem hfits hsaved hnodup h s
  calc (sem.execAll is s).regs k.target.stackPointer
      = s.regs k.target.stackPointer - BitVec.ofNat 64 (k.above frame) -
          BitVec.ofNat 64 (k.below frame) := by rw [hup.stackPointer, hup.framePointer]
    _ = s.regs k.target.stackPointer - BitVec.ofNat 64 (k.depth frame) := by
        rw [depth, BitVec.ofNat_add]
        bv_omega

/-- **The epilogue undoes the prologue, and the stack stays aligned.** Let a frame of any size that
can be computed save any different callee-saved registers, but not the stack pointer. Then there are
a prologue and an epilogue, which ends in the return. On any machine that executes them, from any
state:

* if the stack pointer is what it is when a function is entered, modulo sixteen, then the prologue
  leaves it at a multiple of sixteen;
* whatever has run behind the prologue, if it has kept the two pointers and the words of the save
  area with the return address (those from the frame pointer up), then the epilogue brings back the
  two pointers, the return address and all the saved registers. -/
theorem enclosure_balanced (allocatable : List Register) {localBytes spills reserved total : Nat}
    {saved : List Register} (hsaved : ∀ r ∈ saved, k.target.isCalleeSaved r)
    (hsp : k.target.stackPointer ∉ saved) (hnodup : saved.Nodup)
    (htotal : ((k.target.withAllocatable allocatable).frame localBytes spills reserved
      saved).totalBytes = .ok total) (hsem : k.Executes sem) :
    let t := k.target.withAllocatable allocatable
    let frame := t.frame localBytes spills reserved saved
    let rf := k.target.toRegisterFile
    ∃ is js, t.prologue frame = .ok is ∧ t.epilogue frame = .ok (js ++ [k.ret]) ∧ ∀ s : State,
      ((s.regs rf.stackPointer).toNat % 16 = k.entryOffset →
        ((sem.execAll is s).regs rf.stackPointer).toNat % 16 = 0) ∧
      ∀ s₂, KeepsFrame rf (2 + saved.length) (sem.execAll is s) s₂ →
        Undone rf k.returnAddress saved s s₂ (sem.execAll js s₂) := by
  intro t frame rf
  have hsize : frame.registerSize = 8 := by cases k <;> rfl
  have halign : frame.alignment = 16 := by cases k <;> rfl
  have hfits : frame.Fits := ((Frame.totalBytes_eq_ok_iff (f := frame) (by omega)).1 htotal).1
  have hsaves : k.Saves frame := fun r hr ↦ ⟨hsaved r hr, fun heq ↦ hsp (heq ▸ hr)⟩
  obtain ⟨is, -, his, -⟩ := k.exists_enclosure hfits
  obtain ⟨js, hjs, hundone⟩ := k.exists_undone hsem hfits hsaves his
  refine ⟨is, js, his, hjs, fun s ↦ ⟨fun hentry ↦ ?_, hundone s⟩⟩
  have hdepth := k.depth_mod hfits hsize halign
  rw [k.stackPointer_prologue hsem hfits hsaved hnodup his s]
  exact aligned_sub (hentry.trans hdepth.symm)

/-- A frame that is made in two steps, around a body that overwrites both saved registers and the
return address. -/
theorem enclosure_balanced_overwritten :
    let t := RiscV.target.withAllocatable [RiscV.s1]
    let frame := t.frame 4097 1 1 [RiscV.s2, RiscV.s1]
    let sem := RiscV.semantics fun _ ↦ 0
    frame.totalBytes = .ok 4160 ∧ ∃ is js,
      t.prologue frame = .ok is ∧ t.epilogue frame = .ok (js ++ [⟨.ret, []⟩]) ∧ ∀ s : State,
        let s₃ := sem.execAll js (((sem.execAll is s).set RiscV.s1 0).set RiscV.ra 0)
        ((s.regs RiscV.sp).toNat % 16 = 0 →
          ((sem.execAll is s).regs RiscV.sp).toNat % 16 = 0) ∧
        ∀ r ∈ [RiscV.sp, RiscV.fp, RiscV.ra, RiscV.s1, RiscV.s2], s₃.regs r = s.regs r := by
  intro t frame sem
  have htotal : frame.totalBytes = .ok 4160 := by decide
  obtain ⟨is, js, his, hjs, hall⟩ := riscV.enclosure_balanced [RiscV.s1] (by decide) (by decide)
    (by decide) htotal (RiscV.executes fun _ ↦ 0)
  refine ⟨htotal, is, js, his, hjs, fun s ↦ ⟨(hall s).1, ?_⟩⟩
  have hundone := (hall s).2 (((sem.execAll is s).set RiscV.s1 0).set RiscV.ra 0)
    ⟨rfl, rfl, fun _ _ ↦ rfl⟩
  simp only [List.forall_mem_cons]
  exact ⟨hundone.stackPointer, hundone.framePointer, hundone.returnAddress,
    hundone.restored RiscV.s1 (by decide), hundone.restored RiscV.s2 (by decide), nofun⟩

/-! ### The size of the frame -/

/-- The frame takes one alignment more than its size: it is made in two steps, the save area ends in
the middle of sixteen bytes, and the body needs no more than the other half of its last sixteen. -/
def Overruns : TargetKind → Frame → Prop
  | x86, _ => False
  | riscV, f => RiscV.maxAddiFrame < f.total ∧ f.saved.length % 2 = 1 ∧
      0 < f.body % 16 ∧ f.body % 16 ≤ 8

instance : (k : TargetKind) → (f : Frame) → Decidable (k.Overruns f)
  | x86, _ => inferInstanceAs (Decidable False)
  | riscV, _ => inferInstanceAs (Decidable (_ ∧ _ ∧ _ ∧ _))

/-- Rounding the save area and the body apart, or both together. -/
theorem roundUp_parts (hsize : frame.registerSize = 8) (halign : frame.alignment = 16) :
    Frame.roundUp frame.save frame.alignment + Frame.roundUp frame.body frame.alignment =
      if frame.saved.length % 2 = 1 ∧ 0 < frame.body % 16 ∧ frame.body % 16 ≤ 8 then
        frame.total + 16
      else frame.total := by
  rw [Frame.total, halign, Frame.save, hsize]
  simp only [Frame.roundUp]
  split <;> omega

/-- **The depth is the size of the frame**, less what the call has pushed, but for a frame that
overruns. -/
theorem depth_add_entryOffset (hfits : frame.Fits) (hsize : frame.registerSize = 8)
    (halign : frame.alignment = 16) :
    k.depth frame + k.entryOffset = if k.Overruns frame then frame.total + 16 else frame.total := by
  cases k with
  | x86 => exact depth_x86 hfits hsize
  | riscV =>
    rcases Nat.lt_or_ge RiscV.maxAddiFrame frame.total with hlarge | hsmall
    · rw [entryOffset, Nat.add_zero, depth_riscV_of_lt hlarge, roundUp_parts hsize halign]
      simp only [Overruns, hlarge, true_and]
    · have hnot : ¬ riscV.Overruns frame := fun h ↦ Nat.not_lt.2 hsmall h.1
      rw [entryOffset, Nat.add_zero, depth_riscV_of_le hfits hsmall, if_neg hnot]

/-- **When the prologue lowers the stack pointer by the size of the frame.** Let a frame of any size
that can be computed save any different callee-saved registers. Then there is a prologue, and on any
machine that executes it, from any state, it lowers the stack pointer by the size of the frame, less
the return address that a call has pushed, if and only if the frame does not overrun. If it does,
then the stack pointer is lowered by sixteen bytes more. -/
theorem prologue_lowers_iff (allocatable : List Register) {localBytes spills reserved total : Nat}
    {saved : List Register} (hsaved : ∀ r ∈ saved, k.target.isCalleeSaved r) (hnodup : saved.Nodup)
    (htotal : ((k.target.withAllocatable allocatable).frame localBytes spills reserved
      saved).totalBytes = .ok total) (hsem : k.Executes sem) :
    let t := k.target.withAllocatable allocatable
    let frame := t.frame localBytes spills reserved saved
    let sp := k.target.stackPointer
    ∃ is, t.prologue frame = .ok is ∧ ∀ s : State,
      ((sem.execAll is s).regs sp = s.regs sp - BitVec.ofNat 64 (total - k.entryOffset) ↔
        ¬ k.Overruns frame) ∧
      (k.Overruns frame →
        (sem.execAll is s).regs sp = s.regs sp - BitVec.ofNat 64 (total + 16)) := by
  intro t frame sp
  have hsize : frame.registerSize = 8 := by cases k <;> rfl
  have halign : frame.alignment = 16 := by cases k <;> rfl
  obtain ⟨hfits, rfl⟩ := (Frame.totalBytes_eq_ok_iff (f := frame) (by omega)).1 htotal
  obtain ⟨is, -, his, -⟩ := k.exists_enclosure hfits
  refine ⟨is, his, fun s ↦ ?_⟩
  have hdepth := k.depth_add_entryOffset hfits hsize halign
  have hoffset : k.entryOffset ≤ 8 := by cases k <;> decide
  have hword : frame.total + 16 < 2 ^ 64 := by
    have hlt := Frame.roundUp_lt hfits.alignment_pos (frame.body + frame.save)
    have hbound := hfits.size
    rw [Unsigned32.bound] at hbound
    rw [Frame.total]
    omega
  rw [k.stackPointer_prologue hsem hfits hsaved hnodup his s]
  -- a frame that overruns is lowered by 16 bytes too many
  split at hdepth
  · rename_i hover
    have hzero : k.entryOffset = 0 := by
      cases k with
      | x86 => exact hover.elim
      | riscV => rfl
    refine ⟨iff_of_false (fun h ↦ ?_) (not_not_intro hover), fun _ ↦ by rw [← hdepth, hzero]; rfl⟩
    have heq := (sub_ofNat_inj (by omega) (by omega)).1 h
    omega
  · rename_i hnot
    have heq : k.depth frame = frame.total - k.entryOffset := by omega
    exact ⟨iff_of_true (by rw [heq]) hnot, fun hover ↦ absurd hover hnot⟩

/-- A frame that is made in two steps and does not overrun: the save area has room to spare, but the
body needs more than that. -/
theorem prologue_lowers_iff_padded :
    let t := RiscV.target.withAllocatable [RiscV.t0]
    let frame := t.frame 4001 1 0 [RiscV.s1]
    let sem := RiscV.semantics fun _ ↦ 0
    frame.totalBytes = .ok 4048 ∧ ∃ is, t.prologue frame = .ok is ∧ ∀ s : State,
      (sem.execAll is s).regs RiscV.sp = s.regs RiscV.sp - BitVec.ofNat 64 4048 := by
  intro t frame sem
  have htotal : frame.totalBytes = .ok 4048 := by decide
  obtain ⟨is, his, hall⟩ := riscV.prologue_lowers_iff [RiscV.t0] (by decide) (by decide) htotal
    (RiscV.executes fun _ ↦ 0)
  exact ⟨htotal, is, his, fun s ↦ (hall s).1.2 (by decide)⟩

end TargetKind

namespace RiscV

open TargetKind

/-- A frame that overruns: its size is `4032` bytes, and the prologue takes `4048`. -/
theorem prologue_overruns :
    let frame := target.frame 4008 0 0 [s1]
    let is := [addi sp sp (-32), sd ra 0 sp, sd fp 8 sp, sd s1 16 sp, addi fp sp 0,
      ⟨.li, [.reg t0, .imm 4016]⟩, ⟨.sub, [.reg sp, .reg sp, .reg t0]⟩]
    let sem := semantics fun _ ↦ 0
    frame.totalBytes = .ok 4032 ∧ target.prologue frame = .ok is ∧ ∀ s : State,
      (sem.execAll is s).regs sp = s.regs sp - BitVec.ofNat 64 4048 ∧
      (sem.execAll is s).regs sp ≠ s.regs sp - BitVec.ofNat 64 4032 := by
  intro frame is sem
  have hfits : frame.Fits := riscV.fits_frame_iff.2 (by decide)
  have his : target.prologue frame = .ok is := by decide
  have hdepth : riscV.depth frame = 4048 := by decide
  refine ⟨by decide, his, fun s ↦ ?_⟩
  have hlowered : (sem.execAll is s).regs sp = s.regs sp - BitVec.ofNat 64 4048 :=
    hdepth ▸ riscV.stackPointer_prologue (executes fun _ ↦ 0) hfits (by decide) (by decide) his s
  refine ⟨hlowered, fun h ↦ ?_⟩
  have heq := (sub_ofNat_inj (by decide) (by decide)).1 (hlowered.symm.trans h)
  exact absurd heq (by decide)

end RiscV

end MachineCode

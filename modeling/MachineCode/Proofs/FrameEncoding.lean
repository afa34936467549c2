import MachineCode.Proofs.FrameSizes
import Mathlib.Data.List.Perm.Subperm

/-!
# Constants in the code around a body

The machine RISC-V has twelve bits, with a sign, for the constant that `addi` adds and for the
displacement of `ld` and `sd`. A larger constant has no instruction.

A frame of at most `maxAddiFrame` bytes is made by one `addi`, so a frame of `2048` bytes still is:
the constant is negative, and `-2048` is in range. The constant that takes the frame down again is
`2048`, which is not. This is the only one out of range (`RiscV.enclosure_encodable_iff`): all other
constants of a small frame are less than its size, and those of a large frame are bounded by the
save area, since there are not many callee-saved registers.
-/

namespace MachineCode.RiscV

/-! ### Constants of twelve bits -/

/-- The numbers that have twelve bits, with a sign. -/
def IsImmediate (n : Int) : Prop := -2048 ≤ n ∧ n ≤ 2047

instance (n : Int) : Decidable (IsImmediate n) := inferInstanceAs (Decidable (_ ∧ _))

/-- The number that an operand adds to others: an immediate, or the displacement of an address. -/
def constant? : Operand → Option Int
  | .imm n => some n
  | .mem a => some a.disp
  | .reg _ => none
  | .label _ => none

/-- The constants of an instruction for which there are twelve bits. -/
def constants (i : Instruction Opcode) : List Int :=
  match i.opcode with
  | .addi | .ld | .sd => i.operands.filterMap constant?
  | _ => []

/-- The instruction has no constant that is out of range. -/
def Encodable (i : Instruction Opcode) : Prop := ∀ n ∈ constants i, IsImmediate n

instance (i : Instruction Opcode) : Decidable (Encodable i) :=
  inferInstanceAs (Decidable (∀ n ∈ constants i, IsImmediate n))

variable {n : Int}

theorem encodable_addi_iff {dst src : Register} :
    Encodable (addi dst src n) ↔ IsImmediate n := by
  simp [Encodable, constants, addi, constant?]

theorem encodable_sd {r base : Register} (h : IsImmediate n) : Encodable (sd r n base) := by
  simpa [Encodable, constants, sd, constant?, Operand.memory] using h

theorem encodable_ld {r base : Register} (h : IsImmediate n) : Encodable (ld r n base) := by
  simpa [Encodable, constants, ld, constant?, Operand.memory] using h

/-- The last of the displacements is the largest. -/
theorem encodable_transfer {op : Register → Int → Register → Instruction Opcode}
    (hop : ∀ {r n}, IsImmediate n → Encodable (op r n sp)) {offset : Nat} {saved : List Register}
    (h : offset + 8 * (saved.length + 1) ≤ 2047) :
    ∀ i ∈ transfer op offset saved, Encodable i := by
  intro i hi
  obtain ⟨⟨r, k⟩, hmem, rfl⟩ := List.mem_map.1 hi
  have hk := List.snd_lt_of_mem_zipIdx hmem
  simp only [List.length_cons] at hk
  refine hop ⟨?_, ?_⟩ <;> omega

/-! ### Frames -/

variable {f : Frame}

/-- There are thirteen callee-saved registers. -/
theorem length_saved_le (hsaved : ∀ r ∈ f.saved, registerFile.isCalleeSaved r)
    (hnodup : f.saved.Nodup) : f.saved.length ≤ 13 := by
  have hsub : f.saved ⊆ registerFile.calleeSaved := fun r hr ↦
    List.contains_iff_mem.1 (hsaved r hr)
  exact (hnodup.subperm hsub).length_le

theorem save_eq (hsize : f.registerSize = 8) : f.save = 8 * (f.saved.length + 2) := by
  rw [Frame.save, hsize]
  omega

/-- **The prologue can be encoded**: it only lowers the stack pointer, and by no more than `2048` in
one step. -/
theorem encodable_prologue (hfits : f.Fits) (hsize : f.registerSize = 8) (halign : f.alignment = 16)
    (hlen : f.saved.length ≤ 13) {is : List (Instruction Opcode)} (h : prologue f = .ok is) :
    ∀ i ∈ is, Encodable i := by
  cases (prologue_eq hfits).symm.trans h
  have hsave := save_eq hsize
  split
  · rename_i hsmall
    have htotal := hfits.le_total
    rw [maxAddiFrame] at hsmall
    simp only [List.forall_mem_append, List.forall_mem_singleton, encodable_addi_iff]
    exact ⟨⟨⟨by omega, by omega⟩, encodable_transfer encodable_sd (by omega)⟩, by omega, by omega⟩
  · have hroom := Frame.roundUp_lt hfits.alignment_pos f.save
    simp only [List.forall_mem_append, List.forall_mem_cons, encodable_addi_iff]
    exact ⟨⟨⟨⟨by omega, by omega⟩, nofun⟩, encodable_transfer encodable_sd (by omega)⟩,
      by decide, nofun, nofun, nofun⟩

/-- **The epilogue can be encoded, but for the step from a frame of `2048` bytes.** -/
theorem encodable_epilogue_iff (hfits : f.Fits) (hsize : f.registerSize = 8)
    (halign : f.alignment = 16) (hlen : f.saved.length ≤ 13) {js : List (Instruction Opcode)}
    (h : epilogue f = .ok js) :
    ((∀ i ∈ js, Encodable i) ↔ f.total ≠ 2048) ∧
      ∀ i ∈ js, ¬ Encodable i → i = addi sp sp 2048 := by
  cases (epilogue_eq hfits).symm.trans h
  have hsave := save_eq hsize
  split
  · rename_i hsmall
    have htotal := hfits.le_total
    rw [maxAddiFrame] at hsmall
    -- a small frame is taken down in one addition, whose constant may be one too large
    have hlast : Encodable (addi sp sp f.total) ↔ f.total ≠ 2048 := by
      rw [encodable_addi_iff, IsImmediate]
      omega
    have hloads : ∀ i ∈ transfer ld f.body f.saved, Encodable i :=
      encodable_transfer encodable_ld (by omega)
    simp only [List.forall_mem_append, List.forall_mem_cons, hlast]
    refine ⟨⟨fun h ↦ h.2.1, fun hne ↦ ⟨hloads, hne, nofun, nofun⟩⟩,
      fun i hi hnot ↦ absurd (hloads i hi) hnot, fun hout ↦ ?_, fun hnot ↦ absurd nofun hnot, nofun⟩
    rw [Decidable.not_not.1 hout]
    rfl
  · rename_i hlarge
    have hroom := Frame.roundUp_lt hfits.alignment_pos f.save
    have hall : ∀ i ∈ [addi sp fp 0] ++ transfer ld 0 f.saved ++
        [addi sp sp (Frame.roundUp f.save f.alignment), ⟨.ret, []⟩], Encodable i := by
      simp only [List.forall_mem_append, List.forall_mem_cons, encodable_addi_iff]
      exact ⟨⟨⟨by decide, nofun⟩, encodable_transfer encodable_ld (by omega)⟩,
        ⟨by omega, by omega⟩, nofun, nofun⟩
    refine ⟨iff_of_true hall fun heq ↦ ?_, fun i hi hnot ↦ absurd (hall i hi) hnot⟩
    rw [heq] at hlarge
    exact hlarge (Nat.le_refl _)

/-- **Which constants can be encoded.** Let a frame have words of eight bytes, an alignment of
sixteen bytes, any sizes that can be computed and any different callee-saved registers to save. Then
it has a prologue and an epilogue; every constant of the prologue has twelve bits; and so has every
constant of the epilogue, if and only if the size of the frame is not `2048`. In a frame of that
size the only constant out of range is the one that is added to the stack pointer. -/
theorem enclosure_encodable_iff {frame : Frame} (hsize : frame.registerSize = 8)
    (halign : frame.alignment = 16) {total : Nat} (htotal : frame.totalBytes = .ok total)
    (hsaved : ∀ r ∈ frame.saved, registerFile.isCalleeSaved r) (hnodup : frame.saved.Nodup) :
    ∃ is js, prologue frame = .ok is ∧ epilogue frame = .ok js ∧ (∀ i ∈ is, Encodable i) ∧
      ((∀ i ∈ js, Encodable i) ↔ total ≠ 2048) ∧
      ∀ i ∈ js, ¬ Encodable i → i = addi sp sp 2048 := by
  obtain ⟨hfits, rfl⟩ := (Frame.totalBytes_eq_ok_iff (by omega)).1 htotal
  have hlen := length_saved_le hsaved hnodup
  obtain ⟨is, js, his, hjs⟩ := TargetKind.riscV.exists_enclosure hfits
  exact ⟨is, js, his, hjs, encodable_prologue hfits hsize halign hlen his,
    encodable_epilogue_iff hfits hsize halign hlen hjs⟩

/-- A frame in two steps with the largest save area there is: all thirteen callee-saved registers
are saved. -/
theorem enclosure_encodable_iff_crowded :
    let frame : Frame := ⟨100000, 3, 2, registerFile.calleeSaved, 8, 16⟩
    frame.totalBytes = .ok 100160 ∧ ∃ is js, prologue frame = .ok is ∧ epilogue frame = .ok js ∧
      is.length = 19 ∧ (∀ i ∈ is, Encodable i) ∧ ∀ i ∈ js, Encodable i := by
  intro frame
  have htotal : frame.totalBytes = .ok 100160 := by decide
  obtain ⟨is, js, his, hjs, hencodable, hiff, -⟩ :=
    enclosure_encodable_iff (by rfl) (by rfl) htotal (by decide) (by decide)
  have hlength : (prologue frame).toOption.map (·.length) = some 19 := by decide
  rw [his] at hlength
  exact ⟨htotal, is, js, his, hjs, Option.some.inj hlength, hencodable, hiff.2 (by decide)⟩

/-- A frame of `2048` bytes: one instruction makes it, and no instruction takes it down. -/
theorem epilogue_out_of_range :
    let frame : Frame := ⟨2032, 0, 0, [], 8, 16⟩
    let js := [ld ra 2032 sp, ld fp 2040 sp, addi sp sp 2048, ⟨.ret, []⟩]
    frame.totalBytes = .ok 2048 ∧ epilogue frame = .ok js ∧ ¬ ∀ i ∈ js, Encodable i := by
  decide

end MachineCode.RiscV

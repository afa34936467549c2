import MachineCode.Proofs.FrameEncoding
import MachineCode.Proofs.FrameExecution
import MachineCode.Proofs.MeaningPreservation
import MachineCode.Proofs.SourceOrder
import Mathlib.Data.Int.ConditionallyCompleteOrder
import Mathlib.Order.CompletePartialOrder
import Mathlib.Order.ConditionallyCompleteLattice.Basic
import Mathlib.Order.Interval.Set.Basic

/-!
# The layout of a frame

Spill code works with the slots of a frame: the stack slots of the allocation, and the reserved
slots for what it borrows. They are the words right below the locals, one after the other, the stack
slots first (`Frame.offset_eq`). So no two of them overlap, and all of them lie between the locals
and the end of the body, whose size is computed only when it is known how many there are.

The prologue saves registers in the words from the frame pointer on, and leaves the stack pointer
below the body, whether it pushes the registers, makes the frame in one step or makes it in two
(`TargetKind.laidOut_prologue`). This is a matter of places and holds for any registers that are
saved, the stack pointer among them.

Both are put together for compiled functions in `Session.compile_lays_out_frame`.
-/

namespace MachineCode

open Machine

/-! ### Slots -/

namespace Frame

/-- A place for a register in the body of a frame: a stack slot, or a reserved slot, counted from
one. -/
inductive Slot where
  | spill (index : Nat)
  | reserved (nth : Nat)
  deriving DecidableEq

variable {f : Frame} {p q : Slot}

/-- The slots that a frame has. -/
def HasSlot (f : Frame) : Slot → Prop
  | .spill n => n < f.spillSlots
  | .reserved n => 1 ≤ n ∧ n ≤ f.reservedSlots

/-- The offset of a slot from the frame pointer. -/
def offset (f : Frame) : Slot → Int
  | .spill n => f.slotAt n
  | .reserved n => f.reservedAt n

/-- The offsets of the bytes of a slot. -/
def bytes (f : Frame) (p : Slot) : Set Int := Set.Ico (f.offset p) (f.offset p + 8)

/-- How many slots stand between a slot and the locals. -/
def rank (f : Frame) : Slot → Nat
  | .spill n => n
  | .reserved n => f.spillSlots + (n - 1)

/-- The rank of a slot is below the number of slots. -/
theorem rank_lt (h : f.HasSlot p) : f.rank p < f.spillSlots + f.reservedSlots := by
  cases p with
  | spill n => exact Nat.lt_add_right _ h
  | reserved n =>
    obtain ⟨hn, hn'⟩ := h
    rw [rank]
    omega

/-- Different slots have different ranks: the reserved slots come behind all stack slots. -/
theorem rank_ne (hp : f.HasSlot p) (hq : f.HasSlot q) (hne : p ≠ q) : f.rank p ≠ f.rank q := by
  cases p with
  | spill m =>
    cases q with
    | spill n => exact fun heq ↦ hne (congrArg Slot.spill heq)
    | reserved n => exact Nat.ne_of_lt (Nat.lt_add_right _ hp)
  | reserved m =>
    cases q with
    | spill n => exact Nat.ne_of_gt (Nat.lt_add_right _ hq)
    | reserved n =>
      obtain ⟨hm, -⟩ := hp
      obtain ⟨hn, -⟩ := hq
      intro heq
      simp only [rank] at heq
      exact hne (congrArg Slot.reserved (by omega))

/-- **The slots are consecutive words** below the locals. -/
theorem offset_eq (hsize : f.registerSize = 8) (h : f.HasSlot p) :
    f.offset p = -((f.localBytes : Int) + 8 * (f.rank p + 1)) := by
  cases p with
  | spill n =>
    rw [offset, slotAt, spillOffset, rank, hsize]
    rfl
  | reserved n =>
    obtain ⟨hn, -⟩ := h
    rw [offset, reservedAt, reservedOffset, rank, hsize]
    omega

/-- A slot is inside of the body, and outside of the locals. -/
theorem offset_bounds (hsize : f.registerSize = 8) (h : f.HasSlot p) :
    -(f.body : Int) ≤ f.offset p ∧ f.offset p + 8 ≤ -(f.localBytes : Int) := by
  have hrank := rank_lt h
  rw [offset_eq hsize h, body, hsize]
  omega

/-- The bytes of different slots are apart. -/
theorem disjoint_bytes (hsize : f.registerSize = 8) (hp : f.HasSlot p) (hq : f.HasSlot q)
    (hne : p ≠ q) : Disjoint (f.bytes p) (f.bytes q) := by
  have hrank := rank_ne hp hq hne
  rw [bytes, bytes, Set.disjoint_left]
  intro x hx hx'
  rw [Set.mem_Ico, offset_eq hsize hp] at hx
  rw [Set.mem_Ico, offset_eq hsize hq] at hx'
  omega

theorem strictAnti_slotAt (hsize : f.registerSize = 8) : StrictAnti f.slotAt := by
  intro m n hmn
  rw [slotAt, slotAt, spillOffset, spillOffset, hsize]
  omega

end Frame

/-! ### Moves of spill code -/

/-- The instruction moves a register to or from the place at `offset` from the frame pointer. -/
def Target.MovesAt {Op : Type} (t : Target Op) (offset : Int) (i : Instruction Op) : Prop :=
  ∃ r, (i = t.store r offset ∨ i = t.load offset r) ∧
    .memory offset t.framePointer ∈ i.operands

/-- Both machines move a register at the offset that they are given. -/
theorem TargetKind.movesAt (k : TargetKind) (allocatable : List Register) (r : Register)
    (offset : Int) :
    (k.target.withAllocatable allocatable).MovesAt offset (k.target.store r offset) ∧
      (k.target.withAllocatable allocatable).MovesAt offset (k.target.load offset r) := by
  cases k with
  | x86 =>
    exact ⟨⟨r, .inl rfl, List.mem_cons_of_mem _ (List.mem_singleton_self _)⟩,
      ⟨r, .inr rfl, List.mem_cons_self⟩⟩
  | riscV =>
    exact ⟨⟨r, .inl rfl, List.mem_cons_of_mem _ (List.mem_singleton_self _)⟩,
      ⟨r, .inr rfl, List.mem_cons_of_mem _ (List.mem_singleton_self _)⟩⟩

/-- **Spill code moves registers to and from the slots of the frame**, and does nothing else. -/
theorem BlockFor.movesAt (k : TargetKind) {allocatable : List Register} {a : Allocation}
    (ha : a.DistinctSlots) {frame : Frame} (hspill : frame.spillSlots = a.spillCount) {bound : Nat}
    {e : Handle × Instruction k.Opcode} {block : List (Handle × Instruction k.Opcode)}
    (h : BlockFor (k.target.withAllocatable allocatable) a
      ⟨frame.localBytes, frame.registerSize, frame.spillSlots⟩ bound frame.reservedSlots e block) :
    ∃ before i after, block = before ++ (e.1, i) :: after ∧ ∀ x ∈ before ++ after,
      ∃ p, frame.HasSlot p ∧
        (k.target.withAllocatable allocatable).MovesAt (frame.offset p) x.2 := by
  obtain ⟨implicit, loans, before, after, -, hlends, hlen, hcode, rfl⟩ := h
  have hloan : ∀ x ∈ loans.zipIdx,
      frame.HasSlot (.spill x.1.slot) ∧ frame.HasSlot (.reserved (x.2 + 1)) := by
    intro x hx
    have hmem := List.fst_mem_of_mem_zipIdx hx
    have hlt := List.snd_lt_of_mem_zipIdx hx
    refine ⟨?_, by omega, by omega⟩
    show x.1.slot < frame.spillSlots
    rw [hspill]
    exact ha.bounded _ _ (hlends.isVirtual hmem) (hlends.slot x.1 hmem)
  refine ⟨before, _, after, rfl, fun y hy ↦ ?_⟩
  rcases List.mem_append.1 hy with hy | hy
  -- in front: the lent register goes to its reserved slot, the spilled one comes from its slot
  · have hmem := List.mem_map_of_mem (f := (·.2)) hy
    rw [hcode.before_eq, List.mem_flatMap] at hmem
    obtain ⟨x, hx, hmem⟩ := hmem
    rcases List.mem_cons.1 hmem with heq | hmem
    · rw [heq]
      exact ⟨_, (hloan x hx).2, (k.movesAt allocatable x.1.scratch _).1⟩
    · rw [List.mem_singleton.1 hmem]
      exact ⟨_, (hloan x hx).1, (k.movesAt allocatable x.1.scratch _).2⟩
  · have hmem := List.mem_map_of_mem (f := (·.2)) hy
    rw [hcode.after_eq, List.mem_flatMap] at hmem
    obtain ⟨x, hx, hmem⟩ := hmem
    rcases List.mem_cons.1 hmem with heq | hmem
    · rw [heq]
      exact ⟨_, (hloan x hx).1, (k.movesAt allocatable x.1.scratch _).1⟩
    · rw [List.mem_singleton.1 hmem]
      exact ⟨_, (hloan x hx).2, (k.movesAt allocatable x.1.scratch _).2⟩

/-! ### Frames that are set up -/

/-- A register that is saved is in one of the words. -/
theorem Machine.Memory.Saved.exists_load {m : Memory} {base : Word} {rs : List Register}
    {v : Register → Word} (h : m.Saved base rs v) {r : Register} (hr : r ∈ rs) :
    ∃ n < rs.length, m.load (base + BitVec.ofNat 64 (8 * n)) = v r := by
  induction rs generalizing base with
  | nil => cases hr
  | cons q rs ih =>
    rcases List.mem_cons.1 hr with rfl | hr
    · exact ⟨0, Nat.zero_lt_succ _, (congrArg m.load (BitVec.add_zero base)).trans h.1⟩
    · obtain ⟨n, hn, hload⟩ := ih h.2 hr
      refine ⟨n + 1, Nat.succ_lt_succ hn, ?_⟩
      rw [← hload]
      exact congrArg m.load (by bv_omega)

/-- The offset of an address from the frame pointer. -/
def Machine.offsetOf (fp x : Word) : Int := (x - fp).toInt

/-- Addresses a little above the frame pointer have positive offsets. -/
theorem Machine.offsetOf_add {fp : Word} {n : Nat} (hn : n < 9223372036854775808) :
    offsetOf fp (fp + BitVec.ofNat 64 n) = n := by
  have hnat : (fp + BitVec.ofNat 64 n - fp).toNat = n := by bv_omega
  rw [offsetOf, BitVec.toInt_eq_toNat_cond, hnat, if_pos (by omega)]

/-- Addresses a little below it have negative ones. -/
theorem Machine.offsetOf_sub {fp : Word} {n : Nat} (hn : n < 9223372036854775808) :
    offsetOf fp (fp - BitVec.ofNat 64 n) = -n := by
  have hnat : (fp - BitVec.ofNat 64 n - fp).toNat = (18446744073709551616 - n) %
      18446744073709551616 := by bv_omega
  rw [offsetOf, BitVec.toInt_eq_toNat_cond, hnat]
  split <;> omega

theorem Machine.InWords.offsetOf_nonneg {fp x : Word} {n : Nat} (hn : 8 * n < 9223372036854775808)
    (h : InWords fp n x) : 0 ≤ offsetOf fp x := by
  rw [InWords] at h
  rw [offsetOf, BitVec.toInt_eq_toNat_cond, if_pos (by omega)]
  exact Int.natCast_nonneg _

namespace TargetKind

/-- The bytes from the frame pointer up to the stack pointer on entry. -/
def above : TargetKind → Frame → Nat
  | x86, f => 8 * (f.saved.length + 1)
  | riscV, f => RiscV.above f

/-- The bytes from the stack pointer up to the frame pointer. -/
def below : TargetKind → Frame → Nat
  | x86, f => f.padded
  | riscV, f => RiscV.below f

/-- The registers in the words from the frame pointer on. -/
def words : TargetKind → Frame → List Register
  | x86, f => X86.rbp :: f.saved.reverse
  | riscV, f => RiscV.ra :: RiscV.fp :: f.saved

/-- In the state `s₁` the frame is laid out, for a function that was entered in the state `s`: the
stack pointer is below the body, and the frame pointer below all that was saved. What is saved of
the stack pointer is not its value on entry, but it is among what was written. -/
structure LaidOut (k : TargetKind) (frame : Frame) (s s₁ : State) : Prop where
  stackPointer : offsetOf (s₁.regs k.target.framePointer) (s₁.regs k.target.stackPointer) ≤
    -(frame.body : Int)
  returnAddress : ∃ x, 0 ≤ offsetOf (s₁.regs k.target.framePointer) x ∧
    s₁.mem.load x = k.returnAddress s
  saved : ∀ r ∈ k.target.framePointer :: frame.saved, r ≠ k.target.stackPointer →
    ∃ x, 0 ≤ offsetOf (s₁.regs k.target.framePointer) x ∧ s₁.mem.load x = s.regs r
  written : ∀ x, s₁.mem x ≠ s.mem x → 0 ≤ offsetOf (s₁.regs k.target.framePointer) x

variable (k : TargetKind) {sem : Semantics k.Opcode} {frame : Frame}
  {is : List (Instruction k.Opcode)}

/-- The room below the frame pointer is enough for the body. -/
theorem body_le_below (h : frame.Fits) : frame.body ≤ k.below frame := by
  have htotal := h.le_total
  cases k with
  | x86 =>
    rw [below, Frame.padded]
    omega
  | riscV =>
    rw [below, RiscV.below]
    split
    · exact Nat.le_refl _
    · exact Frame.le_roundUp h.alignment_pos _

/-- The room below the frame pointer is a 32-bit word. -/
theorem below_lt (h : frame.Fits) : k.below frame < Unsigned32.bound := by
  have hsize := h.size
  cases k with
  | x86 =>
    have hlt := Frame.roundUp_lt h.alignment_pos (frame.body + frame.save)
    rw [below, Frame.padded, Frame.total]
    omega
  | riscV =>
    have hlt := Frame.roundUp_lt h.alignment_pos frame.body
    rw [below, RiscV.below]
    split <;> omega

theorem length_words (frame : Frame) : (k.words frame).length ≤ frame.saved.length + 2 := by
  cases k with
  | x86 => simp [words]
  | riscV => exact Nat.le_refl _

/-- The words hold the frame pointer and all saved registers. -/
theorem mem_words {r : Register} (hr : r ∈ k.target.framePointer :: frame.saved) :
    r ∈ k.words frame := by
  cases k with
  | x86 =>
    rw [words, List.mem_cons, List.mem_reverse]
    exact List.mem_cons.1 hr
  | riscV => exact List.mem_cons_of_mem _ hr

/-- **The prologue sets the frame up**, whatever callee-saved registers it saves. -/
theorem exists_setUp (hsem : k.Executes sem) (hfits : frame.Fits)
    (hsaved : ∀ r ∈ frame.saved, k.target.isCalleeSaved r) (hnodup : frame.saved.Nodup)
    (h : k.target.prologue frame = .ok is) (s : State) :
    ∃ v : Register → Word, (∀ r, r ≠ k.target.stackPointer → v r = s.regs r) ∧
      SetUp k.target.toRegisterFile (k.above frame) (k.below frame) (k.words frame) v s
        (sem.execAll is s) := by
  have hphys : ∀ r ∈ frame.saved, r.isPhysical := fun r hr ↦
    (k.conventional []).physical_of_callee (hsaved r hr)
  cases k with
  | x86 =>
    exact X86.exists_setUp hsem hfits hphys (List.nodup_iff_count_le_one.1 hnodup X86.rsp) h s
  | riscV =>
    refine RiscV.exists_setUp hsem hfits (fun r hr ↦ ⟨hphys r hr, ?_⟩) h s
    rintro rfl
    exact absurd (hsaved _ hr) (by decide)

/-- The return address is in a word that is saved, or in the word above those, which nobody writes.
-/
theorem exists_returnAddress {v : Register → Word} {s s₁ : State} (hfits : frame.Fits)
    (hv : ∀ r, r ≠ k.target.stackPointer → v r = s.regs r)
    (h : SetUp k.target.toRegisterFile (k.above frame) (k.below frame) (k.words frame) v s s₁) :
    ∃ n ≤ frame.saved.length + 1,
      s₁.mem.load (s₁.regs k.target.framePointer + BitVec.ofNat 64 (8 * n)) =
        k.returnAddress s := by
  have hlen := hfits.length_saved_lt
  simp only [Unsigned32.bound] at hlen
  cases k with
  -- the call has pushed it, so it lies above the words of the prologue, which spare it
  | x86 =>
    refine ⟨frame.saved.length + 1, Nat.le_refl _, ?_⟩
    have hentry : s₁.regs X86.rbp + BitVec.ofNat 64 (8 * (frame.saved.length + 1)) =
        s.regs X86.rsp := by
      have hfp : s₁.regs X86.rbp = s.regs X86.rsp - _ := h.framePointer
      rw [hfp]
      exact BitVec.sub_add_cancel _ _
    show s₁.mem.load (s₁.regs X86.rbp + _) = s.mem.load (s.regs X86.rsp)
    rw [← hentry]
    refine Memory.load_congr fun x hx ↦ h.saves.other x ?_
    have hlength : (words x86 frame).length = frame.saved.length + 1 := by simp [words]
    rw [hlength]
    exact hx.not_inWords (by omega)
  -- the prologue saves it itself, in the lowest word
  | riscV =>
    refine ⟨0, Nat.zero_le _, ?_⟩
    have hload : s₁.mem.load (s₁.regs RiscV.fp) = v RiscV.ra := h.saves.saved.1
    exact (congrArg s₁.mem.load (BitVec.add_zero _)).trans (hload.trans (hv RiscV.ra (by decide)))

/-- **The prologue lays the frame out.** -/
theorem laidOut_prologue (hsem : k.Executes sem) (hfits : frame.Fits)
    (hsaved : ∀ r ∈ frame.saved, k.target.isCalleeSaved r) (hnodup : frame.saved.Nodup)
    (h : k.target.prologue frame = .ok is) (s : State) :
    k.LaidOut frame s (sem.execAll is s) := by
  obtain ⟨v, hv, hup⟩ := k.exists_setUp hsem hfits hsaved hnodup h s
  have hlen := hfits.length_saved_lt
  have hwords := k.length_words frame
  have hbelow := k.below_lt hfits
  have hbody := k.body_le_below hfits
  simp only [Unsigned32.bound] at hlen hbelow
  constructor
  · rw [hup.stackPointer, offsetOf_sub (by omega)]
    omega
  · obtain ⟨n, hn, hload⟩ := k.exists_returnAddress hfits hv hup
    refine ⟨_, ?_, hload⟩
    rw [offsetOf_add (by omega)]
    exact Int.natCast_nonneg _
  · intro r hr hne
    obtain ⟨n, hn, hload⟩ := hup.saves.saved.exists_load (k.mem_words hr)
    refine ⟨_, ?_, hload.trans (hv r hne)⟩
    rw [offsetOf_add (by omega)]
    exact Int.natCast_nonneg _
  -- a byte that has changed belongs to a saved word, and these are not below the frame pointer
  · intro x hx
    by_contra hneg
    refine hx (hup.saves.other x fun hin ↦ hneg (hin.offsetOf_nonneg (by omega)))

end TargetKind

/-! ### Frames of compiled functions -/

/-- What is saved are different callee-saved registers. -/
theorem Function.saved_of_lower {Op : Type} {t : Target Op} {a : Allocation}
    {f f' : Function Op} {preserve : Bool} {frame : Frame} {l : List (Handle × Instruction Op)}
    (hl : f.code.Represents l) (h : (f.lower t a preserve).result = .ok (f', frame)) :
    (∀ r ∈ frame.saved, t.isCalleeSaved r) ∧ frame.saved.Nodup := by
  have hsaved : frame.saved = if preserve then a.usedCalleeSaved t.toRegisterFile else [] := by
    rw [lower_frame hl h]
    rfl
  rw [hsaved]
  split
  · exact ⟨fun r hr ↦ (Allocation.mem_usedCalleeSaved.1 hr).2.1, Register.nodup_distinct _⟩
  · exact ⟨nofun, List.nodup_nil⟩

/-- **Every access of spill code is inside of the frame and clear of everything else.** Let a
function be built on either machine, and compiled with any list of registers to hand out. Then its
code is a prologue, a block for each instruction of the source, and an epilogue, where:

* a block is its instruction among moves of registers to and from slots of the frame;
* the eight bytes of a slot are inside of the body and outside of the locals, no two slots have a
  byte in common, and the offsets of the stack slots decrease;
* after the prologue the stack pointer is below the body, and what was saved is not below the frame
  pointer. -/
theorem Session.compile_lays_out_frame (k : TargetKind) (allocatable : List Register)
    {name : String} {localBytes : Nat} {counter counter' : Counter}
    {emissions : List (Function.Emission k.Opcode)} {f : Function k.Opcode}
    (hf : Function.emitAll name localBytes counter emissions = .ok (f, counter'))
    {config : Config} {supply : Counter} {compiled : Compiled k.Opcode}
    (hcompile : (compile ⟨k.target.withAllocatable allocatable, config, supply⟩ f).result =
      .ok compiled) :
    let t := k.target.withAllocatable allocatable
    let frame := compiled.frame
    ∃ prologue blocks epilogue,
      compiled.function.code.entries = prologue ++ blocks.flatten ++ epilogue ∧
      t.prologue frame = .ok (prologue.map (·.2)) ∧
      t.epilogue frame = .ok (epilogue.map (·.2)) ∧
      frame.localBytes = f.localBytes ∧ frame.bodyBytes = .ok frame.body ∧
      List.Forall₂ (fun e block ↦ ∃ before i after, block = before ++ (e.1, i) :: after ∧
        ∀ x ∈ before ++ after, ∃ p, frame.HasSlot p ∧ t.MovesAt (frame.offset p) x.2)
        f.code.entries blocks ∧
      (∀ p, frame.HasSlot p → -(frame.body : Int) ≤ frame.offset p ∧
        frame.offset p + 8 ≤ -(frame.localBytes : Int)) ∧
      (∀ p q, frame.HasSlot p → frame.HasSlot q → p ≠ q →
        Disjoint (frame.bytes p) (frame.bytes q)) ∧
      StrictAnti frame.slotAt ∧
      ∀ sem, k.Executes sem → ∀ (left : Handle → Register → Word) (s : State),
        k.LaidOut frame s (sem.run t left prologue s) := by
  intro t frame
  have ht : t.Conforming := k.conforming allocatable
  obtain ⟨l, hrec, -⟩ := Function.recorded_of_emitAll hf
  obtain ⟨halloc, -, prologue, blocks, epilogue, bound, total, hrep, hprologue, hepilogue, htotal,
    hlocal, hspill, hsize, -, hblocks⟩ := exists_lowered hrec.code hcompile
  have hfaithful := Liveness.faithful_of_allocate hrec.liveness ht.conventional halloc
  have hsize' : frame.registerSize = 8 := hsize.trans ht.registerSize
  have hfits : frame.Fits :=
    ((Frame.totalBytes_eq_ok_iff (f := frame) (by omega)).1 htotal).1
  obtain ⟨hsaved, hnodup⟩ := Function.saved_of_lower hrec.code (compile_eq_ok hcompile).2
  have harea : f.spillArea t compiled.allocation =
      ⟨frame.localBytes, frame.registerSize, frame.spillSlots⟩ := by
    rw [hlocal, hsize, hspill]
    rfl
  rw [harea] at hblocks
  obtain ⟨hcalls, -⟩ := k.not_isCall_enclosure hprologue hepilogue
  refine ⟨prologue, blocks, epilogue, hrep.entries_eq, hprologue, hepilogue, hlocal,
    hfits.bodyBytes_eq, ?_, fun p hp ↦ Frame.offset_bounds hsize' hp,
    fun p q hp hq hne ↦ Frame.disjoint_bytes hsize' hp hq hne, Frame.strictAnti_slotAt hsize', ?_⟩
  · rw [hrec.code.entries_eq]
    exact hblocks.imp fun e block hblock ↦ hblock.movesAt k hfaithful.slots hspill
  · intro sem hsem left s
    rw [Semantics.run_eq_execAll (t := t) hcalls s]
    exact k.laidOut_prologue hsem hfits hsaved hnodup hprologue s

/-- Two values across a call, one register to hand out, and more locals than one instruction can
make room for: a slot of each sort below the locals, and a frame that is set up in two steps. All
constants of the code can be encoded. -/
theorem Session.compile_lays_out_frame_call :
    let t := RiscV.target.withAllocatable [RiscV.s1]
    let emissions : List (Function.Emission RiscV.Opcode) := [.newVirtual, .newVirtual,
      .emit ⟨.li, [.reg ⟨2147483648⟩, .imm 1]⟩, .emit ⟨.li, [.reg ⟨2147483649⟩, .imm 2]⟩,
      .emitCall .call (.label "g") 0, .emit ⟨.mv, [.reg RiscV.a0, .reg ⟨2147483649⟩]⟩,
      .emit ⟨.mv, [.reg RiscV.a1, .reg ⟨2147483648⟩]⟩]
    ∃ f counter compiled, Function.emitAll "f" 2016 {} emissions = .ok (f, counter) ∧
      (compile ⟨t, {}, {}⟩ f).result = .ok compiled ∧
      (∀ e ∈ compiled.function.code.entries, RiscV.Encodable e.2) ∧
      compiled.frame = ⟨2016, 1, 1, [RiscV.s1], 8, 16⟩ ∧
      compiled.frame.offset (.spill 0) = -2024 ∧ compiled.frame.offset (.reserved 1) = -2032 ∧
      ∃ prologue rest, compiled.function.code.entries = prologue ++ rest ∧
        ∀ (left : Handle → Register → Word) (s : State), TargetKind.riscV.LaidOut compiled.frame s
          ((RiscV.semantics fun _ ↦ 0).run t left prologue s) := by
  intro t emissions
  have hrun : (Function.emitAll "f" 2016 {} emissions).toOption.bind (fun b ↦
      (compile ⟨t, {}, {}⟩ b.1).result.toOption.map fun c ↦
        (c.frame, c.function.code.entries.all fun e ↦ RiscV.Encodable e.2)) =
      some (⟨2016, 1, 1, [RiscV.s1], 8, 16⟩, true) := by decide
  obtain ⟨⟨f, counter⟩, hf, hcompiled⟩ := Option.bind_eq_some_iff.1 hrun
  obtain ⟨compiled, hcompile, hcompiled⟩ := Option.map_eq_some_iff.1 hcompiled
  obtain ⟨hframe, hencodable⟩ := Prod.mk.inj hcompiled
  simp only [List.all_eq_true, decide_eq_true_eq] at hencodable
  rw [toOption_eq_some] at hf hcompile
  obtain ⟨prologue, blocks, epilogue, hentries, -, -, -, -, -, -, -, -, hlaid⟩ :=
    compile_lays_out_frame .riscV [RiscV.s1] hf hcompile
  refine ⟨f, counter, compiled, hf, hcompile, hencodable, hframe, ?_, ?_, prologue,
    blocks.flatten ++ epilogue, ?_, hlaid _ (RiscV.executes _)⟩
  · rw [hframe]
    decide
  · rw [hframe]
    decide
  · exact hentries.trans (List.append_assoc ..)

end MachineCode

import MachineCode.Proofs.CodeSequence
import MachineCode.Proofs.Renaming
import MachineCode.Session
import Mathlib.Data.List.Forall2

/-!
# The shape of lowered code

The lowering works on linked cells, but what comes out is easy to say in terms of sequences. The
assigned registers are put into each instruction (`represents_assign`); then each instruction gives
way to a block, which holds it with its lent registers between the spill code before it and the
spill code after it (`BlockFor`), so that the code is one block after the other
(`represents_insertSpillCode`); at last the prologue and the epilogue come around the whole
(`represents_enclose`). `Function.exists_lowered` puts the three together, and
`Session.exists_lowered` says the same of a compiled function.

The instructions of the source keep their handles throughout, and all other instructions have
handles that are not handles of the source.
-/

namespace MachineCode

variable {Op : Type} {t : Target Op} {a : Allocation} {area : SpillArea}

/-! ### Assigned registers -/

/-- Registers are put into an instruction if all that it names are accepted. -/
theorem Instruction.assign_eq_ok {i j : Instruction Op} {function : String} :
    i.assign t function a = .ok j ↔
      (∀ r ∈ i.registers, a.accepts r) ∧ j = i.mapRegisters a.assigned := by
  have hall : (∀ r ∈ i.registers, a.accepts r) ↔
      i.slots.findIdx? (fun s ↦ !a.accepts s.register) = none := by
    simp [List.findIdx?_eq_none_iff, registers]
  rw [hall, assign]
  cases h : i.slots.findIdx? fun s ↦ !a.accepts s.register with
  | none => simp [eq_comm]
  | some k =>
    simp only [reduceCtorEq, false_and, iff_false]
    split <;> exact nofun

namespace Function

variable {f f' : Function Op} {l : List (Handle × Instruction Op)}

/-- Every instruction has its assigned registers, under its old handle. -/
theorem represents_assign (hl : f.code.Represents l) (h : f.assign t a = .ok f') :
    f'.code.Represents (l.map fun e ↦ (e.1, e.2.mapRegisters a.assigned)) ∧
      (∀ e ∈ l, ∀ r ∈ e.2.registers, a.accepts r) ∧ f'.localBytes = f.localBytes := by
  obtain ⟨code, hcode, heq⟩ := bind_eq_ok.1 h
  cases heq
  rw [hl.entries_eq] at hcode
  -- the part that is done has its assigned registers, the rest is as it was
  have hinv := foldlM_invariant (fun (done : List (Handle × Instruction Op)) (c : Code Op) ↦
    (∀ rest, l = done ++ rest →
      c.Represents (done.map (fun e ↦ (e.1, e.2.mapRegisters a.assigned)) ++ rest)) ∧
    ∀ e ∈ done, ∀ r ∈ e.2.registers, a.accepts r) ?_ ⟨fun rest hrest ↦ ?_, by simp⟩ hcode
  · exact ⟨by simpa using hinv.1 [] (by simp), hinv.2, rfl⟩
  · rintro done ⟨h, i⟩ rest c c' hsplit ⟨hrep, haccepts⟩ hstep
    obtain ⟨j, hj, hmod⟩ := bind_eq_ok.1 hstep
    cases hmod
    obtain ⟨hi, rfl⟩ := Instruction.assign_eq_ok.1 hj
    refine ⟨fun rest' hrest' ↦ ?_, ?_⟩
    · have hsame : rest = rest' := by
        rw [hsplit, List.append_assoc] at hrest'
        simpa using hrest'
      subst hsame
      have := (hrep _ hsplit).modify fun _ ↦ i.mapRegisters a.assigned
      simpa using this
    · intro e he
      rcases List.mem_append.1 he with he | he
      · exact haccepts e he
      · rcases List.mem_singleton.1 he with rfl
        exact hi
  · rw [List.map_nil, List.nil_append, ← List.nil_append rest, ← hrest]
    exact hl

/-- Assignment succeeds if every register is accepted. -/
theorem exists_assign (hl : f.code.Represents l)
    (haccepts : ∀ e ∈ l, ∀ r ∈ e.2.registers, a.accepts r) : ∃ f', f.assign t a = .ok f' := by
  have hpass := exists_foldlM (f := fun c e ↦ do
    let i ← e.2.assign t f.name a
    return c.modify e.1 fun _ ↦ i) (l := l) (fun _ (_ : Code Op) ↦ True) ?_ (b := f.code) trivial
  · obtain ⟨code, hcode, -⟩ := hpass
    rw [assign, hl.entries_eq]
    exact ⟨_, bind_eq_ok.2 ⟨code, hcode, rfl⟩⟩
  · intro done e rest c hsplit _
    have he : e ∈ l := by simp [hsplit]
    have hi : e.2.assign t f.name a = .ok (e.2.mapRegisters a.assigned) :=
      Instruction.assign_eq_ok.2 ⟨haccepts e he, rfl⟩
    exact ⟨_, bind_eq_ok.2 ⟨_, hi, rfl⟩, trivial⟩

end Function

/-! ### Loans -/

/-- Each of the registers `vs` is lent a register of its own, which may be handed out, is not among
those in use, and is kept by a call. -/
structure Lends (t : Target Op) (a : Allocation) (i : Instruction Op) (inUse vs : List Register)
    (loans : List Loan) : Prop where
  vregs : loans.map (·.vreg) = vs
  slot : ∀ x ∈ loans, a.slotOf? x.vreg = some x.slot
  allocatable : ∀ x ∈ loans, x.scratch ∈ t.allocatable
  free : ∀ x ∈ loans, x.scratch ∉ inUse
  saved : ∀ x ∈ loans, t.isCall i → ¬ t.isCallerSaved x.scratch
  nodup : (loans.map (·.scratch)).Nodup

namespace Instruction

variable {i : Instruction Op} {inUse : List Register} {function : String} {loans : List Loan}

theorem lends_nil : Lends t a i inUse [] [] where
  vregs := rfl
  slot := by simp
  allocatable := by simp
  free := by simp
  saved := by simp
  nodup := List.nodup_nil

/-- What a lent register is chosen by. -/
theorem scratch?_eq_some {r : Register} (h : i.scratch? t inUse = some r) :
    r ∈ t.allocatable ∧ r ∉ inUse ∧ (t.isCall i → ¬ t.isCallerSaved r) := by
  have hp := List.find?_some h
  simp only [Bool.and_eq_true, Bool.not_eq_true', Bool.and_eq_false_iff] at hp
  refine ⟨List.mem_of_find?_eq_some h, fun hmem ↦ ?_, fun hcall hsaved ↦ ?_⟩
  · rw [List.contains_iff_mem.2 hmem] at hp
    exact absurd hp.1 (by simp)
  · rw [hcall, hsaved] at hp
    simp at hp

/-- One loan more, of a register that was found free. -/
theorem lends_concat {done : List Loan} {vs : List Register} {v scratch : Register} {slot : Nat}
    (hdone : Lends t a i inUse vs done) (hslot : a.slotOf? v = some slot)
    (hscratch : i.scratch? t (inUse ++ done.map (·.scratch)) = some scratch) :
    Lends t a i inUse (vs ++ [v]) (done ++ [⟨v, slot, scratch⟩]) := by
  obtain ⟨hmem, hfree, hsaved⟩ := scratch?_eq_some hscratch
  rw [List.mem_append, not_or] at hfree
  constructor
  · rw [List.map_append, hdone.vregs]
    rfl
  · exact List.forall_mem_append.2 ⟨hdone.slot, by simpa using hslot⟩
  · exact List.forall_mem_append.2 ⟨hdone.allocatable, by simpa using hmem⟩
  · exact List.forall_mem_append.2 ⟨hdone.free, by simpa using hfree.1⟩
  · exact List.forall_mem_append.2 ⟨hdone.saved, by simpa using hsaved⟩
  · rw [List.map_append, List.map_singleton, ← List.concat_eq_append]
    exact hdone.nodup.concat hfree.2

/-- **The loans of an instruction** are made one register after the other, each with what was lent
before in use. -/
theorem lends_of_lendAll {done : List Loan} {vs rest : List Register}
    (hdone : Lends t a i inUse vs done)
    (h : (i.lendAll t function a area inUse done rest).result = .ok loans) :
    Lends t a i inUse (vs ++ rest) loans := by
  induction rest generalizing done vs with
  | nil =>
    cases h
    rwa [List.append_nil]
  | cons v rest ih =>
    simp only [lendAll, Logged.result_bind, Logged.result_orError, Logged.result_say] at h
    obtain ⟨slot, hslot, h⟩ := bind_eq_ok.1 h
    obtain ⟨scratch, hscratch, h⟩ := bind_eq_ok.1 h
    obtain ⟨-, -, h⟩ := bind_eq_ok.1 h
    rw [mapError_eq_ok, elim_eq_ok] at hslot hscratch
    rw [List.append_cons]
    exact ih (lends_concat hdone hslot hscratch) h

/-- The loans of an instruction keep clear of the registers that it uses without naming them and of
those that it names. -/
theorem lends_of_loans (h : (i.loans t function a area).result = .ok loans) :
    ∃ implicit, (i.spilled ≠ [] → t.implicitUses i = .ok implicit) ∧
      Lends t a i (implicit ++ i.registers.filter (·.isPhysical)) i.spilled loans := by
  rw [Instruction.loans] at h
  split at h
  · rename_i hnone
    cases h
    rw [List.isEmpty_iff] at hnone
    refine ⟨[], fun hsome ↦ absurd hnone hsome, ?_⟩
    rw [hnone]
    exact lends_nil
  · split at h
    · cases h
    · rename_i implicit himplicit
      exact ⟨implicit, fun _ ↦ himplicit, lends_of_lendAll lends_nil h⟩

end Instruction

/-! ### Blocks -/

/-- The code before and after an instruction under some loans. Its handles are from `bound` on. -/
structure SpillCode (t : Target Op) (area : SpillArea) (bound : Nat) (loans : List Loan)
    (before after : List (Handle × Instruction Op)) : Prop where
  before_eq : before.map (·.2) = loans.zipIdx.flatMap fun x ↦ area.before t (x.2 + 1) x.1
  after_eq : after.map (·.2) = loans.zipIdx.flatMap fun x ↦ area.after t (x.2 + 1) x.1
  fresh_before : ∀ x ∈ before, bound ≤ x.1
  fresh_after : ∀ x ∈ after, bound ≤ x.1

/-- Wrapping an instruction puts spill code around it, and the lent registers into it. -/
theorem Code.Represents.exists_wrap {c : Code Op} {pre post : List (Handle × Instruction Op)}
    {h : Handle} {i : Instruction Op} {bound : Nat}
    (hc : c.Represents (pre ++ (h, i) :: post)) (hbound : bound ≤ c.cells.size) (t : Target Op)
    (area : SpillArea) (loans : List Loan) :
    ∃ c' before after, c.wrap t area h loans = .ok c' ∧ SpillCode t area bound loans before after ∧
      c'.Represents (pre ++ (before ++
        (h, i.mapRegisters (Loan.substitute loans)) :: after) ++ post) ∧
      bound ≤ c'.cells.size := by
  -- each loan adds its code at the end of what stands before and at the end of what stands after
  have hpass := exists_foldlM
    (f := fun c (x : Loan × Nat) ↦ do
      let c ← c.insertAllAt (some h) (area.before t (x.2 + 1) x.1)
      c.insertAllAt (firstHandle post none) (area.after t (x.2 + 1) x.1)) (l := loans.zipIdx)
    (fun (done : List (Loan × Nat)) (c : Code Op) ↦ ∃ before after,
      (before.map (·.2) = done.flatMap (fun x ↦ area.before t (x.2 + 1) x.1) ∧
        after.map (·.2) = done.flatMap (fun x ↦ area.after t (x.2 + 1) x.1) ∧
        (∀ x ∈ before, bound ≤ x.1) ∧ ∀ x ∈ after, bound ≤ x.1) ∧
      c.Represents ((pre ++ before) ++ (h, i) :: (after ++ post)) ∧ bound ≤ c.cells.size)
    ?_ ⟨[], [], ⟨rfl, rfl, by simp, by simp⟩, by simpa using hc, hbound⟩
  · obtain ⟨c₁, hfold, before, after, ⟨hbefore, hafter, hfb, hfa⟩, hrep, hsize⟩ := hpass
    refine ⟨c₁.modify h (·.mapRegisters (Loan.substitute loans)), before, after, ?_,
      ⟨hbefore, hafter, hfb, hfa⟩, ?_, ?_⟩
    · rw [wrap, hc.next]
      exact bind_eq_ok.2 ⟨_, rfl, bind_eq_ok.2 ⟨c₁, hfold, rfl⟩⟩
    · have hmod := hrep.modify (·.mapRegisters (Loan.substitute loans))
      simpa using hmod
    · simpa [Code.modify] using hsize
  · rintro done ⟨x, n⟩ rest c₂ - ⟨before, after, ⟨hbefore, hafter, hfb, hfa⟩, hrep, hsize⟩
    obtain ⟨c₃, new, hok, hrep₃, hnew, hfresh, hsize₃⟩ :=
      hrep.insertAllAt (area.before t (n + 1) x)
    have hrep₃' : c₃.Represents ((pre ++ before ++ new ++ (h, i) :: after) ++ post) := by
      simpa using hrep₃
    obtain ⟨c₄, new', hok', hrep₄, hnew', hfresh', hsize₄⟩ :=
      hrep₃'.insertAllAt (area.after t (n + 1) x)
    refine ⟨c₄, bind_eq_ok.2 ⟨c₃, hok, hok'⟩, before ++ new, after ++ new', ⟨?_, ?_, ?_, ?_⟩,
      by simpa using hrep₄, by omega⟩
    · simp [hbefore, hnew]
    · simp [hafter, hnew']
    · exact List.forall_mem_append.2 ⟨hfb, fun y hy ↦ Nat.le_trans hsize (hfresh y hy)⟩
    · refine List.forall_mem_append.2 ⟨hfa, fun y hy ↦ ?_⟩
      have := hfresh' y hy
      omega

/-- The entry of the source gives way to a block of code, for loans of no more than `reserved`
registers. -/
def BlockFor (t : Target Op) (a : Allocation) (area : SpillArea) (bound reserved : Nat)
    (e : Handle × Instruction Op) (block : List (Handle × Instruction Op)) : Prop :=
  ∃ implicit loans before after,
    (e.2.spilled ≠ [] → t.implicitUses e.2 = .ok implicit) ∧
    Lends t a e.2 (implicit ++ e.2.registers.filter (·.isPhysical)) e.2.spilled loans ∧
    loans.length ≤ reserved ∧ SpillCode t area bound loans before after ∧
    block = before ++ (e.1, e.2.mapRegisters (Loan.substitute loans)) :: after

theorem BlockFor.mono {bound reserved reserved' : Nat} {e : Handle × Instruction Op}
    {block : List (Handle × Instruction Op)} (h : BlockFor t a area bound reserved e block)
    (hle : reserved ≤ reserved') : BlockFor t a area bound reserved' e block := by
  obtain ⟨implicit, loans, before, after, himp, hlends, hlen, hcode, hblock⟩ := h
  exact ⟨implicit, loans, before, after, himp, hlends, Nat.le_trans hlen hle, hcode, hblock⟩

namespace Function

variable {f f' : Function Op} {l : List (Handle × Instruction Op)}

/-- **Code with spill code is one block after the other**, a block for each instruction. -/
theorem represents_insertSpillCode {reserved : Nat} (hl : f.code.Represents l)
    (h : (f.insertSpillCode t a).result = .ok (reserved, f')) :
    ∃ blocks, f'.code.Represents blocks.flatten ∧
      List.Forall₂ (BlockFor t a (f.spillArea t a) f.code.cells.size reserved) l blocks ∧
      f'.localBytes = f.localBytes := by
  rw [insertSpillCode, Logged.result_bind, Logged.result_foldlM] at h
  obtain ⟨⟨reserved', code⟩, hfold, heq⟩ := bind_eq_ok.1 h
  cases heq
  rw [hl.entries_eq] at hfold
  -- the part that is done has given way to its blocks, the rest is as it was
  have hinv := foldlM_invariant (fun (done : List (Handle × Instruction Op)) (s : Nat × Code Op) ↦
    f.code.cells.size ≤ s.2.cells.size ∧ ∃ blocks,
      List.Forall₂ (BlockFor t a (f.spillArea t a) f.code.cells.size s.1) done blocks ∧
      ∀ rest, l = done ++ rest → s.2.Represents (blocks.flatten ++ rest)) ?_
    ⟨Nat.le_refl _, [], .nil, fun rest hrest ↦ ?_⟩ hfold
  · obtain ⟨-, blocks, hblocks, hrep⟩ := hinv
    exact ⟨blocks, by simpa using hrep [] (by simp), hblocks, rfl⟩
  · rintro done ⟨h, i⟩ rest ⟨n, c⟩ ⟨n', c'⟩ hsplit ⟨hsize, blocks, hblocks, hrep⟩ hstep
    rw [Logged.result_bind] at hstep
    obtain ⟨loans, hloans, hstep⟩ := bind_eq_ok.1 hstep
    rw [Logged.result_bind, Logged.result_orFault] at hstep
    obtain ⟨c₁, hwrap, hstep⟩ := bind_eq_ok.1 hstep
    cases hstep
    rw [mapError_eq_ok] at hwrap
    obtain ⟨implicit, himp, hlends⟩ := Instruction.lends_of_loans hloans
    obtain ⟨c₂, before, after, hok, hcode, hrep', hsize'⟩ :=
      (hrep _ hsplit).exists_wrap hsize t (f.spillArea t a) loans
    cases hok.symm.trans hwrap
    refine ⟨hsize', blocks ++ [_], List.rel_append (hblocks.imp fun _ _ hb ↦
      hb.mono (Nat.le_max_left _ _)) (.cons ⟨implicit, loans, before, after, himp, hlends,
        Nat.le_max_right _ _, hcode, rfl⟩ .nil), fun rest' hrest' ↦ ?_⟩
    have hsame : rest = rest' := by
      rw [hsplit, List.append_assoc] at hrest'
      simpa using hrest'
    subst hsame
    simpa using hrep'
  · rw [List.flatten_nil, List.nil_append, ← List.nil_append rest, ← hrest]
    exact hl

/-- The prologue and the epilogue come around the code. -/
theorem exists_enclose {frame : Frame} {is js : List (Instruction Op)} (hl : f.code.Represents l)
    (hprologue : t.prologue frame = .ok is) (hepilogue : t.epilogue frame = .ok js) :
    ∃ f' prologue epilogue, f.enclose t frame = .ok f' ∧
      f'.code.Represents (prologue ++ l ++ epilogue) ∧
      prologue.map (·.2) = is ∧ epilogue.map (·.2) = js := by
  have hfront : f.code.Represents ([] ++ l) := hl
  obtain ⟨c₁, prologue, hok₁, hrep₁, hmap₁, -, -⟩ := hfront.insertAllAt is
  have hback : c₁.Represents (([] ++ prologue ++ l) ++ []) := by rwa [List.append_nil]
  obtain ⟨c₂, epilogue, hok₂, hrep₂, hmap₂, -, -⟩ := hback.insertAllAt js
  refine ⟨{ f with code := c₂ }, prologue, epilogue, ?_, by simpa using hrep₂, hmap₁, hmap₂⟩
  rw [enclose, hprologue, hepilogue, hl.front]
  exact bind_eq_ok.2 ⟨is, rfl, bind_eq_ok.2 ⟨js, rfl,
    bind_eq_ok.2 ⟨c₁, hok₁, bind_eq_ok.2 ⟨c₂, hok₂, rfl⟩⟩⟩⟩

/-- **The prologue goes before all instructions, the epilogue behind them.** -/
theorem represents_enclose {frame : Frame} (hl : f.code.Represents l)
    (h : f.enclose t frame = .ok f') :
    ∃ prologue epilogue, f'.code.Represents (prologue ++ l ++ epilogue) ∧
      t.prologue frame = .ok (prologue.map (·.2)) ∧
      t.epilogue frame = .ok (epilogue.map (·.2)) := by
  obtain ⟨is, hprologue, hrest⟩ := bind_eq_ok.1 h
  obtain ⟨js, hepilogue, -⟩ := bind_eq_ok.1 hrest
  obtain ⟨f'', prologue, epilogue, hok, hrep, rfl, rfl⟩ := exists_enclose hl hprologue hepilogue
  cases hok.symm.trans h
  exact ⟨prologue, epilogue, hrep, hprologue, hepilogue⟩

end Function

/-! ### Lowered functions -/

/-- A function is lowered in three passes over its code, with the size of the frame between the
second and the third. -/
theorem Function.lower_eq_ok {f f' : Function Op} {preserve : Bool} {frame : Frame} :
    (f.lower t a preserve).result = .ok (f', frame) ↔
      ∃ f₁ reserved f₂ total, f.assign t a = .ok f₁ ∧
        (f₁.insertSpillCode t a).result = .ok (reserved, f₂) ∧
        frame = t.frame f₂.localBytes a.spillCount reserved
          (if preserve then a.usedCalleeSaved t.toRegisterFile else []) ∧
        frame.totalBytes = .ok total ∧ f₂.enclose t frame = .ok f' := by
  simp only [lower, Logged.result_bind, Logged.result_say, Logged.result_orError,
    Logged.result_orFault]
  constructor
  · intro h
    obtain ⟨f₁, hassign, h⟩ := bind_eq_ok.1 h
    obtain ⟨⟨reserved, f₂⟩, hspill, h⟩ := bind_eq_ok.1 h
    obtain ⟨total, htotal, h⟩ := bind_eq_ok.1 h
    obtain ⟨-, -, h⟩ := bind_eq_ok.1 h
    obtain ⟨f₃, henclose, h⟩ := bind_eq_ok.1 h
    cases h
    rw [mapError_eq_ok] at hassign htotal henclose
    exact ⟨f₁, reserved, f₂, total, hassign, hspill, rfl, htotal, henclose⟩
  · rintro ⟨f₁, reserved, f₂, total, hassign, hspill, rfl, htotal, henclose⟩
    refine bind_eq_ok.2 ⟨f₁, mapError_eq_ok.2 hassign, ?_⟩
    refine bind_eq_ok.2 ⟨(reserved, f₂), hspill, ?_⟩
    refine bind_eq_ok.2 ⟨total, mapError_eq_ok.2 htotal, ?_⟩
    exact bind_eq_ok.2 ⟨(), rfl, bind_eq_ok.2 ⟨f', mapError_eq_ok.2 henclose, rfl⟩⟩

/-- **The shape of a lowered function**: the prologue, a block for each instruction of the source
with its assigned registers, and the epilogue. -/
theorem Function.exists_lowered {f f' : Function Op} {preserve : Bool} {frame : Frame}
    {l : List (Handle × Instruction Op)} (hl : f.code.Represents l)
    (h : (f.lower t a preserve).result = .ok (f', frame)) :
    (∀ e ∈ l, ∀ r ∈ e.2.registers, a.accepts r) ∧
    ∃ prologue blocks epilogue, ∃ bound total : Nat,
      f'.code.Represents (prologue ++ blocks.flatten ++ epilogue) ∧
      t.prologue frame = .ok (prologue.map (·.2)) ∧
      t.epilogue frame = .ok (epilogue.map (·.2)) ∧
      frame.totalBytes = .ok total ∧
      frame.localBytes = f.localBytes ∧
      frame.spillSlots = a.spillCount ∧
      frame.registerSize = t.registerSize ∧
      (∀ e ∈ l, e.1 < bound) ∧
      List.Forall₂ (fun e block ↦ BlockFor t a (f.spillArea t a) bound frame.reservedSlots
        (e.1, e.2.mapRegisters a.assigned) block) l blocks := by
  obtain ⟨f₁, reserved, f₂, total, hassign, hspill, rfl, htotal, henclose⟩ := lower_eq_ok.1 h
  obtain ⟨hrep₁, haccepts, hlocal₁⟩ := represents_assign hl hassign
  obtain ⟨blocks, hrep₂, hblocks, hlocal₂⟩ := represents_insertSpillCode hrep₁ hspill
  obtain ⟨prologue, epilogue, hrep₃, hprologue, hepilogue⟩ := represents_enclose hrep₂ henclose
  refine ⟨haccepts, prologue, blocks, epilogue, f₁.code.cells.size, total, hrep₃, hprologue,
    hepilogue, htotal, hlocal₂.trans hlocal₁, rfl, rfl, fun e he ↦ ?_, ?_⟩
  · have hmem := List.mem_map_of_mem (f := fun e ↦ (e.1, e.2.mapRegisters a.assigned)) he
    have hlt := hrep₁.segment.lt_size hmem
    exact hlt
  · -- the assigned registers do not change where the slots are
    have harea : f₁.spillArea t a = f.spillArea t a := by
      rw [spillArea, hlocal₁]
      rfl
    rw [harea] at hblocks
    exact List.forall₂_map_left_iff.1 hblocks

/-! ### Compiled functions -/

theorem Liveness.result_noteAllocate (rf : RegisterFile) (l : Liveness) :
    (l.noteAllocate rf).result = l.allocate rf := by
  rw [noteAllocate, Logged.result_bind, Logged.result_say, allocate]
  show ((Logged.ofExcept (l.scan rf)) >>= _).result = _
  rw [Logged.result_bind, Logged.result_ofExcept]
  cases l.scan rf <;> rfl

/-- A compiled function is allocated and then lowered. -/
theorem Session.compile_eq_ok {s : Session Op} {f : Function Op} {compiled : Compiled Op}
    (h : (s.compile f).result = .ok compiled) :
    f.liveness.allocate s.target.toRegisterFile = .ok compiled.allocation ∧
      (f.lower s.target compiled.allocation (s.config.preserves f.name)).result =
        .ok (compiled.function, compiled.frame) := by
  simp only [compile, Logged.result_bind, Logged.result_say, Logged.result_sayAll,
    Logged.result_mapError, Liveness.result_noteAllocate] at h
  obtain ⟨-, -, h⟩ := bind_eq_ok.1 h
  obtain ⟨a, ha, h⟩ := bind_eq_ok.1 h
  obtain ⟨-, -, h⟩ := bind_eq_ok.1 h
  obtain ⟨⟨f', frame⟩, hlower, h⟩ := bind_eq_ok.1 h
  cases h
  rw [mapError_eq_ok] at ha
  exact ⟨ha, hlower⟩

/-- **The shape of a compiled function** is that of the function lowered under its allocation. -/
theorem Session.exists_lowered {s : Session Op} {f : Function Op} {compiled : Compiled Op}
    {l : List (Handle × Instruction Op)} (hl : f.code.Represents l)
    (h : (s.compile f).result = .ok compiled) :
    f.liveness.allocate s.target.toRegisterFile = .ok compiled.allocation ∧
    (∀ e ∈ l, ∀ r ∈ e.2.registers, compiled.allocation.accepts r) ∧
    ∃ prologue blocks epilogue, ∃ bound total : Nat,
      compiled.function.code.Represents (prologue ++ blocks.flatten ++ epilogue) ∧
      s.target.prologue compiled.frame = .ok (prologue.map (·.2)) ∧
      s.target.epilogue compiled.frame = .ok (epilogue.map (·.2)) ∧
      compiled.frame.totalBytes = .ok total ∧
      compiled.frame.localBytes = f.localBytes ∧
      compiled.frame.spillSlots = compiled.allocation.spillCount ∧
      compiled.frame.registerSize = s.target.registerSize ∧
      (∀ e ∈ l, e.1 < bound) ∧
      List.Forall₂ (fun e block ↦ BlockFor s.target compiled.allocation
        (f.spillArea s.target compiled.allocation) bound compiled.frame.reservedSlots
        (e.1, e.2.mapRegisters compiled.allocation.assigned) block) l blocks := by
  obtain ⟨halloc, hlower⟩ := compile_eq_ok h
  exact ⟨halloc, Function.exists_lowered hl hlower⟩

end MachineCode

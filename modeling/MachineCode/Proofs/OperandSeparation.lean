import MachineCode.Proofs.FixedRanges
import MachineCode.Proofs.SourceOrder
import MachineCode.Proofs.SpillPaths

/-!
# Operands are never merged

Two registers that one instruction names are two registers in compiled code as well. Three sorts of
clashes have to be ruled out, and each is ruled out by another part of the compiler:

* two virtual registers with physical places: both are live at the instruction, and live values do
  not share a register (`Allocation.Faithful.assigned_inj`);
* a virtual register and a physical one: the physical one is live at the instruction as well, and a
  virtual register stays clear of the ranges of its place (`Function.Tracked.assigned_ne`);
* a lent register and another one: what the instruction touches is not lent, and nothing is lent
  twice (`Lends.renaming_substitute`).

So putting in the assigned registers is a renaming, and putting in the lent ones on top of it is
again one: `Session.compile_separates_operands`.
-/

namespace MachineCode

/-! ### Hidden uses under a change of registers -/

/-- The number of arguments is not a register. -/
theorem Instruction.argumentCount_mapRegisters {Op : Type} (ρ : Register → Register)
    (i : Instruction Op) : (i.mapRegisters ρ).argumentCount = i.argumentCount := by
  rw [argumentCount, argumentCount, mapRegisters, List.getElem?_map]
  cases i.operands[1]? with
  | none => rfl
  | some op => cases op <;> rfl

/-- What an instruction uses without naming it does not depend on what it names. -/
theorem TargetKind.implicitUses_mapRegisters (k : TargetKind) (ρ : Register → Register)
    (i : Instruction k.Opcode) :
    k.target.implicitUses (i.mapRegisters ρ) = k.target.implicitUses i := by
  cases k with
  | x86 =>
    have huses (j : Instruction X86.Opcode) :
        X86.implicitUses (j.mapRegisters ρ) = X86.implicitUses j := by
      rw [X86.implicitUses, X86.implicitUses, Instruction.argumentCount_mapRegisters]
      rfl
    exact huses i
  | riscV =>
    have huses (j : Instruction RiscV.Opcode) :
        RiscV.implicitUses (j.mapRegisters ρ) = RiscV.implicitUses j := by
      rw [RiscV.implicitUses, RiscV.implicitUses, Instruction.argumentCount_mapRegisters]
      rfl
    exact huses i

/-! ### Assigned registers -/

namespace Function

variable {Op : Type} {t : Target Op} {f : Function Op} {l : List (Handle × Instruction Op)}
  {a : Allocation} {p : Nat} {e : Handle × Instruction Op}

/-- A virtual register is not exchanged for another register that is named beside it. -/
theorem Tracked.assigned_ne (h : f.Tracked l) (hrf : t.toRegisterFile.Conventional)
    (ha : f.liveness.allocate t.toRegisterFile = .ok a) (he : l[p]? = some e) {v r : Register}
    (hv : v ∈ e.2.registers) (hvirt : v.isVirtual) (hr : r ∈ e.2.registers)
    (hother : ¬ r.isVirtual) : a.assigned v ≠ r := by
  rintro rfl
  rcases Allocation.assigned_cases (a := a) hvirt with ⟨hphys, hplace⟩ | hself
  · have hwf := h.liveness.wellFormed
    -- both are live at the instruction
    obtain ⟨x, hx, hxp⟩ := h.covers p e he v hv hvirt
    obtain ⟨y, hy, hyp⟩ := ((h.pinned _ hphys).2 p).2 ⟨e, he, hr⟩
    rw [LiveRange.contains_iff] at hxp hyp
    refine (Liveness.interferenceFree_of_allocate hwf hrf ha).fixed v _ hvirt hphys hplace x hx y
      hy (LiveRange.overlaps_iff.2 ?_)
    omega
  · rw [hself] at hother
    exact hother hvirt

/-- **Exchanging the registers of an instruction for their places is a renaming**, whatever other
registers the instruction names. -/
theorem Tracked.renaming_assigned (h : f.Tracked l) (hrf : t.toRegisterFile.Conventional)
    (ha : f.liveness.allocate t.toRegisterFile = .ok a) (he : l[p]? = some e) :
    RegisterRenaming t.allocatable e.2.registers a.assigned := by
  have hfaithful := Liveness.faithful_of_allocate h.liveness hrf ha
  have hfixed : ∀ r, ¬ r.isVirtual → a.assigned r = r := fun r hr ↦
    Allocation.assigned_of_not_isVirtual hr
  refine ⟨hfixed, fun r hr ↦ hfaithful.assigned_into hr, fun r hr q hq heq ↦ ?_⟩
  by_cases hrv : r.isVirtual <;> by_cases hqv : q.isVirtual
  · exact hfaithful.assigned_inj hrv hqv (h.covers p e he r hr hrv) (h.covers p e he q hq hqv) heq
  · rw [hfixed q hqv] at heq
    exact absurd heq (h.assigned_ne hrf ha he hr hrv hq hqv)
  · rw [hfixed r hrv] at heq
    exact absurd heq.symm (h.assigned_ne hrf ha he hq hqv hr hrv)
  · rwa [hfixed r hrv, hfixed q hqv] at heq

end Function

/-! ### Compiled operands -/

/-- The registers of an instruction with its assigned and then with its lent registers are kept
apart. -/
theorem Lends.renaming_assigned {Op : Type} {t : Target Op} {a : Allocation} {i : Instruction Op}
    {implicit : List Register} {loans : List Loan}
    (hassigned : RegisterRenaming t.allocatable i.registers a.assigned)
    (hphys : ∀ r ∈ t.allocatable, r.isPhysical)
    (h : Lends t a (i.mapRegisters a.assigned)
      (implicit ++ (i.mapRegisters a.assigned).registers.filter (·.isPhysical))
      (i.mapRegisters a.assigned).spilled loans) :
    RegisterRenaming t.allocatable i.registers (Loan.substitute loans ∘ a.assigned) := by
  refine hassigned.comp hphys ((h.renaming_substitute hphys).mono fun r hr ↦ ?_)
  rw [← Instruction.registers_assigned] at hr
  exact List.mem_append_left _ hr

/-- **Operands are never merged.** Let an instruction selector build a function on either machine,
and let it be compiled with any list of physical registers to hand out. Each instruction of the
source is in the compiled code under its handle, with its registers replaced: assigned registers by
their places, spilled ones by lent registers, and the physical registers that it names by
themselves. No two registers that it names are replaced by the same one. What is lent to it may be
handed out, and is not among the registers that it uses without naming them, nor, if it is a call,
caller-saved. -/
theorem Session.compile_separates_operands (k : TargetKind) {allocatable : List Register}
    (hallocatable : ∀ r ∈ allocatable, r.isPhysical) {name : String} {localBytes : Nat}
    {counter counter' : Counter} {emissions : List (Function.Emission k.Opcode)}
    {f : Function k.Opcode}
    (hf : Function.emitAll name localBytes counter emissions = .ok (f, counter'))
    {config : Config} {supply : Counter} {compiled : Compiled k.Opcode}
    (hcompile : (compile ⟨k.target.withAllocatable allocatable, config, supply⟩ f).result =
      .ok compiled) {e : Handle × Instruction k.Opcode} (he : e ∈ f.code.entries) :
    ∃ loans σ, (e.1, e.2.mapRegisters σ) ∈ compiled.function.code.entries ∧
      compiled.allocation.Replaces loans σ ∧
      loans.map (·.vreg) = compiled.allocation.spilledIn e.2 ∧
      (∀ r ∈ e.2.registers, ∀ q ∈ e.2.registers, σ r = σ q → r = q) ∧
      (∀ x ∈ loans, x.scratch ∈ allocatable) ∧
      (∀ uses, k.target.implicitUses e.2 = .ok uses → ∀ x ∈ loans, x.scratch ∉ uses) ∧
      (k.target.isCall e.2 → ∀ x ∈ loans, ¬ k.target.isCallerSaved x.scratch) := by
  have hrf := k.conventional allocatable
  have ht := k.conforming allocatable
  have htracked := Function.tracked_of_emitAll hf
  obtain ⟨halloc, hlower⟩ := compile_eq_ok hcompile
  obtain ⟨haccepts, -⟩ := Function.exists_lowered htracked.code hlower
  obtain ⟨-, hblocks⟩ := Function.exists_block htracked.code hlower
  obtain ⟨pre, block, post, bound, hentries, implicit, loans, before, after, himplicit, hlends, -,
    -, rfl⟩ := hblocks e he
  obtain ⟨p, hp⟩ := List.getElem?_of_mem he
  have hσ := hlends.renaming_assigned (htracked.renaming_assigned hrf halloc hp) hallocatable
  rw [Instruction.mapRegisters_mapRegisters] at hentries
  refine ⟨loans, Loan.substitute loans ∘ compiled.allocation.assigned, ?_, hlends.replaces, ?_,
    hσ.injOn, hlends.allocatable, fun uses huses x hx hmem ↦ ?_, fun hcall x hx ↦ ?_⟩
  · rw [hentries]
    simp
  · rw [← Instruction.spilled_assigned (haccepts e he)]
    exact hlends.vregs
  · -- something is lent, so the hidden uses were asked for
    have hspilled : (e.2.mapRegisters compiled.allocation.assigned).spilled ≠ [] :=
      List.ne_nil_of_mem (hlends.vregs ▸ List.mem_map_of_mem hx)
    have himplicit' : k.target.implicitUses (e.2.mapRegisters compiled.allocation.assigned) =
      .ok implicit := himplicit hspilled
    rw [k.implicitUses_mapRegisters] at himplicit'
    cases huses.symm.trans himplicit'
    exact hlends.free x hx (List.mem_append_left _ hmem)
  · refine hlends.saved x hx ?_
    rw [ht.isCall_mapRegisters]
    exact hcall

/-- A division by a spilled register, with `rax` and `rcx` to hand out: `rax` belongs to the
division, so `rcx` is lent. The addition before it has both of its registers. -/
theorem Session.compile_separates_operands_division :
    let t := X86.target.withAllocatable [X86.rax, X86.rcx]
    let emissions : List (Function.Emission X86.Opcode) := [.newVirtual, .newVirtual, .newVirtual,
      .emit ⟨.mov, [.imm 1, .reg ⟨2147483648⟩]⟩, .emit ⟨.mov, [.imm 2, .reg ⟨2147483649⟩]⟩,
      .emit ⟨.mov, [.imm 3, .reg ⟨2147483650⟩]⟩,
      .emit ⟨.add, [.reg ⟨2147483648⟩, .reg ⟨2147483649⟩]⟩, .emit ⟨.cqto, []⟩,
      .emit ⟨.idiv, [.reg ⟨2147483650⟩]⟩]
    ∃ f counter compiled, Function.emitAll "f" 0 {} emissions = .ok (f, counter) ∧
      (compile ⟨t, {}, {}⟩ f).result = .ok compiled ∧
      (∃ r q, r ≠ q ∧ (3, ⟨.add, [.reg r, .reg q]⟩) ∈ compiled.function.code.entries) ∧
      (5, ⟨.idiv, [.reg X86.rcx]⟩) ∈ compiled.function.code.entries := by
  intro t emissions
  let addition : Instruction X86.Opcode := ⟨.add, [.reg ⟨2147483648⟩, .reg ⟨2147483649⟩]⟩
  let division : Instruction X86.Opcode := ⟨.idiv, [.reg ⟨2147483650⟩]⟩
  have hrun : (Function.emitAll "f" 0 {} emissions).toOption.map (fun b ↦
      (b.1.code.entries[3]?, b.1.code.entries[5]?,
        (compile ⟨t, {}, {}⟩ b.1).result.toOption.map fun c ↦ c.allocation.spilledIn division)) =
      some (some (3, addition), some (5, division), some [⟨2147483650⟩]) := by decide
  obtain ⟨⟨f, counter⟩, hf, hrun⟩ := Option.map_eq_some_iff.1 hrun
  obtain ⟨hadd, hrun⟩ := Prod.mk.inj hrun
  obtain ⟨hdiv, hrun⟩ := Prod.mk.inj hrun
  obtain ⟨compiled, hcompile, hspilled⟩ := Option.map_eq_some_iff.1 hrun
  rw [toOption_eq_some] at hf hcompile
  have hphys : ∀ r ∈ [X86.rax, X86.rcx], r.isPhysical := by decide
  obtain ⟨-, σ, hσ, -, -, hinj, -⟩ := compile_separates_operands .x86 hphys hf hcompile
    (List.mem_of_getElem? hadd)
  obtain ⟨loans, τ, hτ, hreplaces, hvregs, -, hlent, hfree, -⟩ :=
    compile_separates_operands .x86 hphys hf hcompile (List.mem_of_getElem? hdiv)
  -- one register is lent, and it is not `rax`
  obtain ⟨x, hx, hxv⟩ : ∃ x ∈ loans, x.vreg = ⟨2147483650⟩ := by
    refine List.mem_map.1 ?_
    rw [hvregs.trans hspilled]
    exact List.mem_singleton.2 rfl
  have hrcx : τ ⟨2147483650⟩ = X86.rcx := by
    rw [← hxv, hreplaces.lent x hx]
    rcases List.mem_cons.1 (hlent x hx) with hrax | hmem
    · exact absurd (hrax ▸ List.mem_cons_self) (hfree [X86.rax, X86.rdx] rfl x hx)
    · exact List.mem_singleton.1 hmem
  refine ⟨f, counter, compiled, hf, hcompile, ⟨σ ⟨2147483648⟩, σ ⟨2147483649⟩, ?_, hσ⟩, ?_⟩
  · intro heq
    exact absurd (hinj ⟨2147483648⟩ (by decide) ⟨2147483649⟩ (by decide) heq) (by decide)
  · rw [← hrcx]
    exact hτ

end MachineCode

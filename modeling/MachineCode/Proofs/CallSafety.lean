import MachineCode.Proofs.Building
import MachineCode.Proofs.Interference

/-!
# Call safety

A call changes the caller-saved registers, so a value that is wanted across a call must not be in
one. In a function that was built by appending, the range of a virtual register is marked exactly if
a call lies in it (`Liveness.Exact`); the allocator takes callee-saved registers for marked ranges
and caller-saved ones for the others (`Liveness.exists_place`). `Function.place_respects_calls` puts
the two together.
-/

namespace MachineCode

/-- Every virtual register that was used has a place: a stack slot, or a register of the saving
class that its range asks for. -/
theorem Liveness.exists_place {rf : RegisterFile} {l : Liveness} {a : Allocation}
    (hl : l.WellFormed) (hrf : rf.Conventional) (ha : l.allocate rf = .ok a) {v : Register}
    (hv : v.isVirtual) {x : LiveRange} (hx : x ∈ l.ranges v) :
    ∃ place, a.get? v = some place ∧
      ((∃ n < a.spillCount, Register.slot? n = some place) ∨
        place ∈ rf.allocatable ∧ place.isPhysical ∧
          if x.acrossCall then rf.isCalleeSaved place else rf.isCallerSaved place) := by
  obtain ⟨p, s, rfl, hsound⟩ := exists_sound_of_allocate hl hrf ha
  have hmem : (⟨v, x⟩ : Interval) ∈ l.virtualIntervals := mem_virtualIntervals.2 ⟨hv, hx⟩
  obtain ⟨place, hplace⟩ := Option.isSome_iff_exists.1 ((hsound.placed v).2 ⟨_, hmem, rfl⟩)
  refine ⟨place, hplace, (hsound.place _ hmem place hplace).imp_right ?_⟩
  rintro ⟨halloc, hel, -⟩
  exact ⟨halloc, Scan.isPhysical_of_eligible hrf hel, (Scan.eligible_iff.1 hel).1⟩

namespace Function

/-- **Call safety.** In a function built by appending instructions and noting call boundaries, on
either machine and with any list of registers to hand out: a virtual register whose range holds a
call point lives in a callee-saved register or in a stack slot, and any other one in a caller-saved
register or in a stack slot. -/
theorem place_respects_calls (k : TargetKind) (allocatable : List Register) {name : String}
    {localBytes : Nat} {steps : List (BuildStep k.Opcode)} {f : Function k.Opcode}
    (hbuild : build name localBytes steps = .ok f) :
    (f.liveness.virtualRegisters.length < Nat.pow 2 30 → ∃ a,
      f.liveness.allocate (k.target.withAllocatable allocatable).toRegisterFile = .ok a) ∧
    ∀ a, f.liveness.allocate (k.target.withAllocatable allocatable).toRegisterFile = .ok a →
      ∀ v, v.isVirtual → ∀ x ∈ f.liveness.ranges v, ∃ place, a.get? v = some place ∧
        ((∃ c ∈ f.liveness.calls, x.start ≤ c ∧ c < x.stop) →
          (k.target.isCalleeSaved place ∨ place.isStackSlot) ∧ ¬ k.target.isCallerSaved place) ∧
        ((∀ c ∈ f.liveness.calls, ¬ (x.start ≤ c ∧ c < x.stop)) →
          k.target.isCallerSaved place ∨ place.isStackSlot) := by
  have hrf := k.conventional allocatable
  obtain ⟨l, hrec⟩ := recorded_of_build hbuild
  have hwf := hrec.liveness.wellFormed
  refine ⟨fun hcount ↦ Liveness.exists_allocate hwf hrf (Nat.le_of_lt hcount), ?_⟩
  intro a ha v hv x hx
  obtain ⟨place, hplace, hcases⟩ := Liveness.exists_place hwf hrf ha hv hx
  -- the mark that the allocator goes by tells whether there is a call in the range
  have hmark := hrec.liveness.acrossCall_iff v hv x hx
  simp only [LiveRange.contains_iff] at hmark
  refine ⟨place, hplace, fun hcall ↦ ?_, fun hcall ↦ ?_⟩
  · rcases hcases with ⟨n, -, hslot⟩ | ⟨-, -, hclass⟩
    · have hstack := Register.isStackSlot_slot? hslot
      refine ⟨Or.inr hstack, fun hcaller ↦ ?_⟩
      exact Register.not_isStackSlot_of_isPhysical (hrf.physical_of_caller hcaller) hstack
    · rw [if_pos (hmark.2 hcall)] at hclass
      exact ⟨Or.inl hclass, fun hcaller ↦ hrf.disjoint hcaller hclass⟩
  · rcases hcases with ⟨n, -, hslot⟩ | ⟨-, -, hclass⟩
    · exact Or.inr (Register.isStackSlot_slot? hslot)
    · have hnot : ¬ x.acrossCall := fun h ↦ by
        obtain ⟨c, hc, hxc⟩ := hmark.1 h
        exact hcall c hc hxc
      rw [if_neg hnot] at hclass
      exact Or.inl hclass

/-- Two values across one call, with one callee-saved register: the one that ends first gets it. -/
theorem place_respects_calls_eviction :
    let steps : List (BuildStep X86.Opcode) := [
      .append ⟨.mov, [.imm 1, .reg ⟨2147483648⟩]⟩, .append ⟨.mov, [.imm 2, .reg ⟨2147483649⟩]⟩,
      .callBoundary, .append ⟨.call, [.label "g", .imm 0]⟩,
      .append ⟨.add, [.reg ⟨2147483649⟩, .reg ⟨2147483648⟩]⟩,
      .append ⟨.push, [.reg ⟨2147483648⟩]⟩]
    let rf := (X86.target.withAllocatable [X86.rax, X86.rbx]).toRegisterFile
    ∃ f a, build "f" 0 steps = .ok f ∧ f.liveness.allocate rf = .ok a ∧
      f.liveness.calls = [2] ∧ f.liveness.ranges ⟨2147483649⟩ = [⟨1, 4, true⟩] ∧
      a.get? ⟨2147483649⟩ = some X86.rbx ∧ ¬ X86.target.isCallerSaved X86.rbx := by
  intro steps rf
  have hrun : (build "f" 0 steps).toOption.map (fun f ↦ (f.liveness.virtualRegisters.length,
      f.liveness.calls, f.liveness.ranges ⟨2147483649⟩,
      (f.liveness.allocate rf).toOption.map (·.get? ⟨2147483649⟩))) =
      some (2, [2], [⟨1, 4, true⟩], some (some X86.rbx)) := by decide
  obtain ⟨f, hf⟩ : ∃ f, build "f" 0 steps = .ok f := ⟨_, rfl⟩
  rw [hf] at hrun
  obtain ⟨hlen, hrest⟩ := Prod.mk.inj (Option.some.inj hrun)
  obtain ⟨hcalls, hrest⟩ := Prod.mk.inj hrest
  obtain ⟨hranges, hplace⟩ := Prod.mk.inj hrest
  obtain ⟨hexists, hsafe⟩ := place_respects_calls .x86 [X86.rax, X86.rbx] hf
  obtain ⟨a, ha⟩ := hexists (Nat.lt_of_le_of_lt (Nat.le_of_eq hlen) (by decide))
  have hplace' : (Except.toOption (.ok a : Except Fault Allocation)).map (·.get? ⟨2147483649⟩) =
      some (some X86.rbx) := ha ▸ hplace
  have hv := Option.some.inj hplace'
  obtain ⟨place, hget, hcross, -⟩ := hsafe a ha ⟨2147483649⟩ (by decide) ⟨1, 4, true⟩
    (hranges ▸ List.mem_singleton.2 rfl)
  cases hget.symm.trans hv
  exact ⟨f, a, hf, ha, hcalls, hranges, hv,
    (hcross ⟨2, hcalls ▸ List.mem_singleton.2 rfl, by decide⟩).2⟩

end Function

end MachineCode

import MachineCode.Proofs.ScanInvariant
import MachineCode.Target.RiscV

/-!
# Interference freedom

An allocation is free of interference if no physical register is asked to hold two values at once:
virtual registers with overlapping ranges have different registers, and a virtual register stays
clear of the ranges in which the code itself uses the register that it was given.

`Liveness.allocate_interferenceFree`: whatever was recorded, and whatever registers may be handed
out, the allocator succeeds and its allocation is free of interference; along the whole scan no
register is held twice. The facts come from the invariant of the scan (`Scan.Sound`), read at its
end; here they are only translated from intervals to ranges.
-/

namespace MachineCode

/-- A calling convention is checked on the lists that it is given by. -/
theorem RegisterFile.conventional_of_lists {rf : RegisterFile}
    (hcaller : ∀ r ∈ rf.callerSaved, r.isPhysical ∧ r ∉ rf.calleeSaved)
    (hcallee : ∀ r ∈ rf.calleeSaved, r.isPhysical) : rf.Conventional where
  physical_of_caller h := (hcaller _ (List.contains_iff_mem.1 h)).1
  physical_of_callee h := hcallee _ (List.contains_iff_mem.1 h)
  disjoint h h' := (hcaller _ (List.contains_iff_mem.1 h)).2 (List.contains_iff_mem.1 h')

/-- Both machines have a calling convention that the allocator can rely on. -/
theorem TargetKind.conventional (k : TargetKind) (allocatable : List Register) :
    (k.target.withAllocatable allocatable).toRegisterFile.Conventional := by
  cases k with
  | x86 =>
    have hcaller : ∀ r ∈ X86.registerFile.callerSaved,
        r.isPhysical ∧ r ∉ X86.registerFile.calleeSaved := by decide
    have hcallee : ∀ r ∈ X86.registerFile.calleeSaved, r.isPhysical := by decide
    exact RegisterFile.conventional_of_lists hcaller hcallee
  | riscV =>
    have hcaller : ∀ r ∈ RiscV.registerFile.callerSaved,
        r.isPhysical ∧ r ∉ RiscV.registerFile.calleeSaved := by decide
    have hcallee : ∀ r ∈ RiscV.registerFile.calleeSaved, r.isPhysical := by decide
    exact RegisterFile.conventional_of_lists hcaller hcallee

/-- No physical register is asked to hold two values at once. -/
structure Allocation.InterferenceFree (l : Liveness) (a : Allocation) : Prop where
  /-- Virtual registers with overlapping ranges do not share a register. -/
  virtual : ∀ v w, v.isVirtual → w.isVirtual → v ≠ w →
    ∀ x ∈ l.ranges v, ∀ y ∈ l.ranges w, x.overlaps y →
      ∀ r, r.isPhysical → a.get? v = some r → a.get? w ≠ some r
  /-- A virtual register stays clear of the ranges of the register that it was given. -/
  fixed : ∀ v r, v.isVirtual → r.isPhysical → a.get? v = some r →
    ∀ x ∈ l.ranges v, ∀ y ∈ l.ranges r, ¬ x.overlaps y

namespace Liveness

variable {rf : RegisterFile} {l : Liveness} {a : Allocation}

/-- An allocation is the outcome of a scan that ended in its invariant. -/
theorem exists_sound_of_allocate (hl : l.WellFormed) (hrf : rf.Conventional)
    (h : l.allocate rf = .ok a) :
    ∃ p s, a = Scan.allocation s ∧ s.Sound rf l.fixedIntervals l.virtualIntervals p := by
  obtain ⟨s, hs, rfl⟩ := map_eq_ok.1 h
  obtain ⟨p, hsound, -⟩ := Scan.soundUpTo_of_run hrf l.pairwise_virtualIntervals
    hl.nodup_virtualIntervals hs
  exact ⟨p, s, rfl, hsound⟩

/-- **What the allocator gives out does not interfere.** -/
theorem interferenceFree_of_allocate (hl : l.WellFormed) (hrf : rf.Conventional)
    (h : l.allocate rf = .ok a) : a.InterferenceFree l := by
  obtain ⟨p, s, rfl, hsound⟩ := exists_sound_of_allocate hl hrf h
  constructor
  · intro v w hv hw hne x hx y hy hov r hr hvr hwr
    exact hsound.disjoint ⟨v, x⟩ (mem_virtualIntervals.2 ⟨hv, hx⟩) ⟨w, y⟩
      (mem_virtualIntervals.2 ⟨hw, hy⟩) hne r hr hvr hwr hov
  · intro v r hv hr hvr x hx y hy hov
    rcases hsound.place ⟨v, x⟩ (mem_virtualIntervals.2 ⟨hv, hx⟩) r hvr with
      ⟨n, -, hn⟩ | ⟨-, hel, -⟩
    · exact Register.not_isStackSlot_of_isPhysical hr (Register.isStackSlot_slot? hn)
    · refine (Scan.eligible_iff.1 hel).2 ⟨r, y⟩ (mem_fixedIntervals.2 ⟨hr, hy⟩) rfl ?_
      rw [Interval.overlaps, LiveRange.overlaps_comm]
      exact hov

/-- The allocator succeeds if there are stack slots enough for all virtual registers. -/
theorem exists_allocate (hl : l.WellFormed) (hrf : rf.Conventional)
    (hcount : l.virtualRegisters.length ≤ Nat.pow 2 30) : ∃ a, l.allocate rf = .ok a := by
  obtain ⟨s, hs, -⟩ := Scan.exists_run hrf l.pairwise_virtualIntervals
    hl.nodup_virtualIntervals l.fixedIntervals (by rw [hl.length_virtualIntervals]; exact hcount)
  exact ⟨s.allocation, map_eq_ok.2 ⟨s, hs, rfl⟩⟩

/-- At every stage of the scan the registers of the active intervals are pairwise different. -/
theorem exists_run_take (hl : l.WellFormed) (hrf : rf.Conventional)
    (hcount : l.virtualRegisters.length ≤ Nat.pow 2 30) (n : Nat) :
    ∃ s, Scan.run rf l.fixedIntervals (l.virtualIntervals.take n) = .ok s ∧
      (s.active.map (·.reg)).Nodup := by
  have hsub := List.take_sublist n l.virtualIntervals
  obtain ⟨s, hs, p, hsound, -⟩ := Scan.exists_run hrf
    (l.pairwise_virtualIntervals.sublist hsub) (hl.nodup_virtualIntervals.sublist (hsub.map _))
    l.fixedIntervals (by
      have := hsub.length_le
      rw [hl.length_virtualIntervals] at this
      omega)
  exact ⟨s, hs, hsound.nodup⟩

/-- **Interference freedom.** Whatever uses and calls are recorded, on either machine and with any
list of registers to hand out: the allocator gives an allocation that is free of interference, and
at every stage of its scan no two active intervals hold the same register. -/
theorem allocate_interferenceFree (k : TargetKind) (allocatable : List Register)
    (events : List Event) (hfits : ∀ e ∈ events, e.Fits) :
    ∃ l, record events = .ok l ∧ (l.virtualRegisters.length < Nat.pow 2 30 →
      (∃ a, l.allocate (k.target.withAllocatable allocatable).toRegisterFile = .ok a ∧
        a.InterferenceFree l) ∧
      ∀ n, ∃ s, Scan.run (k.target.withAllocatable allocatable).toRegisterFile l.fixedIntervals
        (l.virtualIntervals.take n) = .ok s ∧ (s.active.map (·.reg)).Nodup) := by
  have hrf := k.conventional allocatable
  obtain ⟨l, hrec, hl⟩ := exists_record hfits
  refine ⟨l, hrec, fun hcount ↦ ⟨?_, fun n ↦ exists_run_take hl hrf (Nat.le_of_lt hcount) n⟩⟩
  obtain ⟨a, ha⟩ := exists_allocate hl hrf (Nat.le_of_lt hcount)
  exact ⟨a, ha, interferenceFree_of_allocate hl hrf ha⟩

/-- At an eviction: the second register ends first and takes over the register of the first. -/
theorem allocate_interferenceFree_eviction :
    let events := [Event.use ⟨2147483648⟩ 0, .use ⟨2147483649⟩ 1, .use X86.rax 2, .call 2,
      .use ⟨2147483649⟩ 3, .use ⟨2147483648⟩ 9]
    let rf := (TargetKind.x86.target.withAllocatable
      [⟨2147483650⟩, X86.rbx, X86.rbx, X86.rax]).toRegisterFile
    ∃ l a, record events = .ok l ∧ l.allocate rf = .ok a ∧ a.InterferenceFree l ∧
      a.get? ⟨2147483648⟩ = Register.slot? 0 ∧ a.get? ⟨2147483649⟩ = some X86.rbx := by
  intro events rf
  obtain ⟨l, hl, h⟩ := allocate_interferenceFree .x86 [⟨2147483650⟩, X86.rbx, X86.rbx, X86.rax]
    events (by simp [events, Event.Fits, Unsigned32.bound])
  have hcount : (record events).toOption.map (·.virtualRegisters.length) = some 2 := by decide
  have hplaces : ((record events).toOption.bind fun l ↦ (l.allocate rf).toOption.map fun a ↦
      (a.get? ⟨2147483648⟩, a.get? ⟨2147483649⟩)) = some (Register.slot? 0, some X86.rbx) := by
    decide
  rw [hl] at hcount hplaces
  have hlen : l.virtualRegisters.length = 2 := Option.some.inj hcount
  obtain ⟨⟨a, ha, hfree⟩, -⟩ := h (by rw [hlen]; decide)
  have hplaces' : (Except.toOption (.ok a : Except Fault Allocation)).map (fun a ↦
      (a.get? ⟨2147483648⟩, a.get? ⟨2147483649⟩)) = some (Register.slot? 0, some X86.rbx) :=
    ha ▸ hplaces
  obtain ⟨hfirst, hsecond⟩ := Prod.mk.inj (Option.some.inj hplaces')
  exact ⟨l, a, hl, ha, hfree, hfirst, hsecond⟩

end Liveness

end MachineCode

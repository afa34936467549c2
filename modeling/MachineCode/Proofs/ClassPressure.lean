import MachineCode.Proofs.SpillMinimality

/-!
# A class with registers enough

The allocator may give an interval a register that the code uses itself, as long as the two are
apart, and takes the first one that fits. So it is not clear from the number of registers how many
intervals can be served. But if at no point there are more intervals of a saving class than there
are registers of this class that the code leaves alone, then none of them goes to the stack
(`Liveness.allocate_keeps_class`), whatever the other class does.

For an interval of the class there is always a free register (`Scan.Sound.acrossCall_ne`): those
that hold one are live where it starts, so they are less than the registers that the code leaves
alone, and each holds one register. And no interval of the other class takes a register away, since
it could not use it.
-/

namespace MachineCode

namespace Scan

variable {rf : RegisterFile} {fixed done rest : List Interval} {p : Nat} {s s' : Scan}
  {i : Interval} {across : Bool} {F : Finset Register}

/-! ### Free registers -/

/-- The registers belong to a saving class, and no interval of the code itself has one of them. -/
def Clear (rf : RegisterFile) (fixed : List Interval) (across : Bool) (F : Finset Register) :
    Prop :=
  ∀ r ∈ F, r ∈ rf.pool across ∧ ∀ f ∈ fixed, f.reg ≠ r

/-- At no point there are more than `n` intervals of a saving class. -/
def Uncrowded (l : List Interval) (across : Bool) (n : Nat) : Prop :=
  ∀ p, (l.countP fun j ↦ j.range.contains p && j.range.acrossCall == across) ≤ n

/-- A register that is clear of the code is eligible for every interval of its class. -/
theorem Clear.eligible (h : Clear rf fixed i.range.acrossCall F) {r : Register} (hr : r ∈ F) :
    eligible rf fixed r i := by
  obtain ⟨hpool, hapart⟩ := h r hr
  exact eligible_iff.2 ⟨(mem_pool.1 hpool).2, fun f hf heq ↦ absurd heq (hapart f hf)⟩

/-- The active intervals are different ones of those that are done. -/
theorem Sound.subperm_active (h : Sound rf fixed done p s) :
    (s.active.map (·.interval)).Subperm done := by
  refine List.Nodup.subperm ?_ fun j hj ↦ ?_
  · refine (List.Nodup.of_map _ h.nodup).map_on fun a ha b hb heq ↦ h.active_ext ha hb ?_
    have hplace := (h.active a ha).2.1
    rw [heq, (h.active b hb).2.1] at hplace
    exact (Option.some.inj hplace).symm
  · obtain ⟨a, ha, rfl⟩ := List.mem_map.1 hj
    exact (h.active a ha).1

/-- The active intervals of a class are live where the next interval starts. -/
theorem Sound.countP_active_le (h : Sound rf fixed done p s) (hp : p ≤ i.range.start)
    (hstart : ∀ j ∈ done, j.range.start ≤ i.range.start) (across : Bool) :
    ((s.expire i.range.start).active.countP fun a ↦ a.interval.range.acrossCall == across) ≤
      done.countP fun j ↦ j.range.contains i.range.start && j.range.acrossCall == across := by
  have hexp := h.expire hp
  have hlive : ∀ j ∈ (s.expire i.range.start).active.map (·.interval),
      j.range.contains i.range.start := by
    intro j hj
    obtain ⟨a, ha, rfl⟩ := List.mem_map.1 hj
    exact LiveRange.contains_iff.2
      ⟨hstart _ (hexp.active a ha).1, (mem_active_expire.1 ha).2⟩
  calc ((s.expire i.range.start).active.countP fun a ↦ a.interval.range.acrossCall == across)
      = ((s.expire i.range.start).active.map (·.interval)).countP fun j ↦
          j.range.acrossCall == across := by rw [List.countP_map]; rfl
    _ = ((s.expire i.range.start).active.map (·.interval)).countP fun j ↦
          j.range.contains i.range.start && j.range.acrossCall == across := by
        refine List.countP_congr fun j hj ↦ ?_
        rw [hlive j hj, Bool.true_and]
    _ ≤ done.countP fun j ↦ j.range.contains i.range.start && j.range.acrossCall == across :=
        hexp.subperm_active.countP_le _

/-- **Only an interval of the other class finds no free register.** -/
theorem Sound.acrossCall_ne (h : Sound rf fixed done p s) (hrf : rf.Conventional)
    (hp : p ≤ i.range.start) (hstart : ∀ j ∈ done, j.range.start ≤ i.range.start)
    (hpoint : i.range.start < i.range.stop) (hclear : Clear rf fixed across F)
    (hroom : Uncrowded (done ++ i :: rest) across F.card)
    (hfree : freeRegister? rf fixed (s.expire i.range.start) i = none) :
    i.range.acrossCall ≠ across := by
  rintro rfl
  have hheld := (h.expire hp).card_le_countP hrf hfree (F := F) fun r hr ↦
    ⟨(Scan.mem_pool.1 (hclear r hr).1).1, hclear.eligible hr⟩
  have hlive := h.countP_active_le hp hstart i.range.acrossCall
  -- with the next interval there are more of its class than there may be
  have hcrowd := hroom i.range.start
  rw [List.countP_append, List.countP_cons_of_pos (by simp [LiveRange.contains, hpoint])] at hcrowd
  omega

/-! ### The scan -/

/-- The intervals of the class have registers, and all slots are for the other class. -/
structure Keeps (across : Bool) (done : List Interval) (s : Scan) : Prop where
  physical : ∀ j ∈ done, j.range.acrossCall = across →
    ∃ r, s.places.get? j.reg = some r ∧ r.isPhysical
  slots_le : s.slots ≤ done.countP fun j ↦ j.range.acrossCall != across

theorem keeps_nil : Keeps across [] {} := ⟨nofun, Nat.le_refl 0⟩

/-- A register for the next interval. -/
theorem Keeps.activate (h : Keeps across done s) (hfresh : ∀ j ∈ done, j.reg ≠ i.reg)
    {r : Register} (hr : r.isPhysical) (hslots : s'.slots = s.slots)
    (hplaces : s'.places = s.places.insert i.reg r) : Keeps across (done ++ [i]) s' where
  physical := by
    rw [List.forall_mem_append, List.forall_mem_singleton, hplaces]
    refine ⟨fun j hj hclass ↦ ?_, fun _ ↦ ⟨r, ?_, hr⟩⟩
    · rw [get?_insert_of_mem hfresh s.places r hj]
      exact h.physical j hj hclass
    · rw [RegisterMap.get?_insert, if_pos rfl]
  slots_le := by
    rw [hslots, List.countP_append]
    exact Nat.le_add_right_of_le h.slots_le

/-- A slot for an interval of the other class. -/
theorem Keeps.concat (h : Keeps across done s) (hi : i.range.acrossCall ≠ across)
    (hslots : s'.slots = s.slots + 1)
    (hplaces : ∀ j ∈ done, j.range.acrossCall = across →
      s'.places.get? j.reg = s.places.get? j.reg) : Keeps across (done ++ [i]) s' where
  physical := by
    rw [List.forall_mem_append, List.forall_mem_singleton]
    refine ⟨fun j hj hclass ↦ ?_, fun hclass ↦ absurd hclass hi⟩
    rw [hplaces j hj hclass]
    exact h.physical j hj hclass
  slots_le := by
    have hle := h.slots_le
    rw [hslots, List.countP_append, List.countP_singleton, if_pos (bne_iff_ne.2 hi)]
    omega

/-- **A step keeps the class in registers.** -/
theorem Keeps.step (h : Keeps across done s) (hrf : rf.Conventional)
    (hsound : Sound rf fixed done p s) (hp : p ≤ i.range.start)
    (hnodup : ((done ++ i :: rest).map (·.reg)).Nodup)
    (hother : freeRegister? rf fixed (s.expire i.range.start) i = none →
      i.range.acrossCall ≠ across)
    (hstep : step rf fixed s i = .ok s') : Keeps across (done ++ [i]) s' := by
  have hfresh := reg_ne_of_nodup hnodup
  rcases step_eq_ok hstep with ⟨r, hfree, hslots, -, hplaces⟩ |
    ⟨hfree, hslots, slot, -, ⟨a, hvictim, -, hplaces⟩ | ⟨-, -, hplaces⟩⟩
  · obtain ⟨-, -, hel⟩ := mem_of_freeRegister? hfree
    exact h.activate hfresh (isPhysical_of_eligible hrf hel) hslots hplaces
  · refine h.concat (hother hfree) hslots fun j hj hclass ↦ ?_
    obtain ⟨ha, hel⟩ := mem_of_victim? hvictim
    obtain ⟨hdone, -, hel'⟩ := (hsound.expire hp).active a ha
    -- the interval that gives way is of the class of the next one
    have hne : a.interval.reg ≠ j.reg := by
      intro heq
      have hsame := List.inj_on_of_nodup_map hnodup (List.mem_append_left _ hdone)
        (List.mem_append_left _ hj) heq
      rw [hsame] at hel'
      exact hother hfree ((acrossCall_eq_of_eligible hrf hel hel').trans hclass)
    rw [hplaces, get?_insert_of_mem hfresh _ _ hj, RegisterMap.get?_insert, if_neg hne]
  · refine h.concat (hother hfree) hslots fun j hj _ ↦ ?_
    rw [hplaces, get?_insert_of_mem hfresh _ _ hj]

/-- **A scan keeps the class in registers**, and runs out of slots only if the other class has more
intervals than there are slots. -/
theorem run_keeps {l : List Interval} (hrf : rf.Conventional)
    (hsorted : l.Pairwise fun a b ↦ a.range.start ≤ b.range.start)
    (hnodup : (l.map (·.reg)).Nodup) (hpoint : ∀ j ∈ l, j.range.start < j.range.stop)
    (hclear : Clear rf fixed across F) (hroom : Uncrowded l across F.card) :
    (∃ s, run rf fixed l = .ok s ∧ Keeps across l s) ∨
      run rf fixed l = .error .slotRange ∧
        Nat.pow 2 30 < l.countP fun j ↦ j.range.acrossCall != across := by
  -- an interval without a free register is of the other class
  have hother : ∀ {done i rest s}, l = done ++ i :: rest → SoundUpTo rf fixed done s →
      freeRegister? rf fixed (s.expire i.range.start) i = none → i.range.acrossCall ≠ across := by
    intro done i rest s hl hup hfree
    obtain ⟨p, hsound, -, hp⟩ := hup.exists_sound (hl ▸ hsorted)
    exact hsound.acrossCall_ne hrf hp (start_le_of_pairwise (hl ▸ hsorted))
      (hpoint i (by simp [hl])) hclear (hl ▸ hroom) hfree
  have hcases := run_cases hrf hsorted hnodup fixed (Keeps across) keeps_nil
    fun done i rest s s' hl hup hkeeps hstep ↦ by
      obtain ⟨p, hsound, -, hp⟩ := hup.exists_sound (hl ▸ hsorted)
      exact hkeeps.step hrf hsound hp (hl ▸ hnodup) (hother hl hup) hstep
  rcases hcases with ⟨s, hrun, -, hkeeps⟩ |
    ⟨done, i, rest, s, hl, hup, hkeeps, hstep, hnone, hrun⟩
  · exact Or.inl ⟨s, hrun, hkeeps⟩
  · refine Or.inr ⟨hrun, ?_⟩
    have hi := hother hl hup (freeRegister?_of_slotRange hstep)
    have hslots := hkeeps.slots_le
    have hlast := Register.le_of_slot?_eq_none hnone
    rw [hl, List.countP_append, List.countP_cons_of_pos (by simpa using hi)]
    omega

end Scan

namespace Liveness

variable {rf : RegisterFile} {l : Liveness}

/-- The virtual registers of a saving class: those whose range is across a call, or the others. -/
def ofClass (l : Liveness) (across : Bool) : Finset Register :=
  l.vregs.filter fun v ↦ (l.ranges v).any fun x ↦ x.acrossCall == across

/-- The registers to hand out for a saving class that the code does not use itself. -/
def clearPool (l : Liveness) (rf : RegisterFile) (across : Bool) : Finset Register :=
  (rf.pool across).filter fun r ↦ l.ranges r = []

/-- A virtual register is in a class if one of its ranges is. -/
theorem mem_ofClass {across : Bool} {v : Register} :
    v ∈ l.ofClass across ↔ v.isVirtual ∧ ∃ x ∈ l.ranges v, x.acrossCall = across := by
  simp only [ofClass, Finset.mem_filter, List.any_eq_true, beq_iff_eq]
  constructor
  · rintro ⟨hv, hx⟩
    exact ⟨(mem_vregs.1 hv).1, hx⟩
  · rintro ⟨hv, x, hx, hclass⟩
    exact ⟨mem_vregs_of_mem_ranges hv hx, x, hx, hclass⟩

/-- The registers that the code does not use are clear of its intervals. -/
theorem clear_clearPool (across : Bool) :
    Scan.Clear rf l.fixedIntervals across (l.clearPool rf across) := by
  intro r hr
  obtain ⟨hpool, hunused⟩ := Finset.mem_filter.1 hr
  refine ⟨hpool, ?_⟩
  rintro f hf rfl
  have hrange := (mem_fixedIntervals.1 hf).2
  rw [hunused] at hrange
  cases hrange

/-- Intervals of virtual registers are counted by their registers. -/
theorem WellFormed.uncrowded_iff (hl : l.WellFormed) {across : Bool} {n : Nat} :
    Scan.Uncrowded l.virtualIntervals across n ↔ ∀ p, (l.liveAt across p).card ≤ n := by
  refine forall_congr' fun p ↦ ?_
  rw [hl.countP_eq_card]
  intro v
  simp only [mem_liveAt, mem_virtualIntervals, Bool.and_eq_true, beq_iff_eq]
  constructor
  · rintro ⟨hv, x, hx, hlive⟩
    exact ⟨⟨v, x⟩, ⟨hv, hx⟩, hlive, rfl⟩
  · rintro ⟨i, ⟨hv, hx⟩, hlive, rfl⟩
    exact ⟨hv, i.range, hx, hlive⟩

/-- The intervals outside a class are those of the registers in the other class. -/
theorem WellFormed.countP_class (hl : l.WellFormed) (across : Bool) :
    (l.virtualIntervals.countP fun i ↦ i.range.acrossCall != across) =
      (l.ofClass !across).card := by
  refine hl.countP_eq_card fun v ↦ ?_
  simp only [mem_ofClass, mem_virtualIntervals, bne_iff_ne, ← Bool.eq_not]
  constructor
  · rintro ⟨hv, x, hx, hclass⟩
    exact ⟨⟨v, x⟩, ⟨hv, hx⟩, hclass, rfl⟩
  · rintro ⟨i, ⟨hv, hx⟩, hclass, rfl⟩
    exact ⟨hv, i.range, hx, hclass⟩

/-- **No needless spill.** Whatever was recorded, on either machine and with any list of registers
to hand out: if at no point there are more live virtual registers of a saving class than there are
registers to hand out for this class that the code does not use itself, then the allocator puts all
virtual registers of the class into registers, whatever the other class and the other registers are
used for. It fails only if the other class has more virtual registers than there are stack slots. -/
theorem allocate_keeps_class (k : TargetKind) (allocatable : List Register) {events : List Event}
    {l : Liveness} (hrec : record events = .ok l) {across : Bool}
    (hroom : ∀ p, (l.liveAt across p).card ≤
      (l.clearPool (k.target.withAllocatable allocatable).toRegisterFile across).card) :
    (∀ a, l.allocate (k.target.withAllocatable allocatable).toRegisterFile = .ok a →
      ∀ v ∈ l.ofClass across, ∃ r, a.get? v = some r ∧ r.isPhysical ∧
        r ∈ (k.target.withAllocatable allocatable).toRegisterFile.pool across) ∧
    ((l.ofClass !across).card ≤ Nat.pow 2 30 →
      ∃ a, l.allocate (k.target.withAllocatable allocatable).toRegisterFile = .ok a) := by
  have hrf := k.conventional allocatable
  have hl := wellFormed_of_record hrec
  have hpoint : ∀ j ∈ l.virtualIntervals, j.range.start < j.range.stop := by
    intro j hj
    obtain ⟨hv, hrange⟩ := mem_virtualIntervals.1 hj
    exact hl.start_lt_stop hv hrange
  have hcases := Scan.run_keeps hrf l.pairwise_virtualIntervals hl.nodup_virtualIntervals hpoint
    (clear_clearPool across) (hl.uncrowded_iff.2 hroom)
  rw [hl.countP_class] at hcases
  constructor
  · intro a ha v hv
    obtain ⟨hvirtual, x, hx, rfl⟩ := mem_ofClass.1 hv
    obtain ⟨r, hr, hplace⟩ := exists_place hl hrf ha hvirtual hx
    obtain ⟨s, hs, rfl⟩ := map_eq_ok.1 ha
    rcases hcases with ⟨s', hrun, hkeeps⟩ | ⟨herror, -⟩
    · cases hs.symm.trans hrun
      obtain ⟨q, hq, hphys⟩ := hkeeps.physical ⟨v, x⟩ (mem_virtualIntervals.2 ⟨hvirtual, hx⟩) rfl
      obtain rfl : r = q := Option.some.inj (hr.symm.trans hq)
      rcases hplace with ⟨n, -, hslot⟩ | ⟨halloc, -, hclass⟩
      · exact absurd (Register.isStackSlot_slot? hslot)
          (Register.not_isStackSlot_of_isPhysical hphys)
      · exact ⟨r, hr, hphys, Scan.mem_pool.2 ⟨halloc, by simpa using hclass⟩⟩
    · cases hs.symm.trans herror
  · intro hcard
    rcases hcases with ⟨s, hrun, -⟩ | ⟨-, hlt⟩
    · exact ⟨_, map_eq_ok.2 ⟨s, hrun, rfl⟩⟩
    · omega

/-- One value at a time without a call, and one register for it that the code does not use. The
first value gets the other register, before the code uses it. Meanwhile two values across a call
compete for one register, and an eviction sends one of them to the stack. -/
theorem allocate_keeps_class_blocked :
    let events := [Event.use ⟨2147483648⟩ 0, .use ⟨2147483649⟩ 1, .call 2,
      .use ⟨2147483649⟩ 4, .use ⟨2147483650⟩ 5, .use ⟨2147483648⟩ 5, .use ⟨2147483650⟩ 6,
      .use ⟨2147483651⟩ 8, .use X86.rax 9, .use ⟨2147483651⟩ 10]
    let rf := (TargetKind.x86.target.withAllocatable [X86.rax, X86.rcx, X86.rbx]).toRegisterFile
    ∃ l a, record events = .ok l ∧ l.clearPool rf false = {X86.rcx} ∧
      (∀ p, (l.liveAt false p).card ≤ 1) ∧ l.allocate rf = .ok a ∧ a.spillCount = 1 ∧
      a.get? ⟨2147483650⟩ = some X86.rax ∧
      ∀ v ∈ l.ofClass false, ∃ r, a.get? v = some r ∧ r.isPhysical ∧ r ∈ rf.pool false := by
  intro events rf
  have hfits : ∀ e ∈ events, e.Fits := by simp [events, Event.Fits, Unsigned32.bound]
  obtain ⟨l, hl, hwf⟩ := exists_record hfits
  have hrecord : (record events).toOption.map (fun l ↦
      (l.virtualIntervals, l.ranges X86.rax, l.ranges X86.rcx)) =
      some ([⟨⟨2147483648⟩, 0, 6, true⟩, ⟨⟨2147483649⟩, 1, 5, true⟩, ⟨⟨2147483650⟩, 5, 7, false⟩,
        ⟨⟨2147483651⟩, 8, 11, false⟩], [⟨9, 10, false⟩], []) := by decide
  have hrun : ((record events).toOption.bind fun l ↦ (l.allocate rf).toOption.map fun a ↦
      (a.spillCount, a.get? ⟨2147483650⟩)) = some (1, some X86.rax) := by decide
  rw [hl] at hrecord hrun
  obtain ⟨hintervals, hranges⟩ := Prod.mk.inj (Option.some.inj hrecord)
  obtain ⟨hrax, hrcx⟩ := Prod.mk.inj hranges
  obtain ⟨a, ha, hcounts⟩ := Option.map_eq_some_iff.1 hrun
  obtain ⟨hcount, hplace⟩ := Prod.mk.inj hcounts
  rw [toOption_eq_some] at ha
  have hpool : rf.pool false = {X86.rax, X86.rcx} := by decide
  have hclear : l.clearPool rf false = {X86.rcx} := by
    rw [clearPool, hpool, Finset.filter_insert, Finset.filter_singleton, hrax, hrcx]
    rfl
  have hlive : ∀ p, (l.liveAt false p).card ≤ 1 := by
    refine hwf.uncrowded_iff.1 fun p ↦ ?_
    rw [hintervals]
    simp only [List.countP_cons, List.countP_nil, LiveRange.contains, Bool.and_eq_true,
      decide_eq_true_eq, beq_iff_eq, reduceCtorEq, and_false, and_true, if_false]
    split_ifs <;> omega
  refine ⟨l, a, hl, hclear, hlive, ha, hcount, hplace, ?_⟩
  refine (allocate_keeps_class .x86 [X86.rax, X86.rcx, X86.rbx] hl fun p ↦ ?_).1 a ha
  show _ ≤ (l.clearPool rf false).card
  rw [hclear]
  exact hlive p

end Liveness

end MachineCode

import MachineCode.Proofs.CallSafety
import Mathlib.Algebra.Group.Nat.Defs
import Mathlib.Data.Set.Function

/-!
# Stack slots

Whoever goes without a register gets the next stack slot, and keeps it to the end of the scan. This
happens at two places: an active interval is evicted, or the next interval finds no register. Both
are noted in the history, so the registers that were sent to the stack can be read off it in order
(`Scan.spills`). They account for all slots that were handed out (`Scan.Owned`): the `n`-th of them
got slot `n`, and has it still. So the register that an evicted interval had held is not its place
any more, and nobody was sent to the stack twice.

With the invariant of the places (`Scan.Sound`) this makes allocations total and exact
(`Liveness.allocate_total`): every virtual register of the record has a place and nothing else has
one, and the spilled registers are in bijection with the slots that are counted.

`Scan.step_eq_ok` says what a step that succeeds has done, in terms of the state in which the
intervals that are over have expired.
-/

namespace MachineCode

/-- The register that a decision sends to the stack, and its slot. -/
def Decision.spill? : Decision → Option (Register × Register)
  | expired _ _ => none
  | assigned _ _ => none
  | evicted victim slot _ => some (victim.reg, slot)
  | spilled i slot => some (i.reg, slot)

namespace Scan

variable {rf : RegisterFile} {fixed done : List Interval} {p : Nat} {s s' : Scan} {i : Interval}

/-! ### The outcome of a step -/

/-- A slot that is handed out is the next one. -/
theorem newSlot_eq_ok {slot : Register} (h : s.newSlot = .ok (slot, s')) :
    Register.slot? s.slots = some slot ∧ s' = { s with slots := s.slots + 1 } := by
  cases hslot : Register.slot? s.slots with
  | none =>
    rw [newSlot_error hslot] at h
    cases h
  | some r =>
    rw [newSlot_eq hslot] at h
    cases h
    exact ⟨rfl, rfl⟩

/-- An interval that becomes active has its register as its place. -/
theorem activate_eq_ok {r : Register} (h : s.activate i r = .ok s') :
    s' = { s with active := s.active ++ [⟨i, r⟩], places := s.places.insert i.reg r } := by
  rw [Scan.activate] at h
  split at h
  · cases h
  · cases h
    rfl

/-- **What a step has done**: the interval has a free register, or somebody has the next stack slot.
This is an active interval, whose register the interval has taken over, or the interval itself. -/
theorem step_eq_ok (h : step rf fixed s i = .ok s') :
    (∃ r, freeRegister? rf fixed (s.expire i.range.start) i = some r ∧ s'.slots = s.slots ∧
      s'.active = (s.expire i.range.start).active ++ [⟨i, r⟩] ∧
      s'.places = s.places.insert i.reg r) ∨
    freeRegister? rf fixed (s.expire i.range.start) i = none ∧ s'.slots = s.slots + 1 ∧
      ∃ slot, Register.slot? s.slots = some slot ∧
      ((∃ a, victim? rf fixed (s.expire i.range.start) i = some a ∧
          s'.active = (s.expire i.range.start).active.erase a ++ [⟨i, a.reg⟩] ∧
          s'.places = (s.places.insert a.interval.reg slot).insert i.reg a.reg) ∨
        victim? rf fixed (s.expire i.range.start) i = none ∧
          s'.active = (s.expire i.range.start).active ∧
          s'.places = s.places.insert i.reg slot) := by
  rw [step] at h
  cases hfree : freeRegister? rf fixed (s.expire i.range.start) i with
  | some r =>
    simp only [hfree] at h
    cases activate_eq_ok h
    exact Or.inl ⟨r, rfl, rfl, rfl, rfl⟩
  | none =>
    refine Or.inr ⟨rfl, ?_⟩
    cases hvictim : victim? rf fixed (s.expire i.range.start) i with
    | some a =>
      simp only [hfree, hvictim] at h
      obtain ⟨⟨slot, s₁⟩, hnew, h⟩ := bind_eq_ok.1 h
      obtain ⟨hslot, rfl⟩ := newSlot_eq_ok hnew
      cases activate_eq_ok h
      exact ⟨rfl, slot, hslot, Or.inl ⟨a, rfl, rfl, rfl⟩⟩
    | none =>
      simp only [hfree, hvictim] at h
      obtain ⟨⟨slot, s₁⟩, hnew, h⟩ := bind_eq_ok.1 h
      obtain ⟨hslot, rfl⟩ := newSlot_eq_ok hnew
      cases h
      exact ⟨rfl, slot, hslot, Or.inr ⟨rfl, rfl, rfl⟩⟩

/-- Stack slots run out only where there is no free register. -/
theorem freeRegister?_of_slotRange (h : step rf fixed s i = .error .slotRange) :
    freeRegister? rf fixed (s.expire i.range.start) i = none := by
  cases hfree : freeRegister? rf fixed (s.expire i.range.start) i with
  | none => rfl
  | some r =>
    simp only [step, hfree] at h
    rw [Scan.activate] at h
    split at h <;> cases h

/-! ### What a step notes -/

/-- The registers that were sent to the stack and their slots, in order. -/
def spills (s : Scan) : List (Register × Register) := s.history.reverse.filterMap Decision.spill?

/-- A decision adds its spill to the history, if it is one. -/
theorem spills_note (s : Scan) (d : Decision) :
    (s.note d).spills = s.spills ++ d.spill?.toList := by
  rw [spills, note, List.reverse_cons, List.filterMap_append, spills]
  cases d <;> rfl

theorem spills_expire (s : Scan) (q : Nat) : (s.expire q).spills = s.spills := by
  have hnone : ∀ ended : List Active,
      (ended.map fun a ↦ Decision.expired a.interval.reg a.reg).filterMap Decision.spill? = [] := by
    intro ended
    simp [Decision.spill?]
  rw [spills, expire, List.reverse_append, List.reverse_reverse, List.filterMap_append, hnone,
    List.append_nil, spills]

/-- A register that was free costs no slot. -/
theorem spills_of_free {r : Register}
    (hfree : freeRegister? rf fixed (s.expire i.range.start) i = some r)
    (h : step rf fixed s i = .ok s') : s'.spills = s.spills := by
  simp only [step, hfree] at h
  rw [activate_eq_ok h]
  show ((s.expire i.range.start).note (.assigned i r)).spills = s.spills
  rw [spills_note, spills_expire]
  exact List.append_nil _

/-- An eviction sends the victim to the stack. -/
theorem spills_of_victim {a : Active} {slot : Register}
    (hfree : freeRegister? rf fixed (s.expire i.range.start) i = none)
    (hvictim : victim? rf fixed (s.expire i.range.start) i = some a)
    (hslot : Register.slot? s.slots = some slot) (h : step rf fixed s i = .ok s') :
    s'.spills = s.spills ++ [(a.interval.reg, slot)] := by
  simp only [step, hfree, hvictim] at h
  rw [evict, newSlot_eq (s := s.expire i.range.start) hslot] at h
  rw [activate_eq_ok h]
  show ((s.expire i.range.start).note (.evicted a.interval slot i.reg)).spills = _
  rw [spills_note, spills_expire]
  rfl

/-- Otherwise the next interval goes there itself. -/
theorem spills_of_spill {slot : Register}
    (hfree : freeRegister? rf fixed (s.expire i.range.start) i = none)
    (hvictim : victim? rf fixed (s.expire i.range.start) i = none)
    (hslot : Register.slot? s.slots = some slot) (h : step rf fixed s i = .ok s') :
    s'.spills = s.spills ++ [(i.reg, slot)] := by
  simp only [step, hfree, hvictim] at h
  rw [Scan.spill, newSlot_eq (s := s.expire i.range.start) hslot] at h
  cases h
  show ((s.expire i.range.start).note (.spilled i slot)).spills = _
  rw [spills_note, spills_expire]
  rfl

/-! ### Every slot has its owner -/

/-- The registers that were sent to the stack own the slots that were handed out, one each. -/
structure Owned (s : Scan) : Prop where
  length : s.spills.length = s.slots
  owner : ∀ n e, s.spills[n]? = some e →
    Register.slot? n = some e.2 ∧ s.places.get? e.1 = some e.2

theorem owned_empty : Owned {} where
  length := rfl
  owner _ _ h := nomatch h

/-- New places that leave the owners of slots alone. -/
theorem Owned.of_kept (h : s.Owned) (hspills : s'.spills = s.spills) (hslots : s'.slots = s.slots)
    (hkept : ∀ v slot, slot.isStackSlot → s.places.get? v = some slot →
      s'.places.get? v = some slot) : s'.Owned := by
  refine ⟨hspills ▸ hslots ▸ h.length, fun n e he ↦ ?_⟩
  obtain ⟨hslot, hplace⟩ := h.owner n e (hspills ▸ he)
  exact ⟨hslot, hkept _ _ (Register.isStackSlot_slot? hslot) hplace⟩

/-- The next slot gets an owner. -/
theorem Owned.concat (h : s.Owned) {v slot : Register} (hslot : Register.slot? s.slots = some slot)
    (hspills : s'.spills = s.spills ++ [(v, slot)]) (hslots : s'.slots = s.slots + 1)
    (hv : s'.places.get? v = some slot)
    (hkept : ∀ v slot, slot.isStackSlot → s.places.get? v = some slot →
      s'.places.get? v = some slot) : s'.Owned := by
  constructor
  · rw [hspills, List.length_append, h.length, hslots]
    rfl
  · intro n e he
    rw [hspills, List.getElem?_append] at he
    split at he
    · obtain ⟨hslot, hplace⟩ := h.owner n e he
      exact ⟨hslot, hkept _ _ (Register.isStackSlot_slot? hslot) hplace⟩
    · rename_i hn
      obtain ⟨hlt, rfl⟩ := List.getElem?_eq_some_iff.1 he
      rw [List.length_singleton, h.length] at hlt
      rw [h.length] at hn
      obtain rfl : n = s.slots := by omega
      simp only [List.getElem_singleton]
      exact ⟨hslot, hv⟩

/-- **A step keeps the owners of the slots**, since a register that holds a stack slot is neither
active nor the next one. -/
theorem Owned.step (h : s.Owned) (hsound : Sound rf fixed done p s) (hrf : rf.Conventional)
    (hfresh : ∀ j ∈ done, j.reg ≠ i.reg) (hstep : step rf fixed s i = .ok s') : s'.Owned := by
  have hnext : ∀ v r, s.places.get? v = some r → i.reg ≠ v := by
    rintro v r hv rfl
    obtain ⟨j, hj, hreg⟩ := (hsound.placed i.reg).1 (by rw [hv]; rfl)
    exact hfresh j hj hreg
  rcases step_eq_ok hstep with ⟨r, hfree, hslots, -, hplaces⟩ |
    ⟨hfree, hslots, slot, hslot, ⟨a, hvictim, -, hplaces⟩ | ⟨hvictim, -, hplaces⟩⟩
  · refine h.of_kept (spills_of_free hfree hstep) hslots fun v slot _ hv ↦ ?_
    rw [hplaces, RegisterMap.get?_insert, if_neg (hnext v slot hv), hv]
  -- the evicted register had a physical place, so no slot changes its owner
  · obtain ⟨hactive, -⟩ := mem_of_victim? hvictim
    obtain ⟨-, hplace, hel⟩ := hsound.active a (mem_active_expire.1 hactive).1
    refine h.concat hslot (spills_of_victim hfree hvictim hslot hstep) hslots ?_
      fun v slot' hslot' hv ↦ ?_
    · rw [hplaces, RegisterMap.get?_insert, if_neg (hnext _ _ hplace), RegisterMap.get?_insert,
        if_pos rfl]
    · have hother : a.interval.reg ≠ v := by
        rintro rfl
        cases hplace.symm.trans hv
        exact Register.not_isStackSlot_of_isPhysical (isPhysical_of_eligible hrf hel) hslot'
      rw [hplaces, RegisterMap.get?_insert, if_neg (hnext v slot' hv), RegisterMap.get?_insert,
        if_neg hother, hv]
  · refine h.concat hslot (spills_of_spill hfree hvictim hslot hstep) hslots ?_
      fun v slot' _ hv ↦ ?_
    · rw [hplaces, RegisterMap.get?_insert, if_pos rfl]
    · rw [hplaces, RegisterMap.get?_insert, if_neg (hnext v slot' hv), hv]

/-- **At the end of a scan every slot has its owner.** -/
theorem owned_of_run {l : List Interval} (hrf : rf.Conventional)
    (hsorted : l.Pairwise fun a b ↦ a.range.start ≤ b.range.start)
    (hnodup : (l.map (·.reg)).Nodup) (hrun : run rf fixed l = .ok s) : s.Owned := by
  have hcases := run_cases hrf hsorted hnodup fixed (fun _ s ↦ s.Owned) owned_empty ?_
  · rcases hcases with ⟨s', hok, -, howned⟩ | ⟨-, -, -, -, -, -, -, -, -, herror⟩
    · cases hrun.symm.trans hok
      exact howned
    · cases hrun.symm.trans herror
  · rintro done i rest s₁ s₂ rfl ⟨p, hsound, -⟩ howned hstep
    exact howned.step hsound hrf (reg_ne_of_nodup hnodup) hstep

end Scan

theorem Allocation.isSpilled_iff {a : Allocation} {v : Register} :
    a.isSpilled v ↔ ∃ place, a.get? v = some place ∧ place.isStackSlot :=
  Option.any_eq_true _ _

namespace Liveness

variable {rf : RegisterFile} {l : Liveness} {a : Allocation}

section Allocated

variable (hl : l.WellFormed) (hrf : rf.Conventional) (ha : l.allocate rf = .ok a)

include hl hrf ha

/-- Every slot that an allocation counts is the place of a virtual register. -/
theorem exists_slotOf? {n : Nat} (hn : n < a.spillCount) :
    ∃ v x, v.isVirtual ∧ x ∈ l.ranges v ∧ a.slotOf? v = some n := by
  obtain ⟨s, hs, rfl⟩ := map_eq_ok.1 ha
  have hsorted := l.pairwise_virtualIntervals
  have hnodup := hl.nodup_virtualIntervals
  obtain ⟨p, hsound, -⟩ := Scan.soundUpTo_of_run hrf hsorted hnodup hs
  have howned := Scan.owned_of_run hrf hsorted hnodup hs
  obtain ⟨⟨v, slot⟩, he⟩ : ∃ e, s.spills[n]? = some e :=
    ⟨_, List.getElem?_eq_getElem (Nat.lt_of_lt_of_eq hn howned.length.symm)⟩
  obtain ⟨hslot, hv⟩ := howned.owner n _ he
  obtain ⟨i, hi, rfl⟩ := (hsound.placed v).1 (by rw [hv]; rfl)
  obtain ⟨hvirtual, hrange⟩ := mem_virtualIntervals.1 hi
  refine ⟨i.reg, i.range, hvirtual, hrange, ?_⟩
  rw [Allocation.slotOf?, Option.bind_eq_some_iff]
  exact ⟨slot, hv, Register.slotIndex?_slot? hslot⟩

/-- What has a place is a virtual register of the record. -/
theorem exists_range_of_get? {v place : Register} (hv : a.get? v = some place) :
    v.isVirtual ∧ ∃ x, x ∈ l.ranges v := by
  obtain ⟨p, s, rfl, hsound⟩ := exists_sound_of_allocate hl hrf ha
  obtain ⟨i, hi, rfl⟩ := (hsound.placed v).1 (Option.isSome_iff_exists.2 ⟨place, hv⟩)
  obtain ⟨hvirtual, hrange⟩ := mem_virtualIntervals.1 hi
  exact ⟨hvirtual, i.range, hrange⟩

/-- A place is a stack slot that is counted, or a physical register that may be handed out. -/
theorem place_of_get? {v place : Register} (hv : a.get? v = some place) :
    (∃ n < a.spillCount, Register.slot? n = some place) ∨
      place ∈ rf.allocatable ∧ place.isPhysical := by
  obtain ⟨hvirtual, x, hx⟩ := exists_range_of_get? hl hrf ha hv
  obtain ⟨place', hplace', hcases⟩ := exists_place hl hrf ha hvirtual hx
  cases hv.symm.trans hplace'
  exact hcases.imp_right fun h ↦ ⟨h.1, h.2.1⟩

/-- A spilled register has one of the slots that were handed out. -/
theorem exists_slot_of_isSpilled {v : Register} (hv : a.isSpilled v) :
    ∃ n slot, n < a.spillCount ∧ Register.slot? n = some slot ∧ a.get? v = some slot ∧
      a.slotOf? v = some n := by
  obtain ⟨place, hplace, hstack⟩ := Allocation.isSpilled_iff.1 hv
  rcases place_of_get? hl hrf ha hplace with ⟨n, hn, hslot⟩ | ⟨-, hphys⟩
  · refine ⟨n, place, hn, hslot, hplace, ?_⟩
    exact Option.bind_eq_some_iff.2 ⟨place, hplace, Register.slotIndex?_slot? hslot⟩
  · exact absurd hstack (Register.not_isStackSlot_of_isPhysical hphys)

/-- **The spilled registers are in bijection with the slots that are counted.** -/
theorem bijOn_slotOf? :
    Set.BijOn a.slotOf? {v | a.isSpilled v} (some '' Set.Iio a.spillCount) := by
  refine ⟨fun v hv ↦ ?_, fun v hv w hw heq ↦ ?_, ?_⟩
  · obtain ⟨n, -, hn, -, -, hv⟩ := exists_slot_of_isSpilled hl hrf ha hv
    exact ⟨n, hn, hv.symm⟩
  · obtain ⟨n, slot, -, hslot, hplace, hv⟩ := exists_slot_of_isSpilled hl hrf ha hv
    obtain ⟨n', slot', -, hslot', hplace', hw⟩ := exists_slot_of_isSpilled hl hrf ha hw
    rw [hv, hw] at heq
    cases heq
    cases hslot.symm.trans hslot'
    obtain ⟨p, s, rfl, hsound⟩ := exists_sound_of_allocate hl hrf ha
    exact hsound.slot_inj v w slot (Register.isStackSlot_slot? hslot) hplace hplace'
  · rintro _ ⟨n, hn, rfl⟩
    obtain ⟨v, -, -, -, hslot⟩ := exists_slotOf? hl hrf ha hn
    obtain ⟨place, hplace, hindex⟩ := Option.bind_eq_some_iff.1 hslot
    refine ⟨v, Allocation.isSpilled_iff.2 ⟨place, hplace, ?_⟩, hslot⟩
    exact (Register.isStackSlot_of_slotIndex? hindex).1

end Allocated

/-- The table has an entry for a register that has a range, and for no other virtual register. -/
theorem WellFormed.get?_isSome_iff {l : Liveness} (hl : l.WellFormed) {v : Register}
    (hv : v.isVirtual) : (l.get? v).isSome ↔ ∃ x, x ∈ l.ranges v := by
  constructor
  · intro hsome
    obtain ⟨rs, hrs⟩ := Option.isSome_iff_exists.1 hsome
    obtain ⟨x, rfl, -⟩ := hl.single v rs hv hrs
    exact ⟨x, mem_ranges_iff.2 ⟨_, hrs, List.mem_singleton_self x⟩⟩
  · rintro ⟨x, hx⟩
    obtain ⟨rs, hrs, -⟩ := mem_ranges_iff.1 hx
    exact Option.isSome_iff_exists.2 ⟨rs, hrs⟩

/-- **The allocation is total and its slots are exact.** Let fewer than `2 ^ 30` virtual registers
be recorded, by any uses and calls. On either machine and with any list of registers to hand out,
the allocator gives an allocation, in which:

* exactly the virtual registers of the table have a place;
* a place is a physical register of the list, or a stack slot;
* the spilled registers are in bijection with the slots below the number of slots;
* the `n`-th register that the scan sent to the stack, be it evicted or not, is in slot `n`, and
  there are as many of them as slots. -/
theorem allocate_total (k : TargetKind) (allocatable : List Register) {events : List Event}
    {l : Liveness} (hrecord : record events = .ok l)
    (hcount : l.virtualRegisters.length < 2 ^ 30) :
    let rf := (k.target.withAllocatable allocatable).toRegisterFile
    ∃ s a, l.scan rf = .ok s ∧ l.allocate rf = .ok a ∧
      (∀ v, (a.get? v).isSome ↔ v.isVirtual ∧ (l.get? v).isSome) ∧
      (∀ v place, a.get? v = some place →
        place ∈ allocatable ∧ place.isPhysical ∨ place.isStackSlot) ∧
      Set.BijOn a.slotOf? {v | a.isSpilled v} (some '' Set.Iio a.spillCount) ∧
      (∀ n e, s.spills[n]? = some e → Register.slot? n = some e.2 ∧ a.get? e.1 = some e.2) ∧
      s.spills.length = a.spillCount := by
  intro rf
  have hl := wellFormed_of_record hrecord
  have hrf := k.conventional allocatable
  obtain ⟨a, ha⟩ := exists_allocate hl hrf (Nat.le_of_lt hcount)
  obtain ⟨s, hs, rfl⟩ := map_eq_ok.1 ha
  have howned := Scan.owned_of_run hrf l.pairwise_virtualIntervals hl.nodup_virtualIntervals hs
  refine ⟨s, s.allocation, hs, ha, fun v ↦ ⟨fun hv ↦ ?_, ?_⟩, fun v place hv ↦ ?_,
    bijOn_slotOf? hl hrf ha, howned.owner, howned.length⟩
  · obtain ⟨place, hplace⟩ := Option.isSome_iff_exists.1 hv
    obtain ⟨hvirtual, hrange⟩ := exists_range_of_get? hl hrf ha hplace
    exact ⟨hvirtual, (hl.get?_isSome_iff hvirtual).2 hrange⟩
  · rintro ⟨hvirtual, hsome⟩
    obtain ⟨x, hx⟩ := (hl.get?_isSome_iff hvirtual).1 hsome
    obtain ⟨place, hplace, -⟩ := exists_place hl hrf ha hvirtual hx
    exact Option.isSome_iff_exists.2 ⟨place, hplace⟩
  · rcases place_of_get? hl hrf ha hv with ⟨n, -, hslot⟩ | hplace
    · exact Or.inr (Register.isStackSlot_slot? hslot)
    · exact Or.inl hplace

/-- At an eviction: the first register goes to slot `0` when the second one takes over its physical
register, and the third one goes to slot `1` itself. -/
theorem allocate_total_eviction :
    let events := [Event.use ⟨2147483648⟩ 0, .use ⟨2147483649⟩ 1, .use ⟨2147483650⟩ 2, .call 2,
      .use ⟨2147483649⟩ 3, .use ⟨2147483648⟩ 9, .use ⟨2147483650⟩ 12]
    let rf := (TargetKind.x86.target.withAllocatable
      [⟨2147483650⟩, X86.rbx, X86.rbx]).toRegisterFile
    ∃ l s a, record events = .ok l ∧ l.virtualRegisters.length < 2 ^ 30 ∧ l.scan rf = .ok s ∧
      l.allocate rf = .ok a ∧ a.spillCount = 2 ∧
      s.spills.map (·.1) = [⟨2147483648⟩, ⟨2147483650⟩] ∧
      a.get? ⟨2147483648⟩ = Register.slot? 0 ∧ a.get? ⟨2147483650⟩ = Register.slot? 1 ∧
      Set.BijOn a.slotOf? {v | a.isSpilled v} (some '' Set.Iio 2) := by
  intro events rf
  obtain ⟨l, hl⟩ : ∃ l, record events = .ok l := ⟨_, rfl⟩
  have hcount : (record events).toOption.map (·.virtualRegisters.length) = some 3 := by decide
  have hspills : ((record events).toOption.bind fun l ↦ (l.scan rf).toOption.map fun s ↦
      s.spills.map (·.1)) = some [⟨2147483648⟩, ⟨2147483650⟩] := by decide
  rw [hl] at hcount hspills
  have hlen : l.virtualRegisters.length < 2 ^ 30 :=
    Nat.lt_of_le_of_lt (Nat.le_of_eq (Option.some.inj hcount)) (by decide)
  obtain ⟨s, a, hs, ha, -, -, hbij, howner, hlength⟩ :=
    allocate_total .x86 [⟨2147483650⟩, X86.rbx, X86.rbx] hl hlen
  have hspills' : (Except.toOption (.ok s : Except Fault Scan)).map (fun s ↦ s.spills.map (·.1)) =
      some [⟨2147483648⟩, ⟨2147483650⟩] := hs ▸ hspills
  have hregs : s.spills.map (·.1) = [⟨2147483648⟩, ⟨2147483650⟩] := Option.some.inj hspills'
  have hspillCount : a.spillCount = 2 := by
    rw [← hlength, ← List.length_map (·.1), hregs]
    rfl
  -- the owner of slot `n` is the `n`-th register that was sent to the stack
  have hplace : ∀ n v, (s.spills.map (·.1))[n]? = some v → a.get? v = Register.slot? n := by
    intro n v hv
    rw [List.getElem?_map] at hv
    obtain ⟨e, he, rfl⟩ := Option.map_eq_some_iff.1 hv
    obtain ⟨hslot, hplace⟩ := howner n e he
    rw [hplace, hslot]
  rw [hspillCount] at hbij
  exact ⟨l, s, a, hl, hlen, hs, ha, hspillCount, hregs, hplace 0 _ (by rw [hregs]; rfl),
    hplace 1 _ (by rw [hregs]; rfl), hbij⟩

end Liveness

end MachineCode

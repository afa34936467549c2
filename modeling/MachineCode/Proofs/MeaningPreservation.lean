import MachineCode.Proofs.CallSafety
import MachineCode.Proofs.SpillTransparency

/-!
# Compilation preserves meaning

A compiled function does what its source does: running the body of the compiled code makes every
source instruction read the same values, and have the same effect on the memory outside the slots,
as running the source with an unbounded file of virtual registers.

The proof is a simulation along the source (`Related.step`, `agrees_of_related`). At each point the
two states agree on the frame pointer and on the memory outside the slots, and the place of every
virtual register that is written and still live holds its value (`Related`). What keeps this true
comes from four sides:

* a virtual register is live wherever it is named, and a value that is live at a point was live
  there before (`Recorded.covers`, `Related.past`);
* no register is the place of two live values, and no slot the place of two registers
  (`Allocation.Faithful`);
* a value that is live at a call is not in a register that the call changes
  (`Allocation.Faithful.saved`);
* the block of an instruction does what the instruction does with its assigned registers
  (`transparent_block`), which does what the source instruction does (`Lawful.mirrors`).
-/

namespace MachineCode

open Machine

variable {Op : Type} {t : Target Op} {a : Allocation} {live : Liveness}

/-! ### What the allocator guarantees -/

/-- The places of an allocation can stand for the virtual registers of a function. -/
structure Allocation.Faithful (t : Target Op) (live : Liveness) (a : Allocation) : Prop where
  place : ∀ v place, a.get? v = some place → place.isStackSlot ∨ place ∈ t.allocatable
  /-- Live values do not share a physical register. -/
  apart : ∀ v w r p, v.isVirtual → w.isVirtual → live.Covers v p → live.Covers w p →
    r.isPhysical → a.get? v = some r → a.get? w = some r → v = w
  slots : a.DistinctSlots
  /-- A value that is live at a call is not in a register that the call changes. -/
  saved : ∀ v place p, v.isVirtual → a.get? v = some place → live.Covers v p → p ∈ live.calls →
    ¬ t.isCallerSaved place

/-- **The allocator is faithful**, if it starts from an exact record. -/
theorem Liveness.faithful_of_allocate {n : Nat} (hl : live.Exact n)
    (hrf : t.toRegisterFile.Conventional) (ha : live.allocate t.toRegisterFile = .ok a) :
    a.Faithful t live := by
  have hwf := hl.wellFormed
  obtain ⟨p, s, rfl, hsound⟩ := exists_sound_of_allocate hwf hrf ha
  -- the places and the slots are read off the invariant of the scan
  constructor
  · intro v place hplace
    obtain ⟨i, hi, rfl⟩ := (hsound.placed v).1 (Option.isSome_iff_exists.2 ⟨place, hplace⟩)
    rcases hsound.place i hi place hplace with ⟨n, -, hslot⟩ | ⟨hmem, -, -⟩
    · exact Or.inl (Register.isStackSlot_slot? hslot)
    · exact Or.inr hmem
  · rintro v w r q hv hw ⟨x, hx, hxq⟩ ⟨y, hy, hyq⟩ hr hvr hwr
    by_contra hne
    rw [LiveRange.contains_iff] at hxq hyq
    have hover : x.overlaps y := LiveRange.overlaps_iff.2 (by omega)
    exact (interferenceFree_of_allocate hwf hrf ha).virtual v w hv hw hne x hx y hy hover r hr
      hvr hwr
  · constructor
    · intro v w n _ _ hvn hwn
      obtain ⟨r, hr, hrn⟩ := Option.bind_eq_some_iff.1 hvn
      obtain ⟨q, hq, hqn⟩ := Option.bind_eq_some_iff.1 hwn
      obtain ⟨hslot, hnumber⟩ := Register.isStackSlot_of_slotIndex? hrn
      have hrq : r = q := Register.ext_number
        (hnumber.trans (Register.isStackSlot_of_slotIndex? hqn).2.symm)
      exact hsound.slot_inj v w r hslot hr (hrq ▸ hq)
    · intro v n _ hvn
      obtain ⟨r, hr, hrn⟩ := Option.bind_eq_some_iff.1 hvn
      obtain ⟨i, hi, rfl⟩ := (hsound.placed v).1 (Option.isSome_iff_exists.2 ⟨r, hr⟩)
      rcases hsound.place i hi r hr with ⟨m, hm, hslot⟩ | ⟨-, hel, -⟩
      · cases (Register.slotIndex?_slot? hslot).symm.trans hrn
        exact hm
      · exact absurd (Register.isStackSlot_of_slotIndex? hrn).1
          (Register.not_isStackSlot_of_isPhysical (Scan.isPhysical_of_eligible hrf hel))
  · -- the one range of the register holds a call, so it is marked
    rintro v place q hv hplace ⟨x, hx, hxq⟩ hq hsaved
    obtain ⟨place', hplace', hcases⟩ := exists_place hwf hrf ha hv hx
    cases hplace.symm.trans hplace'
    rcases hcases with ⟨n, -, hslot⟩ | ⟨-, -, hclass⟩
    · exact Register.not_isStackSlot_of_isPhysical (hrf.physical_of_caller hsaved)
        (Register.isStackSlot_slot? hslot)
    · rw [if_pos ((hl.acrossCall_iff v hv x hx).2 ⟨q, hq, hxq⟩)] at hclass
      exact hrf.disjoint hsaved hclass

/-! ### Assigned registers as a renaming -/

namespace Allocation

theorem assigned_of_not_isVirtual {r : Register} (hr : ¬ r.isVirtual) : a.assigned r = r :=
  if_neg hr

/-- An accepted virtual register is exchanged for its physical place, or stays for its slot. -/
theorem place_cases {v : Register} (hv : v.isVirtual) (h : a.accepts v) :
    (∃ r, r.isPhysical ∧ a.get? v = some r ∧ a.assigned v = r) ∨
      ∃ n, a.slotOf? v = some n ∧ a.assigned v = v := by
  rw [accepts, hv, Bool.not_true, Bool.false_or, Option.any_eq_true] at h
  obtain ⟨r, hr, hplace⟩ := h
  rw [assigned, if_pos hv, hr]
  by_cases hphys : r.isPhysical
  · exact Or.inl ⟨r, hphys, rfl, if_pos hphys⟩
  · refine Or.inr ⟨r.number - Register.firstSlot, ?_, if_neg hphys⟩
    have hslot : r.isStackSlot := by simpa [hphys] using hplace
    rw [slotOf?, hr, Option.bind_some, Register.slotIndex?, if_pos hslot]

theorem assigned_of_isPhysical {v r : Register} (hv : v.isVirtual) (hr : r.isPhysical)
    (h : a.get? v = some r) : a.assigned v = r := by
  rw [assigned, if_pos hv, h]
  exact if_pos hr

/-- A spilled register stays for the moment. It is exchanged when it is lent another one. -/
theorem assigned_of_slotOf? {v : Register} {n : Nat} (h : a.slotOf? v = some n) :
    a.assigned v = v := by
  obtain ⟨r, hr, hslot⟩ := Option.bind_eq_some_iff.1 h
  have hphys : ¬ r.isPhysical := fun hphys ↦ Register.not_isStackSlot_of_isPhysical hphys
    (Register.isStackSlot_of_slotIndex? hslot).1
  rw [assigned, hr]
  simp only [if_neg hphys, ite_self]

/-- A virtual register is exchanged for its physical place or not at all. -/
theorem assigned_cases {v : Register} (hv : v.isVirtual) :
    (a.assigned v).isPhysical ∧ a.get? v = some (a.assigned v) ∨ a.assigned v = v := by
  rw [assigned, if_pos hv]
  split
  · rename_i place hplace
    by_cases hphys : place.isPhysical
    · rw [if_pos hphys]
      exact Or.inl ⟨hphys, hplace⟩
    · exact Or.inr (if_neg hphys)
  · exact Or.inr rfl

/-- A virtual register stays, or becomes one that may be handed out. -/
theorem Faithful.assigned_into (h : a.Faithful t live) {v : Register} (hv : v.isVirtual) :
    (a.assigned v).isVirtual ∨ a.assigned v ∈ t.allocatable := by
  rcases assigned_cases hv with ⟨hphys, hplace⟩ | hself
  · right
    exact (h.place v _ hplace).resolve_left (Register.not_isStackSlot_of_isPhysical hphys)
  · left
    rwa [hself]

/-- **Values that are live at one point are kept apart.** -/
theorem Faithful.assigned_inj (h : a.Faithful t live) {v w : Register} {p : Nat}
    (hv : v.isVirtual) (hw : w.isVirtual) (hvp : live.Covers v p) (hwp : live.Covers w p)
    (heq : a.assigned v = a.assigned w) : v = w := by
  rcases assigned_cases (a := a) hv with ⟨hphys, hplace⟩ | hself <;>
    rcases assigned_cases (a := a) hw with ⟨hphys', hplace'⟩ | hself'
  · exact h.apart v w _ p hv hw hvp hwp hphys hplace (heq ▸ hplace')
  · rw [heq, hself'] at hphys
    exact absurd hw (Register.not_isVirtual_of_isPhysical hphys)
  · rw [← heq, hself] at hphys'
    exact absurd hv (Register.not_isVirtual_of_isPhysical hphys')
  · rw [← hself, heq, hself']

end Allocation

/-! ### What is asked of the source -/

namespace Machine

/-- The instruction names no physical register but the frame pointer, touches nothing but what it
names, and leaves the frame pointer alone. -/
structure Semantics.Admits (sem : Semantics Op) (t : Target Op) (i : Instruction Op) : Prop where
  named : ∀ r ∈ i.registers, r.isVirtual ∨ r = t.framePointer
  lawful : sem.Lawful t.allocatable i []
  keeps : t.framePointer ∉ sem.writes i

/-- Each virtual register that is read is among those written before. -/
def Semantics.WritesFirst (sem : Semantics Op) (written : List Register) :
    List (Handle × Instruction Op) → Prop
  | [] => True
  | e :: rest => (∀ r ∈ sem.reads e.2, r.isVirtual → r ∈ written) ∧
      sem.WritesFirst (written ++ sem.writes e.2) rest

instance Semantics.decidableWritesFirst (sem : Semantics Op) : (written : List Register) →
    (l : List (Handle × Instruction Op)) → Decidable (sem.WritesFirst written l)
  | _, [] => inferInstanceAs (Decidable True)
  | written, e :: rest =>
    have := sem.decidableWritesFirst (written ++ sem.writes e.2) rest
    inferInstanceAs (Decidable (_ ∧ _))

/-- No instruction on the way touches the addresses `P`. -/
def Semantics.KeepsClear (sem : Semantics Op) (t : Target Op) (left : Handle → Register → Word)
    (P : Word → Prop) : List (Handle × Instruction Op) → State → Prop
  | [], _ => True
  | e :: rest, s => (∀ x, sem.footprint e.2 s x → ¬ P x) ∧
      sem.KeepsClear t left P rest (sem.step t (left e.1) e.2 s)

/-- Two observations of one instruction agree on what it reads and on the memory outside `P`. -/
structure Observation.Agrees (P : Word → Prop) (o o' : Observation) : Prop where
  handle : o'.handle = o.handle
  values : o'.values = o.values
  memory : ∀ x, ¬ P x → o'.memory x = o.memory x

/-- Where observations agree, the same values are read. -/
theorem Observation.map_values_eq {P : Word → Prop} {os os' : List Observation}
    (h : List.Forall₂ (Agrees P) os os') : os'.map (·.values) = os.map (·.values) := by
  induction h with
  | nil => rfl
  | cons hagrees _ ih => rw [List.map_cons, List.map_cons, hagrees.values, ih]

/-! ### Related states -/

/-- What the lowering of a function has to work with: a machine, an allocation for it, and a place
for the slots. -/
structure Setting (sem : Semantics Op) (t : Target Op) (live : Liveness) (a : Allocation)
    (area : SpillArea) (reserved : Nat) : Prop where
  target : t.Conforming
  moves : sem.MovesFrame t
  allocatable : ∀ r ∈ t.allocatable, r.isPhysical ∧ r ≠ t.framePointer
  recorded : live.WellFormed
  faithful : a.Faithful t live
  fits : area.Fits
  spillCount : area.spillCount = a.spillCount
  reserved_lt : reserved < Unsigned32.bound

/-- What is on record about the instruction at point `p`. -/
structure Located (t : Target Op) (live : Liveness) (a : Allocation) (p : Nat)
    (i : Instruction Op) : Prop where
  covers : ∀ v ∈ i.registers, v.isVirtual → live.Covers v p
  accepts : ∀ r ∈ i.registers, a.accepts r
  call : t.isCall i → p ∈ live.calls

/-- The place of the virtual register holds the value. -/
structure Holds (a : Allocation) (area : SpillArea) (fp : Word) (s : State) (v : Register)
    (w : Word) : Prop where
  register : ∀ r, r.isPhysical → a.get? v = some r → s.regs r = w
  slot : ∀ n, a.slotOf? v = some n → s.mem.load (area.slotAddress fp n) = w

/-- The states `σ` of the source and `s` of the compiled code belong together at point `p`, where
the source has written the registers `written`. -/
structure Related (t : Target Op) (live : Liveness) (a : Allocation) (area : SpillArea) (fp : Word)
    (reserved p : Nat) (written : List Register) (σ s : State) : Prop where
  source : σ.regs t.framePointer = fp
  target : s.regs t.framePointer = fp
  mem : ∀ x, ¬ area.InSlots fp reserved x → s.mem x = σ.mem x
  /-- What is written was live already. -/
  past : ∀ v ∈ written, v.isVirtual → ∃ q < p, live.Covers v q
  values : ∀ v ∈ written, v.isVirtual → live.Covers v p → Holds a area fp s v (σ.regs v)

section Step

variable {sem : Semantics Op} {area : SpillArea} {reserved p : Nat} {i : Instruction Op}
  {written : List Register} {fp : Word} {σ s : State}

theorem Setting.assigned_framePointer (h : Setting sem t live a area reserved) :
    a.assigned t.framePointer = t.framePointer :=
  Allocation.assigned_of_not_isVirtual
    (Register.not_isVirtual_of_isPhysical h.target.physical_framePointer)

theorem Setting.assigned_ne_framePointer (h : Setting sem t live a area reserved) {v : Register}
    (hv : v.isVirtual) : a.assigned v ≠ t.framePointer := by
  intro heq
  rcases h.faithful.assigned_into hv with hvirt | hmem
  · rw [heq] at hvirt
    exact Register.not_isVirtual_of_isPhysical h.target.physical_framePointer hvirt
  · exact (h.allocatable _ hmem).2 heq

/-- **Exchanging registers for their places is a renaming** at the point of the instruction. -/
theorem Setting.renaming_assigned (h : Setting sem t live a area reserved)
    (hi : sem.Admits t i) (hp : Located t live a p i) :
    RegisterRenaming t.allocatable i.registers a.assigned := by
  refine ⟨fun r hr ↦ Allocation.assigned_of_not_isVirtual hr,
    fun r hr ↦ h.faithful.assigned_into hr, fun r hr q hq heq ↦ ?_⟩
  rcases hi.named r hr with hrv | rfl <;> rcases hi.named q hq with hqv | rfl
  · exact h.faithful.assigned_inj hrv hqv (hp.covers r hr hrv) (hp.covers q hq hqv) heq
  · exact absurd (heq.trans h.assigned_framePointer) (h.assigned_ne_framePointer hrv)
  · exact absurd (heq.symm.trans h.assigned_framePointer) (h.assigned_ne_framePointer hqv)
  · rfl

/-- The instruction leaves the frame pointer alone with its assigned registers, too. -/
theorem Setting.assigned_keeps (h : Setting sem t live a area reserved)
    (hi : sem.Admits t i) (hp : Located t live a p i) :
    t.framePointer ∉ sem.writes (i.mapRegisters a.assigned) := by
  rw [(hi.lawful.renames a.assigned (by simpa using h.renaming_assigned hi hp)).writes,
    List.mem_map]
  rintro ⟨r, hr, heq⟩
  have hmem : r ∈ i.registers := by simpa using hi.lawful.writes_subset r hr
  rcases hi.named r hmem with hv | rfl
  · exact h.assigned_ne_framePointer hv heq
  · exact hi.keeps hr

/-- The registers that are spilled once the others have their places. -/
theorem Setting.mem_spilled_assigned (h : Setting sem t live a area reserved)
    (hi : sem.Admits t i) (hp : Located t live a p i) {v : Register} :
    v ∈ (i.mapRegisters a.assigned).spilled ↔
      v ∈ i.registers ∧ v.isVirtual ∧ a.assigned v = v := by
  have hρ := h.renaming_assigned hi hp
  rw [Instruction.mem_spilled, Instruction.registers_mapRegisters
    (hρ.isAbsent_eq fun r hr ↦ (h.allocatable r hr).1), List.mem_map]
  constructor
  · rintro ⟨⟨r, hr, rfl⟩, hv⟩
    by_cases hrv : r.isVirtual
    · have hself : a.assigned r = r := (Allocation.assigned_cases hrv).resolve_left fun hphys ↦
        Register.not_isVirtual_of_isPhysical hphys.1 hv
      rw [hself]
      exact ⟨hr, hrv, hself⟩
    · rw [hρ.fixes r hrv] at hv
      exact absurd hv hrv
  · rintro ⟨hmem, hv, hself⟩
    exact ⟨⟨v, hmem, hself⟩, hv⟩

/-- Where a place holds a value, the assigned register shows it, spilled registers being taken from
their slots. -/
theorem Setting.regs_assigned (h : Setting sem t live a area reserved) (hi : sem.Admits t i)
    (hp : Located t live a p i) {v : Register} {w : Word} (hv : v.isVirtual)
    (hmem : v ∈ i.registers) (hw : Holds a area fp s v w) :
    (s.fromSlots a area fp (i.mapRegisters a.assigned).spilled).regs (a.assigned v) = w := by
  rcases Allocation.place_cases hv (hp.accepts v hmem) with ⟨r, hr, hplace, heq⟩ | ⟨n, hn, heq⟩
  · rw [heq, State.regs_fromSlots_of_isPhysical hr]
    exact hw.register r hr hplace
  · rw [heq, State.regs_fromSlots ((h.mem_spilled_assigned hi hp).2 ⟨hmem, hv, heq⟩) hn]
    exact hw.slot n hn

/-- **In related states the assigned instruction does what the source instruction does.** -/
theorem Related.mirrors (hset : Setting sem t live a area reserved) (hi : sem.Admits t i)
    (hp : Located t live a p i) (h : Related t live a area fp reserved p written σ s)
    (hreads : ∀ r ∈ sem.reads i, r.isVirtual → r ∈ written)
    (hclear : ∀ x, sem.footprint i σ x → ¬ area.InSlots fp reserved x) :
    sem.Mirrors i a.assigned σ
      (s.fromSlots a area fp (i.mapRegisters a.assigned).spilled) := by
  refine hi.lawful.mirrors (by simpa using hset.renaming_assigned hi hp) (fun r hr ↦ ?_)
    fun x hx ↦ h.mem x (hclear x hx)
  have hmem : r ∈ i.registers := by simpa using hi.lawful.reads_subset r hr
  rcases hi.named r hmem with hv | rfl
  · exact hset.regs_assigned hi hp hv hmem (h.values r (hreads r hr hv) hv (hp.covers r hmem hv))
  · rw [hset.assigned_framePointer, h.source,
      State.regs_fromSlots_of_isPhysical hset.target.physical_framePointer, h.target]

/-- Outside the slots the two instructions leave the same memory. -/
theorem Related.mem_exec (hi : sem.Admits t i)
    (h : Related t live a area fp reserved p written σ s)
    (hm : sem.Mirrors i a.assigned σ (s.fromSlots a area fp (i.mapRegisters a.assigned).spilled))
    {x : Word} (hx : ¬ area.InSlots fp reserved x) :
    (sem.exec (i.mapRegisters a.assigned)
      (s.fromSlots a area fp (i.mapRegisters a.assigned).spilled)).mem x =
        (sem.exec i σ).mem x := by
  by_cases hfoot : sem.footprint i σ x
  · exact hm.touched x hfoot
  · rw [hm.untouched x hfoot, hi.lawful.self_confined.mem σ x hfoot]
    exact h.mem x hx

/-- The two instructions leave the same value in a register that is live, if it was there before or
is written now: no other register that is written has its place. -/
theorem Setting.regs_exec (hset : Setting sem t live a area reserved) (hi : sem.Admits t i)
    (hp : Located t live a p i) {u : State} (hm : sem.Mirrors i a.assigned σ u) {v : Register}
    (hv : v.isVirtual) (hcovers : live.Covers v p)
    (hu : v ∉ sem.writes i → u.regs (a.assigned v) = σ.regs v) :
    (sem.exec (i.mapRegisters a.assigned) u).regs (a.assigned v) = (sem.exec i σ).regs v := by
  by_cases hw : v ∈ sem.writes i
  · exact hm.written v hw
  · rw [hi.lawful.self_confined.regs σ v hw, ← hu hw]
    -- a register that is written and has the same place would be live here, too
    refine hm.kept _ fun w hw' heq ↦ ?_
    have hmem : w ∈ i.registers := by simpa using hi.lawful.writes_subset w hw'
    rcases hi.named w hmem with hwv | rfl
    · have hsame := hset.faithful.assigned_inj hwv hv (hp.covers w hmem hwv) hcovers heq
      exact hw (hsame ▸ hw')
    · exact hi.keeps hw'

/-- **The block of an instruction keeps the value of a live register in its place.** -/
theorem Holds.step (hset : Setting sem t live a area reserved) (hi : sem.Admits t i)
    (hp : Located t live a p i) {s' : State} {left' : Register → Word}
    (hm : sem.Mirrors i a.assigned σ (s.fromSlots a area fp (i.mapRegisters a.assigned).spilled))
    (hclear : ∀ x, sem.footprint i σ x → ¬ area.InSlots fp reserved x)
    (htrans : Transparent a area fp reserved (i.mapRegisters a.assigned)
      (sem.step t left' (i.mapRegisters a.assigned)
        (s.fromSlots a area fp (i.mapRegisters a.assigned).spilled)) s')
    {v : Register} (hv : v.isVirtual) (hcovers : live.Covers v p)
    (h : v ∉ sem.writes i → Holds a area fp s v (σ.regs v)) :
    Holds a area fp s' v ((sem.exec i σ).regs v) := by
  constructor
  · intro r hr hplace
    have heq := Allocation.assigned_of_isPhysical hv hr hplace
    -- the register outlives the instruction even if that is a call
    have hsaved : t.isCall (i.mapRegisters a.assigned) → ¬ t.isCallerSaved r := by
      rw [hset.target.isCall_mapRegisters]
      exact fun hcall ↦ hset.faithful.saved v r p hv hplace hcovers (hp.call hcall)
    rw [htrans.regs r hr, Semantics.regs_step_of_not hsaved, ← hset.regs_exec hi hp hm hv hcovers,
      heq]
    intro hw
    rw [heq, State.regs_fromSlots_of_isPhysical hr]
    exact (h hw).register r hr hplace
  · intro n hn
    have heq := Allocation.assigned_of_slotOf? hn
    by_cases hmem : v ∈ i.registers
    · have hspilled := (hset.mem_spilled_assigned hi hp).2 ⟨hmem, hv, heq⟩
      rw [htrans.slots v hspilled n hn, Semantics.regs_step_of_isVirtual hset.target _ _ hv,
        ← hset.regs_exec hi hp hm hv hcovers, heq]
      exact fun hw ↦ hset.regs_assigned hi hp hv hmem (h hw)
    · -- the slot belongs to a register that the instruction does not name
      have hw : v ∉ sem.writes i := fun hw ↦ hmem (by simpa using hi.lawful.writes_subset v hw)
      rw [hi.lawful.self_confined.regs σ v hw, ← (h hw).slot n hn]
      have hconfined := hi.lawful.confined a.assigned
        (by simpa using hset.renaming_assigned hi hp)
      refine htrans.load_slot hset.fits hset.faithful.slots hset.spillCount hconfined
        hset.reserved_lt (by rwa [hm.footprint]) (hset.faithful.slots.bounded v n hv hn) ?_
      intro w hw' hwn
      obtain ⟨hwmem, hwv, -⟩ := (hset.mem_spilled_assigned hi hp).1 hw'
      exact hmem (hset.faithful.slots.injective w v n hwv hv hwn hn ▸ hwmem)

/-- **States stay related over an instruction and its block.** -/
theorem Related.step (hset : Setting sem t live a area reserved) (hi : sem.Admits t i)
    (hp : Located t live a p i) (h : Related t live a area fp reserved p written σ s) {s' : State}
    (left : Register → Word) {left' : Register → Word}
    (hm : sem.Mirrors i a.assigned σ (s.fromSlots a area fp (i.mapRegisters a.assigned).spilled))
    (hclear : ∀ x, sem.footprint i σ x → ¬ area.InSlots fp reserved x)
    (htrans : Transparent a area fp reserved (i.mapRegisters a.assigned)
      (sem.step t left' (i.mapRegisters a.assigned)
        (s.fromSlots a area fp (i.mapRegisters a.assigned).spilled)) s') :
    Related t live a area fp reserved (p + 1) (written ++ sem.writes i) (sem.step t left i σ)
      s' := by
  constructor
  · rw [Semantics.regs_step_of_not fun _ ↦ hset.target.framePointer_saved,
      hi.lawful.self_confined.regs σ _ hi.keeps, h.source]
  · have hphys := hset.target.physical_framePointer
    have hconfined := hi.lawful.confined a.assigned (by simpa using hset.renaming_assigned hi hp)
    rw [htrans.regs _ hphys, regs_step_fromSlots hconfined left' hphys (hset.assigned_keeps hi hp)
      fun _ ↦ hset.target.framePointer_saved, h.target]
  · intro x hx
    rw [htrans.mem x]
    · exact h.mem_exec hi hm hx
    · intro v hv n hn hin
      have hlt := hset.faithful.slots.bounded v n (Instruction.mem_spilled.1 hv).2 hn
      exact hx (Or.inl ⟨n, hset.spillCount ▸ hlt, hin⟩)
    · exact fun n hn hn' hin ↦ hx (Or.inr ⟨n, hn, hn', hin⟩)
  · intro v hv hvirt
    rcases List.mem_append.1 hv with hv | hv
    · obtain ⟨q, hq, hcovers⟩ := h.past v hv hvirt
      exact ⟨q, Nat.lt_succ_of_lt hq, hcovers⟩
    · have hmem : v ∈ i.registers := by simpa using hi.lawful.writes_subset v hv
      exact ⟨p, Nat.lt_succ_self p, hp.covers v hmem hvirt⟩
  · intro v hv hvirt hcovers
    rw [Semantics.regs_step_of_isVirtual hset.target _ _ hvirt]
    -- the register is live at the point of the instruction: it is so before and behind it
    have hlive : live.Covers v p := by
      rcases List.mem_append.1 hv with hv | hv
      · obtain ⟨q, hq, hpast⟩ := h.past v hv hvirt
        exact hset.recorded.covers_between hvirt hpast hcovers (Nat.le_of_lt hq) (Nat.le_succ p)
      · exact hp.covers v (by simpa using hi.lawful.writes_subset v hv) hvirt
    refine Holds.step hset hi hp hm hclear htrans hvirt hlive fun hw ↦ ?_
    exact h.values v ((List.mem_append.1 hv).resolve_right hw) hvirt hlive

/-- In the block of an instruction, only the instruction itself has a handle of the source. -/
structure Framed (bound : Nat) (h : Handle) (i : Instruction Op)
    (before after block : List (Handle × Instruction Op)) : Prop where
  eq : block = before ++ (h, i) :: after
  fresh_before : ∀ x ∈ before, bound ≤ x.1
  fresh_after : ∀ x ∈ after, bound ≤ x.1

variable {bound : Nat} {handle : Handle} {block : List (Handle × Instruction Op)}

/-- The block of an instruction of the source runs as the instruction does with its assigned
registers. -/
theorem Related.exists_transparent (hset : Setting sem t live a area reserved)
    (hi : sem.Admits t i) (hp : Located t live a p i)
    (h : Related t live a area fp reserved p written σ s)
    (hm : sem.Mirrors i a.assigned σ (s.fromSlots a area fp (i.mapRegisters a.assigned).spilled))
    (hclear : ∀ x, sem.footprint i σ x → ¬ area.InSlots fp reserved x)
    (hblock : BlockFor t a area bound reserved (handle, i.mapRegisters a.assigned) block)
    (left left' : Handle → Register → Word) :
    Transparent a area fp reserved (i.mapRegisters a.assigned)
        (sem.step t (left' handle) (i.mapRegisters a.assigned)
          (s.fromSlots a area fp (i.mapRegisters a.assigned).spilled))
        (sem.run t left' block s) ∧
      ∃ i' before after, Framed bound handle i' before after block ∧
        Observation.Agrees (area.InSlots fp reserved)
          ⟨handle, (sem.reads i).map σ.regs, (sem.step t (left handle) i σ).mem⟩
          ⟨handle, (sem.reads i').map (sem.run t left' before s).regs,
            (sem.step t (left' handle) i' (sem.run t left' before s)).mem⟩ := by
  obtain ⟨implicit, loans, before, after, -, hlends, hlen, hcode, rfl⟩ := hblock
  have hlaw : sem.Lawful t.allocatable (i.mapRegisters a.assigned) implicit :=
    (hi.lawful.mapRegisters (fun r hr ↦ (hset.allocatable r hr).1)
      (hset.renaming_assigned hi hp)).mono (by simp)
  obtain ⟨htrans, hvalues, hmem⟩ := transparent_block hset.target hset.moves hset.allocatable
    hset.faithful.slots hset.fits hset.spillCount hlends hlen hcode hlaw
    (hset.assigned_keeps hi hp) left' handle h.target (by rwa [hm.footprint])
  refine ⟨htrans, _, before, after, ⟨rfl, hcode.fresh_before, hcode.fresh_after⟩, rfl,
    hvalues.trans hm.values, fun x hx ↦ ?_⟩
  have hsame := hmem x fun n hn hn' hin ↦ hx (Or.inr ⟨n, hn, hn', hin⟩)
  exact hsame.trans (h.mem_exec hi hm hx)

end Step

/-! ### Runs -/

section Run

variable {sem : Semantics Op} {area : SpillArea} {reserved bound p : Nat}
  {written : List Register} {fp : Word} {σ s : State} {left : Handle → Register → Word}
  {l : List (Handle × Instruction Op)} {blocks : List (List (Handle × Instruction Op))}

theorem Semantics.filter_trace_eq_nil {keep : Handle → Bool} (h : ∀ e ∈ l, keep e.1 = false) :
    (sem.trace t left l s).filter (fun o ↦ keep o.handle) = [] := by
  rw [List.filter_eq_nil_iff]
  intro o ho
  have hmem := List.mem_map_of_mem (f := (·.handle)) ho
  rw [handles_trace] at hmem
  obtain ⟨e, he, heq⟩ := List.mem_map.1 hmem
  rw [← heq, h e he]
  exact Bool.false_ne_true

/-- Of a block, what has a handle of the source is observed of its instruction. -/
theorem Framed.filter_trace {handle : Handle} {i : Instruction Op}
    {before after block : List (Handle × Instruction Op)} {keep : Handle → Bool}
    (h : Framed bound handle i before after block) (hkeep : keep handle)
    (hfresh : ∀ g, bound ≤ g → keep g = false) :
    (sem.trace t left block s).filter (fun o ↦ keep o.handle) =
      [⟨handle, (sem.reads i).map (sem.run t left before s).regs,
        (sem.step t (left handle) i (sem.run t left before s)).mem⟩] := by
  rw [h.eq, Semantics.trace_append, List.filter_append, Semantics.trace,
    Semantics.filter_trace_eq_nil fun e he ↦ hfresh e.1 (h.fresh_before e he), List.nil_append,
    List.filter_cons, if_pos hkeep,
    Semantics.filter_trace_eq_nil fun e he ↦ hfresh e.1 (h.fresh_after e he)]

/-- **Runs from related states agree** and end in related states, by induction over the source. -/
theorem agrees_of_related (hset : Setting sem t live a area reserved)
    (left' : Handle → Register → Word) {keep : Handle → Bool}
    (hfresh : ∀ g, bound ≤ g → keep g = false)
    (hblocks : List.Forall₂ (fun e block ↦
      BlockFor t a area bound reserved (e.1, e.2.mapRegisters a.assigned) block) l blocks)
    (hkeep : ∀ e ∈ l, keep e.1) (hadmits : ∀ e ∈ l, sem.Admits t e.2)
    (hlocated : ∀ q e, l[q]? = some e → Located t live a (p + q) e.2)
    (hfirst : sem.WritesFirst written l)
    (hclear : sem.KeepsClear t left (area.InSlots fp reserved) l σ)
    (h : Related t live a area fp reserved p written σ s) :
    List.Forall₂ (Observation.Agrees (area.InSlots fp reserved)) (sem.trace t left l σ)
        ((sem.trace t left' blocks.flatten s).filter fun o ↦ keep o.handle) ∧
      ∃ written', Related t live a area fp reserved (p + l.length) written' (sem.run t left l σ)
        (sem.run t left' blocks.flatten s) := by
  induction hblocks generalizing p written σ s with
  | nil => exact ⟨.nil, written, h⟩
  | @cons e block rest blocks hblock _ ih =>
    -- one instruction of the source on one side, its block on the other
    have hi := hadmits e (by simp)
    have hp := hlocated 0 e rfl
    have hm := h.mirrors hset hi hp hfirst.1 hclear.1
    obtain ⟨htrans, i', before, after, hframed, hagrees⟩ :=
      h.exists_transparent hset hi hp hm hclear.1 hblock left left'
    have hnext := h.step hset hi hp (left e.1) hm hclear.1 htrans
    have hlater : ∀ q e, rest[q]? = some e → Located t live a (p + 1 + q) e.2 := by
      intro q e he
      rw [Nat.add_assoc, Nat.add_comm 1 q]
      exact hlocated (q + 1) e he
    obtain ⟨htail, written', hend⟩ := ih (fun e he ↦ hkeep e (by simp [he]))
      (fun e he ↦ hadmits e (by simp [he])) hlater hfirst.2 hclear.2 hnext
    rw [List.flatten_cons, Semantics.trace_append, List.filter_append,
      hframed.filter_trace (hkeep e (by simp)) hfresh, Semantics.run_append]
    refine ⟨.cons hagrees htail, written', ?_⟩
    rw [List.length_cons, Nat.add_comm rest.length, ← Nat.add_assoc]
    exact hend

end Run

end Machine

/-! ### Compiled functions -/

/-- The slots of a frame that has a size can be counted in a 32-bit word. -/
theorem Frame.slots_lt_of_totalBytes {frame : Frame} {total : Nat}
    (h : frame.totalBytes = .ok total) :
    frame.spillSlots + frame.reservedSlots < Unsigned32.bound := by
  obtain ⟨body, hbody, -⟩ := bind_eq_ok.1 h
  obtain ⟨slots, hslots, -⟩ := bind_eq_ok.1 hbody
  exact (Unsigned32.add_eq_ok_iff.1 hslots).1

/-- An allocation for a recorded function, and a frame that has room for it, are a setting. -/
theorem setting_of_allocate {sem : Semantics Op} {n total : Nat} {frame : Frame}
    (ht : t.Conforming) (hmoves : sem.MovesFrame t)
    (hallocatable : ∀ r ∈ t.allocatable, r.isPhysical ∧ r ≠ t.framePointer)
    (hlive : live.Exact n) (ha : live.allocate t.toRegisterFile = .ok a)
    (htotal : frame.totalBytes = .ok total) (hspill : frame.spillSlots = a.spillCount)
    (f : Function Op) : Setting sem t live a (f.spillArea t a) frame.reservedSlots := by
  have hlt := Frame.slots_lt_of_totalBytes htotal
  have hcount : (f.spillArea t a).spillCount < Unsigned32.bound := by
    show a.spillCount < Unsigned32.bound
    omega
  exact {
    target := ht
    moves := hmoves
    allocatable := hallocatable
    recorded := hlive.wellFormed
    faithful := Liveness.faithful_of_allocate hlive ht.conventional ha
    fits := ⟨ht.registerSize, hcount⟩
    spillCount := rfl
    reserved_lt := by omega }

/-- A call uses registers that it does not name. -/
theorem TargetKind.not_isCall_of_implicitUses (k : TargetKind) {i : Instruction k.Opcode}
    (h : k.target.implicitUses i = .ok []) : ¬ k.target.isCall i := by
  intro hcall
  cases k
  all_goals
    simp only [target, X86.target, RiscV.target, X86.implicitUses, RiscV.implicitUses,
      of_decide_eq_true hcall] at h
    obtain ⟨n, -, heq⟩ := bind_eq_ok.1 h
    cases heq

/-- **Compilation preserves meaning.** Let an instruction selector build a function, on either
machine, of instructions that use no registers without naming them, and of calls; let the
instructions name virtual registers and the frame pointer only, leave the frame pointer alone, and
write each virtual register before it is read. If the function is compiled, with any list of
physical registers to hand out that leaves the frame pointer alone, then its code is a body between
prologue and epilogue, and no virtual register is left in the body. The body, run from any state
that agrees with that of the source on the frame pointer and on the memory outside the slots, makes
every instruction of the source read the same values and leave the same memory outside the slots as
the source does, whatever the calls on either side leave in the caller-saved registers; and it ends
with the memory and the frame pointer of the source.

The code runs from its first instruction to its last, so this is about code without jumps, branches
and returns; and the source is asked to keep clear of the slots. Of the machine it is asked that the
registers of the list are moved to the frame and back, as RISC-V does for all but `zero`. -/
theorem Session.compile_preserves_meaning (k : TargetKind) {allocatable : List Register}
    (hallocatable : ∀ r ∈ allocatable, r.isPhysical ∧ r ≠ k.target.framePointer) {name : String}
    {localBytes : Nat} {counter counter' : Counter}
    {emissions : List (Function.Emission k.Opcode)} {f : Function k.Opcode}
    (hf : Function.emitAll name localBytes counter emissions = .ok (f, counter'))
    (hemit : ∀ i, .emit i ∈ emissions → k.target.implicitUses i = .ok [])
    {sem : Semantics k.Opcode} (hmoves : sem.MovesFrame (k.target.withAllocatable allocatable))
    (hadmits : ∀ e ∈ f.code.entries, sem.Admits (k.target.withAllocatable allocatable) e.2)
    (hfirst : sem.WritesFirst [] f.code.entries) {config : Config} {supply : Counter}
    {compiled : Compiled k.Opcode}
    (hcompile : (compile ⟨k.target.withAllocatable allocatable, config, supply⟩ f).result =
      .ok compiled) :
    let t := k.target.withAllocatable allocatable
    let slots := fun fp ↦
      (f.spillArea t compiled.allocation).InSlots fp compiled.frame.reservedSlots
    ∃ prologue body epilogue,
      compiled.function.code.entries = prologue ++ body ++ epilogue ∧
      t.prologue compiled.frame = .ok (prologue.map (·.2)) ∧
      t.epilogue compiled.frame = .ok (epilogue.map (·.2)) ∧
      (∀ e ∈ body, ¬ e.2.hasVirtual) ∧
      ∀ (left left' : Handle → Register → Word) (σ s : State) (fp : Word),
        σ.regs t.framePointer = fp → s.regs t.framePointer = fp →
        (∀ x, ¬ slots fp x → s.mem x = σ.mem x) →
        sem.KeepsClear t left (slots fp) f.code.entries σ →
        List.Forall₂ (Observation.Agrees (slots fp)) (sem.trace t left f.code.entries σ)
            ((sem.trace t left' body s).filter fun o ↦ f.code.handles.contains o.handle) ∧
          (∀ x, ¬ slots fp x →
            (sem.run t left' body s).mem x = (sem.run t left f.code.entries σ).mem x) ∧
          (sem.run t left' body s).regs t.framePointer = fp := by
  intro t slots
  have ht : t.Conforming := k.conforming allocatable
  obtain ⟨l, hrec, hcalls⟩ := Function.recorded_of_emitAll hf
  obtain ⟨halloc, haccepts, prologue, blocks, epilogue, bound, total, hrep, hprologue, hepilogue,
    htotal, -, hspill, -, hbound, hblocks⟩ := exists_lowered hrec.code hcompile
  have hset : Setting sem t f.liveness compiled.allocation (f.spillArea t compiled.allocation)
      compiled.frame.reservedSlots :=
    setting_of_allocate ht hmoves hallocatable hrec.liveness halloc htotal hspill f
  have hlocated : ∀ p e, l[p]? = some e → Located t f.liveness compiled.allocation p e.2 := by
    intro p e he
    refine ⟨hrec.covers p e he, haccepts e (List.mem_of_getElem? he), fun hcall ↦ ?_⟩
    -- a call is not emitted by itself, so there is a call on record at its point
    exact (hcalls p e he).resolve_left fun hmem ↦ k.not_isCall_of_implicitUses (hemit _ hmem) hcall
  rw [Code.handles]
  rw [hrec.code.entries_eq] at hadmits hfirst ⊢
  have hbody : ∀ e ∈ blocks.flatten, ¬ e.2.hasVirtual :=
    not_hasVirtual_flatten hblocks (k.movesPhysical allocatable) fun r hr ↦ (hallocatable r hr).1
  refine ⟨prologue, blocks.flatten, epilogue, hrep.entries_eq, hprologue, hepilogue, hbody, ?_⟩
  intro left left' σ s fp hσ hs hmem hclear
  -- nothing is written at the start, so the two states need not agree on any virtual register
  have hstart : Related t f.liveness compiled.allocation (f.spillArea t compiled.allocation) fp
      compiled.frame.reservedSlots 0 [] σ s := ⟨hσ, hs, hmem, by simp, by simp⟩
  have hfresh : ∀ g, bound ≤ g → (l.map (·.1)).contains g = false := by
    intro g hg
    rw [List.contains_eq_mem, decide_eq_false_iff_not]
    intro hmem
    obtain ⟨e, he, rfl⟩ := List.mem_map.1 hmem
    exact Nat.not_le_of_lt (hbound e he) hg
  obtain ⟨hagrees, written, hend⟩ := agrees_of_related hset left' hfresh hblocks
    (fun e he ↦ List.contains_iff_mem.2 (List.mem_map_of_mem he)) hadmits
    (fun q e he ↦ by simpa using hlocated q e he) hfirst hclear hstart
  exact ⟨hagrees, hend.mem, hend.target⟩

/-- Two values across a call with one callee-saved register, so that one of them is spilled: their
sum still reaches the memory above the frame, though the call leaves other values behind. -/
theorem Session.compile_preserves_meaning_spill :
    let t := X86.target.withAllocatable [X86.rax, X86.rbx]
    let emissions : List (Function.Emission X86.Opcode) := [.newVirtual, .newVirtual,
      .emit ⟨.mov, [.imm 1, .reg ⟨2147483648⟩]⟩, .emit ⟨.mov, [.imm 2, .reg ⟨2147483649⟩]⟩,
      .emitCall .call (.label "g") 0, .emit ⟨.add, [.reg ⟨2147483649⟩, .reg ⟨2147483648⟩]⟩,
      .emit ⟨.mov, [.reg ⟨2147483648⟩, .memory 16 X86.rbp]⟩]
    let sem := X86.semantics fun _ ↦ 0
    let s : State := { regs := fun r ↦ if r = X86.rbp then 4096 else 0, mem := fun _ ↦ 0 }
    ∃ f counter compiled, Function.emitAll "f" 0 {} emissions = .ok (f, counter) ∧
      (compile ⟨t, {}, {}⟩ f).result = .ok compiled ∧ compiled.allocation.spillCount = 1 ∧
      ∃ prologue body epilogue,
        compiled.function.code.entries = prologue ++ body ++ epilogue ∧
        (∀ e ∈ body, ¬ e.2.hasVirtual) ∧
        ((sem.trace t (fun _ _ ↦ 7) body s).filter fun o ↦
          f.code.handles.contains o.handle).map (·.values) = [[], [], [], [2, 1], [3, 4096]] ∧
        (sem.run t (fun _ _ ↦ 7) body s).mem.load 4112 = 3 := by
  intro t emissions sem s
  let source : List (Handle × Instruction X86.Opcode) := [
    (0, ⟨.mov, [.imm 1, .reg ⟨2147483648⟩]⟩), (1, ⟨.mov, [.imm 2, .reg ⟨2147483649⟩]⟩),
    (2, ⟨.call, [.label "g", .imm 0]⟩), (3, ⟨.add, [.reg ⟨2147483649⟩, .reg ⟨2147483648⟩]⟩),
    (4, ⟨.mov, [.reg ⟨2147483648⟩, .memory 16 X86.rbp]⟩)]
  have hrun : (Function.emitAll "f" 0 {} emissions).toOption.map (fun b ↦ (b.1.code.entries,
      (compile ⟨t, {}, {}⟩ b.1).result.toOption.map fun c ↦
        (b.1.spillArea t c.allocation, c.frame.reservedSlots))) =
      some (source, some (⟨0, 8, 1⟩, 1)) := by decide
  obtain ⟨⟨f, counter⟩, hf, hrun⟩ := Option.map_eq_some_iff.1 hrun
  obtain ⟨hentries, hrun⟩ : f.code.entries = source ∧ _ := Prod.mk.inj hrun
  obtain ⟨compiled, hcompile, hrun⟩ := Option.map_eq_some_iff.1 hrun
  obtain ⟨harea, hreserved⟩ : f.spillArea t compiled.allocation = _ ∧ _ := Prod.mk.inj hrun
  rw [toOption_eq_some] at hf hcompile
  have hphys : ∀ r ∈ [X86.rax, X86.rbx], r.isPhysical := by decide
  have hemit : ∀ i, .emit i ∈ emissions → X86.implicitUses i = .ok [] := by
    intro i hi
    simp only [emissions, List.mem_cons, Function.Emission.emit.injEq, reduceCtorEq, false_or,
      List.not_mem_nil, or_false] at hi
    rcases hi with rfl | rfl | rfl | rfl <;> rfl
  have hadmits : ∀ e ∈ f.code.entries, sem.Admits t e.2 := by
    intro e he
    refine ⟨?_, X86.lawful _ hphys e.2 [], ?_⟩ <;> revert e <;> rw [hentries] <;> decide
  have hfirst : sem.WritesFirst [] f.code.entries := by
    rw [hentries]
    decide
  obtain ⟨prologue, body, epilogue, hcode, -, -, hbody, hsame⟩ := compile_preserves_meaning .x86
    (by decide) hf hemit (X86.movesFrame _ hphys) hadmits hfirst hcompile
  -- the word above the frame is apart from the one slot and the one reserved slot
  have habove : ∀ x, InWord 4112 x →
      ¬ (f.spillArea t compiled.allocation).InSlots 4096 compiled.frame.reservedSlots x := by
    rw [harea, hreserved]
    rintro x hx (⟨n, hn, hin⟩ | ⟨n, hn, hn', hin⟩)
    · cases Nat.lt_one_iff.1 hn
      exact apart_of_offsets 4096 (d := 16) (e := -8) (by decide) (by decide) (by decide) x hx hin
    · cases Nat.le_antisymm hn' hn
      exact apart_of_offsets 4096 (d := 16) (e := -16) (by decide) (by decide) (by decide) x hx hin
  have hclear : sem.KeepsClear t (fun _ _ ↦ 0) ((f.spillArea t compiled.allocation).InSlots 4096
      compiled.frame.reservedSlots) f.code.entries s := by
    rw [hentries]
    refine ⟨?_, ?_, ?_, ?_, ?_, trivial⟩
    · exact fun x hx ↦ by rcases hx with hx | hx <;> cases hx
    · exact fun x hx ↦ by rcases hx with hx | hx <;> cases hx
    · exact fun x hx ↦ nomatch hx
    · exact fun x hx ↦ by rcases hx with hx | hx <;> cases hx
    · intro x hx
      rcases hx with hx | hx
      · cases hx
      · exact habove x hx
  obtain ⟨hagrees, hmem, -⟩ := hsame (fun _ _ ↦ 0) (fun _ _ ↦ 7) s s 4096 rfl rfl
    (fun _ _ ↦ rfl) hclear
  have hvalues : (sem.trace t (fun _ _ ↦ 0) f.code.entries s).map (·.values) =
      [[], [], [], [2, 1], [3, 4096]] := by
    rw [hentries]
    decide
  have hsum : (sem.run t (fun _ _ ↦ 0) f.code.entries s).mem.load 4112 = 3 := by
    rw [hentries]
    decide
  have hspill : compiled.allocation.spillCount = 1 := congrArg SpillArea.spillCount harea
  refine ⟨f, counter, compiled, hf, hcompile, hspill, prologue, body, epilogue, hcode, hbody, ?_,
    ?_⟩
  · exact (Observation.map_values_eq hagrees).trans hvalues
  · exact (Memory.load_congr fun x hx ↦ hmem x (habove x hx)).trans hsum

end MachineCode

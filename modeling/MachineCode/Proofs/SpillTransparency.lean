import MachineCode.Proofs.FrameSizes
import MachineCode.Proofs.LoweredCode
import MachineCode.Proofs.RiscVExecution
import Mathlib.Data.List.Perm.Subperm

/-!
# Spill code is transparent

A block of spill code around an instruction does what the instruction would do if its spilled
registers lived in their slots. The argument follows the block:

* before the instruction the lent registers go to their reserved slots and are filled from the stack
  slots (`run_exchanges`);
* the instruction on the lent registers then mirrors the instruction on the spilled ones
  (`Lawful.mirrors`), since putting in the lent registers is a renaming
  (`Lends.renaming_substitute`);
* after the instruction the lent registers go to the stack slots and are filled from the reserved
  slots (`run_exchanges` again), which the instruction has not touched.

The instruction must not write the frame pointer: the code after it would look for the slots in
another place. And a register that is hardwired must not be lent, since it takes no value from a
slot.
-/

namespace MachineCode

open Machine

/-- Virtual registers that live in stack slots live in different ones, among those that the
allocation counts. -/
structure Allocation.DistinctSlots (a : Allocation) : Prop where
  injective : ∀ v w n, v.isVirtual → w.isVirtual → a.slotOf? v = some n → a.slotOf? w = some n →
    v = w
  bounded : ∀ v n, v.isVirtual → a.slotOf? v = some n → n < a.spillCount

/-- An allocation that was made by hand is checked on its entries. -/
theorem Allocation.distinctSlots_of_entries {a : Allocation}
    (hinj : ∀ e ∈ a.places.entries, ∀ e' ∈ a.places.entries, e.2.slotIndex? ≠ none →
      e.2.slotIndex? = e'.2.slotIndex? → e.1 = e'.1)
    (hbound : ∀ e ∈ a.places.entries, e.2.slotIndex?.all (· < a.spillCount)) :
    a.DistinctSlots := by
  have hentry : ∀ v n, a.slotOf? v = some n →
      ∃ place, (v, place) ∈ a.places.entries ∧ place.slotIndex? = some n := by
    intro v n h
    obtain ⟨place, hplace, hslot⟩ := Option.bind_eq_some_iff.1 h
    exact ⟨place, RegisterMap.mem_entries_iff.2 hplace, hslot⟩
  constructor
  · intro v w n _ _ hv hw
    obtain ⟨p, hp, hpn⟩ := hentry v n hv
    obtain ⟨q, hq, hqn⟩ := hentry w n hw
    exact hinj _ hp _ hq (by simp [hpn]) (hpn.trans hqn.symm)
  · intro v n _ hv
    obtain ⟨p, hp, hpn⟩ := hentry v n hv
    have hlt := hbound _ hp
    rw [hpn] at hlt
    simpa using hlt

theorem Instruction.mem_spilled {Op : Type} {i : Instruction Op} {v : Register} :
    v ∈ i.spilled ↔ v ∈ i.registers ∧ v.isVirtual := by
  rw [spilled, Register.mem_distinct, List.mem_filter]

namespace Lends

variable {Op : Type} {t : Target Op} {a : Allocation} {i : Instruction Op}
  {inUse implicit : List Register} {loans : List Loan}

/-! ### Lent registers -/

/-- Only spilled registers borrow. -/
theorem isVirtual (h : Lends t a i inUse i.spilled loans) {x : Loan} (hx : x ∈ loans) :
    x.vreg.isVirtual := by
  have hmem : x.vreg ∈ i.spilled := h.vregs ▸ List.mem_map_of_mem hx
  exact (Instruction.mem_spilled.1 hmem).2

/-- Every spilled register borrows. -/
theorem exists_loan (h : Lends t a i inUse i.spilled loans) {v : Register} (hv : v ∈ i.spilled) :
    ∃ x ∈ loans, x.vreg = v := by
  rw [← h.vregs] at hv
  exact List.mem_map.1 hv

/-- No register borrows twice. -/
theorem nodup_vregs (h : Lends t a i inUse i.spilled loans) : (loans.map (·.vreg)).Nodup := by
  rw [h.vregs]
  exact Register.nodup_distinct _

/-- A register is replaced by the one that it borrows. -/
theorem substitute_vreg (h : Lends t a i inUse i.spilled loans) {x : Loan} (hx : x ∈ loans) :
    Loan.substitute loans x.vreg = x.scratch := by
  rw [Loan.substitute]
  cases hfind : loans.find? (·.vreg = x.vreg) with
  | none => exact absurd (decide_eq_true rfl) (List.find?_eq_none.1 hfind x hx)
  | some y =>
    have hy := List.mem_of_find?_eq_some hfind
    have heq : y.vreg = x.vreg := by simpa using List.find?_some hfind
    rw [List.inj_on_of_nodup_map h.nodup_vregs hy hx heq]
    rfl

theorem substitute_of_not_mem (h : Lends t a i inUse i.spilled loans) {r : Register}
    (hr : r ∉ i.spilled) : Loan.substitute loans r = r := by
  rw [Loan.substitute, List.find?_eq_none.2]
  · rfl
  · intro x hx heq
    rw [decide_eq_true_eq] at heq
    exact hr (h.vregs ▸ heq ▸ List.mem_map_of_mem hx)

/-- Through the loans no virtual register of the instruction is left. -/
theorem not_isVirtual_substitute (h : Lends t a i inUse i.spilled loans)
    (hphys : ∀ r ∈ t.allocatable, r.isPhysical) {r : Register} (hr : r ∈ i.registers) :
    ¬ (Loan.substitute loans r).isVirtual := by
  by_cases hv : r.isVirtual
  · obtain ⟨x, hx, rfl⟩ := h.exists_loan (Instruction.mem_spilled.2 ⟨hr, hv⟩)
    rw [h.substitute_vreg hx]
    exact Register.not_isVirtual_of_isPhysical (hphys _ (h.allocatable x hx))
  · rwa [h.substitute_of_not_mem fun hmem ↦ hv (Instruction.mem_spilled.1 hmem).2]

/-- Lent registers apart, no two registers are seen as one through the loans. -/
theorem substitute_injOn (h : Lends t a i inUse i.spilled loans) {r q : Register}
    (hr : r ∉ loans.map (·.scratch)) (hq : q ∉ loans.map (·.scratch))
    (heq : Loan.substitute loans r = Loan.substitute loans q) : r = q := by
  by_cases hrm : r ∈ i.spilled <;> by_cases hqm : q ∈ i.spilled
  · obtain ⟨x, hx, rfl⟩ := h.exists_loan hrm
    obtain ⟨y, hy, rfl⟩ := h.exists_loan hqm
    rw [h.substitute_vreg hx, h.substitute_vreg hy] at heq
    rw [List.inj_on_of_nodup_map h.nodup hx hy heq]
  · obtain ⟨x, hx, rfl⟩ := h.exists_loan hrm
    rw [h.substitute_vreg hx, h.substitute_of_not_mem hqm] at heq
    exact absurd (heq ▸ List.mem_map_of_mem hx) hq
  · obtain ⟨y, hy, rfl⟩ := h.exists_loan hqm
    rw [h.substitute_vreg hy, h.substitute_of_not_mem hrm] at heq
    exact absurd (heq ▸ List.mem_map_of_mem hy) hr
  · rwa [h.substitute_of_not_mem hrm, h.substitute_of_not_mem hqm] at heq

/-- A register that the instruction touches is not lent. -/
theorem not_lent_of_touched
    (h : Lends t a i (implicit ++ i.registers.filter (·.isPhysical)) i.spilled loans)
    (hphys : ∀ r ∈ t.allocatable, r.isPhysical) {r : Register}
    (hr : r ∈ i.registers ++ implicit) : r ∉ loans.map (·.scratch) := by
  intro hmem
  obtain ⟨x, hx, rfl⟩ := List.mem_map.1 hmem
  refine h.free x hx ?_
  rw [List.mem_append] at hr ⊢
  rcases hr with hr | hr
  · exact Or.inr (List.mem_filter.2 ⟨hr, hphys _ (h.allocatable x hx)⟩)
  · exact Or.inl hr

/-- **Putting in the lent registers is a renaming.** -/
theorem renaming_substitute
    (h : Lends t a i (implicit ++ i.registers.filter (·.isPhysical)) i.spilled loans)
    (hphys : ∀ r ∈ t.allocatable, r.isPhysical) :
    RegisterRenaming t.allocatable (i.registers ++ implicit) (Loan.substitute loans) := by
  refine ⟨fun r hr ↦ ?_, fun r hr ↦ ?_, fun r hr q hq heq ↦ ?_⟩
  · exact h.substitute_of_not_mem fun hmem ↦ hr (Instruction.mem_spilled.1 hmem).2
  · by_cases hmem : r ∈ i.spilled
    · obtain ⟨x, hx, rfl⟩ := h.exists_loan hmem
      rw [h.substitute_vreg hx]
      exact Or.inr (h.allocatable x hx)
    · rw [h.substitute_of_not_mem hmem]
      exact Or.inl hr
  · exact h.substitute_injOn (h.not_lent_of_touched hphys hr) (h.not_lent_of_touched hphys hq) heq

theorem length_eq (h : Lends t a i inUse i.spilled loans) : loans.length = i.spilled.length := by
  rw [← h.vregs, List.length_map]

/-- There are fewer loans than physical registers. -/
theorem length_lt (h : Lends t a i inUse i.spilled loans)
    (hphys : ∀ r ∈ t.allocatable, r.isPhysical) : loans.length < Unsigned32.bound := by
  have hnodup : ((loans.map (·.scratch)).map Register.number).Nodup :=
    h.nodup.map fun _ _ ↦ Register.ext_number
  have hsub : (loans.map (·.scratch)).map Register.number ⊆ List.range Register.firstSlot := by
    intro n hn
    obtain ⟨r, hr, rfl⟩ := List.mem_map.1 hn
    obtain ⟨x, hx, rfl⟩ := List.mem_map.1 hr
    exact List.mem_range.2 (Register.isPhysical_iff.1 (hphys _ (h.allocatable x hx))).2
  have hle := (List.subperm_of_subset hnodup hsub).length_le
  rw [List.length_map, List.length_map, List.length_range, Register.firstSlot] at hle
  rw [Unsigned32.bound]
  omega

end Lends

/-! ### The code before an instruction and the code after it -/

/-- Before an instruction each lent register goes to its reserved slot and is filled from the stack
slot. The code after the instruction reverses this. -/
def Loan.exchanges (area : SpillArea) (loans : List Loan) : List Exchange :=
  loans.zipIdx.map fun x ↦ ⟨x.1.scratch, area.reservedOffset (x.2 + 1), area.slotOffset x.1.slot⟩

namespace Loan

variable {area : SpillArea} {loans : List Loan}

/-- A numbered loan is a loan, and its number is below how many there are. -/
theorem mem_of_mem_zipIdx {x : Loan × Nat} (hx : x ∈ loans.zipIdx) :
    x.1 ∈ loans ∧ x.2 < loans.length := by
  have h := List.mem_zipIdx hx
  simp only [Nat.zero_le, Nat.zero_add, Nat.sub_zero, true_and] at h
  obtain ⟨hlt, heq⟩ := h
  exact ⟨heq ▸ List.getElem_mem hlt, hlt⟩

theorem exists_mem_zipIdx {x : Loan} (hx : x ∈ loans) : ∃ n, (x, n) ∈ loans.zipIdx := by
  rw [← List.zipIdx_map_fst 0 loans] at hx
  obtain ⟨⟨y, n⟩, hmem, rfl⟩ := List.mem_map.1 hx
  exact ⟨n, hmem⟩

/-- The exchanged registers are the ones that are lent. -/
theorem reg_exchanges (area : SpillArea) (loans : List Loan) :
    (exchanges area loans).map (·.reg) = loans.map (·.scratch) := by
  conv_rhs => rw [← List.zipIdx_map_fst 0 loans]
  rw [exchanges, List.map_map, List.map_map]
  rfl

end Loan

namespace Lends

variable {Op : Type} {t : Target Op} {a : Allocation} {i : Instruction Op}
  {inUse implicit : List Register} {loans : List Loan} {area : SpillArea}

/-- The exchanges of some loans do not disturb each other: the slots are all apart. -/
theorem independent_exchanges (h : Lends t a i inUse i.spilled loans)
    (hphys : ∀ r ∈ t.allocatable, r.isPhysical ∧ r ≠ t.framePointer) (ha : a.DistinctSlots)
    (harea : area.Fits) (hcount : area.spillCount = a.spillCount) (fp : Word) :
    Independent t fp (Loan.exchanges area loans) := by
  have hlen := h.length_lt fun r hr ↦ (hphys r hr).1
  have hslot : ∀ x ∈ loans, x.slot < area.spillCount := fun x hx ↦
    hcount ▸ ha.bounded _ _ (h.isVirtual hx) (h.slot x hx)
  constructor
  · intro y hy
    obtain ⟨x, hx, rfl⟩ := List.mem_map.1 hy
    have hmem := h.allocatable x.1 (Loan.mem_of_mem_zipIdx hx).1
    exact ⟨hmem, (hphys _ hmem).2⟩
  · rw [Loan.reg_exchanges]
    exact h.nodup
  · -- reserved slots are apart because they are numbered
    have hidx : loans.zipIdx.Pairwise fun x y ↦ x.2 < y.2 := by
      have := List.pairwise_lt_range' (s := 0) (n := loans.length)
      rw [← List.zipIdx_map_snd] at this
      exact List.pairwise_map.1 this
    refine List.pairwise_map.2 (hidx.imp_of_mem fun {x y} hx hy hlt ↦ ?_)
    have hx := (Loan.mem_of_mem_zipIdx hx).2
    have hy := (Loan.mem_of_mem_zipIdx hy).2
    exact SpillArea.apart_reserved harea fp (by omega) (by omega) (by omega)
  · -- stack slots are apart because they belong to different registers
    have hvregs : loans.zipIdx.Pairwise fun x y ↦ x.1.vreg ≠ y.1.vreg := by
      have := h.nodup_vregs
      rw [← List.zipIdx_map_fst 0 loans, List.map_map] at this
      exact List.pairwise_map.1 this
    refine List.pairwise_map.2 (hvregs.imp_of_mem fun {x y} hx hy hne ↦ ?_)
    have hx := (Loan.mem_of_mem_zipIdx hx).1
    have hy := (Loan.mem_of_mem_zipIdx hy).1
    refine SpillArea.apart_slots harea fp (hslot _ hx) (hslot _ hy) fun heq ↦ hne ?_
    exact ha.injective _ _ _ (h.isVirtual hx) (h.isVirtual hy) (h.slot _ hx)
      (heq ▸ h.slot _ hy)
  · intro x' hx' y' hy'
    obtain ⟨x, hx, rfl⟩ := List.mem_map.1 hx'
    obtain ⟨y, hy, rfl⟩ := List.mem_map.1 hy'
    have hn := (Loan.mem_of_mem_zipIdx hx).2
    exact (SpillArea.apart_slot_reserved harea fp (hslot _ (Loan.mem_of_mem_zipIdx hy).1)
      (by omega) (by omega)).symm

end Lends

/-! ### Blocks -/

/-- **No virtual register is left in a block** if only physical registers are handed out. -/
theorem BlockFor.not_hasVirtual {Op : Type} {t : Target Op} {a : Allocation} {area : SpillArea}
    {bound reserved : Nat} {e : Handle × Instruction Op} {block : List (Handle × Instruction Op)}
    (h : BlockFor t a area bound reserved e block) (hmoves : t.MovesPhysical)
    (hphys : ∀ r ∈ t.allocatable, r.isPhysical) : ∀ x ∈ block, ¬ x.2.hasVirtual := by
  obtain ⟨implicit, loans, before, after, -, hlends, -, hcode, rfl⟩ := h
  -- a lent register is moved by instructions that name it and the frame pointer
  have hpair : ∀ (x : Loan × Nat) (dst src : Int), x ∈ loans.zipIdx →
      ∀ i ∈ [t.store x.1.scratch dst, t.load src x.1.scratch], i.Physical := by
    intro x dst src hx
    have hscratch := hphys _ (hlends.allocatable x.1 (Loan.mem_of_mem_zipIdx hx).1)
    simpa using ⟨(hmoves _ dst hscratch).1, (hmoves _ src hscratch).2⟩
  intro x hx
  rw [List.mem_append, List.mem_cons] at hx
  rcases hx with hx | rfl | hx
  · have hmem := List.mem_map_of_mem (f := Prod.snd) hx
    rw [hcode.before_eq] at hmem
    obtain ⟨y, hy, hmem⟩ := List.mem_flatMap.1 hmem
    exact (hpair y _ _ hy _ hmem).not_hasVirtual
  · rw [Instruction.hasVirtual, List.any_eq_true]
    rintro ⟨q, hq, hqv⟩
    have habsent : Loan.substitute loans .absent = .absent :=
      hlends.substitute_of_not_mem fun hmem ↦ absurd (Instruction.mem_spilled.1 hmem).2 (by decide)
    obtain ⟨r, hr, rfl⟩ := Instruction.exists_of_mem_mapRegisters habsent hq
    exact hlends.not_isVirtual_substitute hphys hr hqv
  · have hmem := List.mem_map_of_mem (f := Prod.snd) hx
    rw [hcode.after_eq] at hmem
    obtain ⟨y, hy, hmem⟩ := List.mem_flatMap.1 hmem
    exact (hpair y _ _ hy _ hmem).not_hasVirtual

/-- No virtual register is left in the blocks of a list of instructions. -/
theorem not_hasVirtual_flatten {Op α : Type} {t : Target Op} {a : Allocation} {area : SpillArea}
    {bound reserved : Nat} {source : α → Handle × Instruction Op} {l : List α}
    {blocks : List (List (Handle × Instruction Op))}
    (h : List.Forall₂ (fun e ↦ BlockFor t a area bound reserved (source e)) l blocks)
    (hmoves : t.MovesPhysical) (hphys : ∀ r ∈ t.allocatable, r.isPhysical) :
    ∀ x ∈ blocks.flatten, ¬ x.2.hasVirtual := by
  induction h with
  | nil => exact fun x hx ↦ nomatch hx
  | cons hblock _ ih =>
    rw [List.flatten_cons, List.forall_mem_append]
    exact ⟨hblock.not_hasVirtual hmoves hphys, ih⟩

namespace Machine

/-- The state in which the registers `vs` hold what is in their stack slots. -/
def State.fromSlots (a : Allocation) (area : SpillArea) (fp : Word) (vs : List Register)
    (s : State) : State :=
  { s with regs := fun r ↦
      if r ∈ vs then s.mem.load (area.slotAddress fp ((a.slotOf? r).getD 0)) else s.regs r }

theorem State.regs_fromSlots_of_not_mem {a : Allocation} {area : SpillArea} {fp : Word}
    {vs : List Register} {s : State} {r : Register} (hr : r ∉ vs) :
    (s.fromSlots a area fp vs).regs r = s.regs r := if_neg hr

/-- A register of the list has the value of its stack slot. -/
theorem State.regs_fromSlots {a : Allocation} {area : SpillArea} {fp : Word}
    {vs : List Register} {s : State} {r : Register} {n : Nat} (hr : r ∈ vs)
    (hn : a.slotOf? r = some n) :
    (s.fromSlots a area fp vs).regs r = s.mem.load (area.slotAddress fp n) := by
  rw [fromSlots]
  simp only [if_pos hr, hn]
  rfl

/-- A physical register is not taken from a slot. -/
theorem State.regs_fromSlots_of_isPhysical {Op : Type} {a : Allocation} {area : SpillArea}
    {fp : Word} {i : Instruction Op} {s : State} {q : Register} (hq : q.isPhysical) :
    (s.fromSlots a area fp i.spilled).regs q = s.regs q :=
  regs_fromSlots_of_not_mem fun hmem ↦
    Register.not_isVirtual_of_isPhysical hq (Instruction.mem_spilled.1 hmem).2

/-- The state `s'` is what the state `r` becomes when the registers that `i` spills are put into
their slots; only these and the first `reserved` reserved slots may differ. -/
structure Transparent {Op : Type} (a : Allocation) (area : SpillArea) (fp : Word)
    (reserved : Nat) (i : Instruction Op) (r s' : State) : Prop where
  slots : ∀ v ∈ i.spilled, ∀ n, a.slotOf? v = some n →
    s'.mem.load (area.slotAddress fp n) = r.regs v
  regs : ∀ q, q.isPhysical → s'.regs q = r.regs q
  mem : ∀ x, (∀ v ∈ i.spilled, ∀ n, a.slotOf? v = some n → ¬ InWord (area.slotAddress fp n) x) →
    (∀ n, 1 ≤ n → n ≤ reserved → ¬ InWord (area.reservedAddress fp n) x) → s'.mem x = r.mem x

section Block

variable {Op : Type} {t : Target Op} {sem : Semantics Op} {a : Allocation} {area : SpillArea}
  {i : Instruction Op} {implicit : List Register} {loans : List Loan} {reserved : Nat}
  {fp : Word} {s u w : State}

/-- The code before an instruction: every register that is not lent is seen through the loans as
it is with the spilled registers taken from their slots. -/
theorem regs_substitute_of_exchanged
    (hlends : Lends t a i (implicit ++ i.registers.filter (·.isPhysical)) i.spilled loans)
    (hbefore : Exchanged fp (Loan.exchanges area loans) s u) {r : Register}
    (hr : r ∉ loans.map (·.scratch)) :
    u.regs (Loan.substitute loans r) = (s.fromSlots a area fp i.spilled).regs r := by
  by_cases hmem : r ∈ i.spilled
  · obtain ⟨x, hx, rfl⟩ := hlends.exists_loan hmem
    obtain ⟨n, hn⟩ := Loan.exists_mem_zipIdx hx
    have hfilled := hbefore.filled _ (List.mem_map.2 ⟨(x, n), hn, rfl⟩)
    rw [hlends.substitute_vreg hx, hfilled, State.regs_fromSlots hmem (hlends.slot x hx)]
    rfl
  · rw [hlends.substitute_of_not_mem hmem, hbefore.regs r (by rwa [Loan.reg_exchanges]),
      State.regs_fromSlots_of_not_mem hmem]

/-- The instruction between the two does to a register as it is seen through the loans what it does
to the register itself. -/
theorem regs_step_substitute (ht : t.Conforming) (hphys : ∀ r ∈ t.allocatable, r.isPhysical)
    (hlends : Lends t a i (implicit ++ i.registers.filter (·.isPhysical)) i.spilled loans)
    (hlaw : sem.Lawful t.allocatable i implicit) {v : State}
    (hagree : ∀ r ∉ loans.map (·.scratch), u.regs (Loan.substitute loans r) = v.regs r)
    (hmirrors : sem.Mirrors i (Loan.substitute loans) v u) (left : Register → Word) {r : Register}
    (hr : r ∉ loans.map (·.scratch)) :
    (sem.step t left (i.mapRegisters (Loan.substitute loans)) u).regs (Loan.substitute loans r) =
      (sem.step t left i v).regs r := by
  have hexec : (sem.exec (i.mapRegisters (Loan.substitute loans)) u).regs
      (Loan.substitute loans r) = (sem.exec i v).regs r := by
    by_cases hw : r ∈ sem.writes i
    · exact hmirrors.written r hw
    · rw [hlaw.self_confined.regs v r hw, ← hagree r hr]
      refine hmirrors.kept _ fun q hq heq ↦ hw ?_
      have hq' := hlends.not_lent_of_touched hphys (hlaw.writes_subset q hq)
      exact hlends.substitute_injOn hq' hr heq ▸ hq
  -- a call leaves the lent registers alone, and of course the spilled ones
  by_cases hmem : r ∈ i.spilled
  · obtain ⟨x, hx, rfl⟩ := hlends.exists_loan hmem
    rw [Semantics.regs_step_of_isVirtual ht left v (hlends.isVirtual hx), ← hexec]
    refine Semantics.regs_step_of_not ?_
    rw [ht.isCall_mapRegisters, hlends.substitute_vreg hx]
    exact hlends.saved x hx
  · rw [Semantics.regs_step, Semantics.regs_step, ht.isCall_mapRegisters, hexec,
      hlends.substitute_of_not_mem hmem]

/-- Memory outside the reserved slots is not touched before the instruction. -/
theorem mem_of_exchanged (hlen : loans.length ≤ reserved)
    (hbefore : Exchanged fp (Loan.exchanges area loans) s u) {x : Word}
    (hx : ∀ n, 1 ≤ n → n ≤ reserved → ¬ InWord (area.reservedAddress fp n) x) :
    u.mem x = s.mem x := by
  refine hbefore.mem x (List.forall_mem_map.2 fun y hy ↦ ?_)
  have hlt := (Loan.mem_of_mem_zipIdx hy).2
  exact hx (y.2 + 1) (by omega) (by omega)

/-- Outside the reserved slots the instruction leaves the memory that it leaves with the spilled
registers in their slots. -/
theorem mem_step_substitute (hlen : loans.length ≤ reserved)
    (hbefore : Exchanged fp (Loan.exchanges area loans) s u) (hconfined : sem.Confined i)
    (hmirrors : sem.Mirrors i (Loan.substitute loans) (s.fromSlots a area fp i.spilled) u)
    (left : Register → Word) {x : Word}
    (hx : ∀ n, 1 ≤ n → n ≤ reserved → ¬ InWord (area.reservedAddress fp n) x) :
    (sem.step t left (i.mapRegisters (Loan.substitute loans)) u).mem x =
      (sem.step t left i (s.fromSlots a area fp i.spilled)).mem x := by
  rw [Semantics.mem_step, Semantics.mem_step]
  by_cases hfoot : sem.footprint i (s.fromSlots a area fp i.spilled) x
  · exact hmirrors.touched x hfoot
  · rw [hmirrors.untouched x hfoot, hconfined.mem _ x hfoot, mem_of_exchanged hlen hbefore hx]
    rfl

/-- What was put away is still in its reserved slot after the instruction. -/
theorem load_reserved_step (hlen : loans.length ≤ reserved)
    (hbefore : Exchanged fp (Loan.exchanges area loans) s u)
    (hmirrors : sem.Mirrors i (Loan.substitute loans) (s.fromSlots a area fp i.spilled) u)
    (hclear : ∀ x, sem.footprint i (s.fromSlots a area fp i.spilled) x →
      ¬ area.InSlots fp reserved x) (left : Register → Word) {x : Loan} {n : Nat}
    (hx : (x, n) ∈ loans.zipIdx) :
    (sem.step t left (i.mapRegisters (Loan.substitute loans)) u).mem.load
      (area.reservedAddress fp (n + 1)) = s.regs x.scratch := by
  have hlt := (Loan.mem_of_mem_zipIdx hx).2
  have hstored : u.mem.load (area.reservedAddress fp (n + 1)) = s.regs x.scratch :=
    hbefore.stored ⟨x.scratch, area.reservedOffset (n + 1), area.slotOffset x.slot⟩
      (List.mem_map.2 ⟨(x, n), hx, rfl⟩)
  rw [← hstored]
  refine Memory.load_congr fun y hy ↦ ?_
  refine hmirrors.untouched y fun hfoot ↦ hclear y hfoot (Or.inr ⟨n + 1, ?_, ?_, hy⟩)
  · exact Nat.succ_le_succ (Nat.zero_le n)
  · exact Nat.le_trans hlt hlen

/-- A physical register that the instruction does not change holds what it held before the block. -/
theorem regs_step_fromSlots (hconfined : sem.Confined i) (left : Register → Word) {q : Register}
    (hq : q.isPhysical) (hw : q ∉ sem.writes i) (hsaved : t.isCall i → ¬ t.isCallerSaved q) :
    (sem.step t left i (s.fromSlots a area fp i.spilled)).regs q = s.regs q := by
  rw [Semantics.regs_step_of_not hsaved, hconfined.regs _ _ hw,
    State.regs_fromSlots_of_isPhysical hq]

/-- The code after the instruction completes what the code before it and the instruction did. -/
theorem transparent_of_exchanged {s' : State} (left : Register → Word)
    (hphys : ∀ r ∈ t.allocatable, r.isPhysical)
    (hlends : Lends t a i (implicit ++ i.registers.filter (·.isPhysical)) i.spilled loans)
    (hlaw : sem.Lawful t.allocatable i implicit)
    (hregs : ∀ r ∉ loans.map (·.scratch), w.regs (Loan.substitute loans r) =
      (sem.step t left i (s.fromSlots a area fp i.spilled)).regs r)
    (hreserved : ∀ x n, (x, n) ∈ loans.zipIdx →
      w.mem.load (area.reservedAddress fp (n + 1)) = s.regs x.scratch)
    (hmem : ∀ x, (∀ n, 1 ≤ n → n ≤ reserved → ¬ InWord (area.reservedAddress fp n) x) →
      w.mem x = (sem.step t left i (s.fromSlots a area fp i.spilled)).mem x)
    (hafter : Exchanged fp ((Loan.exchanges area loans).map Exchange.reverse) w s') :
    Transparent a area fp reserved i
      (sem.step t left i (s.fromSlots a area fp i.spilled)) s' := by
  have hback : ∀ x n, (x, n) ∈ loans.zipIdx →
      (⟨x.scratch, area.slotOffset x.slot, area.reservedOffset (n + 1)⟩ : Exchange) ∈
        (Loan.exchanges area loans).map Exchange.reverse := fun x n hx ↦
    List.mem_map.2 ⟨_, List.mem_map.2 ⟨(x, n), hx, rfl⟩, rfl⟩
  refine ⟨fun r hr n hn ↦ ?_, fun q hq ↦ ?_, fun x hslots hx ↦ ?_⟩
  · obtain ⟨x, hx, rfl⟩ := hlends.exists_loan hr
    obtain ⟨m, hm⟩ := Loan.exists_mem_zipIdx hx
    have hstored := hafter.stored _ (hback x m hm)
    cases (hlends.slot x hx).symm.trans hn
    have hnot := hlends.not_lent_of_touched hphys
      (List.mem_append_left implicit (Instruction.mem_spilled.1 hr).1)
    rw [← hregs _ hnot, hlends.substitute_vreg hx]
    exact hstored
  · by_cases hlent : q ∈ loans.map (·.scratch)
    · -- a lent register comes back from its reserved slot
      obtain ⟨x, hx, rfl⟩ := List.mem_map.1 hlent
      obtain ⟨m, hm⟩ := Loan.exists_mem_zipIdx hx
      have hfilled := hafter.filled _ (hback x m hm)
      have hw : x.scratch ∉ sem.writes i := fun hw ↦
        hlends.not_lent_of_touched hphys (hlaw.writes_subset _ hw) hlent
      rw [regs_step_fromSlots hlaw.self_confined left hq hw (hlends.saved x hx)]
      exact hfilled.trans (hreserved x m hm)
    · have hfixed := (hlends.renaming_substitute hphys).fixes q
        (Register.not_isVirtual_of_isPhysical hq)
      rw [hafter.regs q (by rwa [Exchange.reg_reverse, Loan.reg_exchanges]), ← hregs q hlent,
        hfixed]
  · rw [hafter.mem x, hmem x hx]
    refine List.forall_mem_map.2 (List.forall_mem_map.2 fun y hy ↦ ?_)
    have hy := (Loan.mem_of_mem_zipIdx hy).1
    exact hslots y.1.vreg (hlends.vregs ▸ List.mem_map_of_mem hy) y.1.slot (hlends.slot _ hy)

/-- A slot of another register than those that the instruction spills keeps its value: it is apart
from all slots that the block stores to, and the instruction keeps clear of it. -/
theorem Transparent.load_slot {s' : State} {left : Register → Word} (harea : area.Fits)
    (ha : a.DistinctSlots) (hcount : area.spillCount = a.spillCount)
    (hconfined : sem.Confined i) (hreserved : reserved < Unsigned32.bound)
    (h : Transparent a area fp reserved i
      (sem.step t left i (s.fromSlots a area fp i.spilled)) s')
    (hclear : ∀ x, sem.footprint i (s.fromSlots a area fp i.spilled) x →
      ¬ area.InSlots fp reserved x) {n : Nat} (hn : n < a.spillCount)
    (hother : ∀ v ∈ i.spilled, a.slotOf? v ≠ some n) :
    s'.mem.load (area.slotAddress fp n) = s.mem.load (area.slotAddress fp n) := by
  rw [← hcount] at hn
  refine Memory.load_congr fun x hx ↦ ?_
  have hsame : s'.mem x = (sem.step t left i (s.fromSlots a area fp i.spilled)).mem x := by
    refine h.mem x (fun v hv m hm hin ↦ ?_) fun m hm hm' hin ↦ ?_
    · have hm' := ha.bounded v m (Instruction.mem_spilled.1 hv).2 hm
      rw [← hcount] at hm'
      have hne : n ≠ m := fun heq ↦ hother v hv (heq ▸ hm)
      exact SpillArea.apart_slots harea fp hn hm' hne x hx hin
    · exact SpillArea.apart_slot_reserved harea fp hn hm (by omega) x hx hin
  rw [hsame, Semantics.mem_step, hconfined.mem]
  · rfl
  · exact fun hfoot ↦ hclear x hfoot (Or.inl ⟨n, hn, hx⟩)

variable {bound : Nat} {before after : List (Handle × Instruction Op)}

/-- **A block up to its instruction**: the code before it has exchanged the lent registers for the
values of the stack slots, and the instruction with the lent registers does what it would do with
the spilled registers in their slots. -/
theorem mirrors_block (ht : t.Conforming) (hsem : sem.MovesFrame t)
    (hphys : ∀ r ∈ t.allocatable, r.isPhysical ∧ r ≠ t.framePointer) (ha : a.DistinctSlots)
    (harea : area.Fits) (hcount : area.spillCount = a.spillCount)
    (hlends : Lends t a i (implicit ++ i.registers.filter (·.isPhysical)) i.spilled loans)
    (hlen : loans.length ≤ reserved) (hcode : SpillCode t area bound loans before after)
    (hlaw : sem.Lawful t.allocatable i implicit) (left : Handle → Register → Word)
    (hfp : s.regs t.framePointer = fp)
    (hclear : ∀ x, sem.footprint i (s.fromSlots a area fp i.spilled) x →
      ¬ area.InSlots fp reserved x) :
    let v := s.fromSlots a area fp i.spilled
    let u := sem.run t left before s
    let i' := i.mapRegisters (Loan.substitute loans)
    Exchanged fp (Loan.exchanges area loans) s u ∧
      sem.Mirrors i (Loan.substitute loans) v u ∧
      ∀ w, ∀ r ∉ loans.map (·.scratch),
        (sem.step t w i' u).regs (Loan.substitute loans r) = (sem.step t w i v).regs r := by
  intro v u i'
  have hphys' : ∀ r ∈ t.allocatable, r.isPhysical := fun r hr ↦ (hphys r hr).1
  have hbefore : Exchanged fp (Loan.exchanges area loans) s u := by
    refine run_exchanges ht hsem (hlends.independent_exchanges hphys ha harea hcount fp) ?_ hfp
    rw [hcode.before_eq, Loan.exchanges, List.flatMap_map]
    rfl
  have hagree : ∀ r ∉ loans.map (·.scratch), u.regs (Loan.substitute loans r) = v.regs r :=
    fun r hr ↦ regs_substitute_of_exchanged hlends hbefore hr
  have hmirrors : sem.Mirrors i (Loan.substitute loans) v u := by
    refine hlaw.mirrors (hlends.renaming_substitute hphys') (fun r hr ↦ ?_) fun x hx ↦ ?_
    · exact hagree r (hlends.not_lent_of_touched hphys' (hlaw.reads_subset r hr))
    · exact mem_of_exchanged hlen hbefore fun n hn hn' hin ↦
        hclear x hx (Or.inr ⟨n, hn, hn', hin⟩)
  exact ⟨hbefore, hmirrors, fun w r hr ↦
    regs_step_substitute ht hphys' hlends hlaw hagree hmirrors w hr⟩

/-- **A block of spill code is transparent**, and on the way its instruction reads what it would
read with the spilled registers in their slots, and does the same to the memory outside the reserved
slots. -/
theorem transparent_block (ht : t.Conforming) (hsem : sem.MovesFrame t)
    (hphys : ∀ r ∈ t.allocatable, r.isPhysical ∧ r ≠ t.framePointer) (ha : a.DistinctSlots)
    (harea : area.Fits) (hcount : area.spillCount = a.spillCount)
    (hlends : Lends t a i (implicit ++ i.registers.filter (·.isPhysical)) i.spilled loans)
    (hlen : loans.length ≤ reserved) (hcode : SpillCode t area bound loans before after)
    (hlaw : sem.Lawful t.allocatable i implicit) (hwrites : t.framePointer ∉ sem.writes i)
    (left : Handle → Register → Word) (h : Handle) (hfp : s.regs t.framePointer = fp)
    (hclear : ∀ x, sem.footprint i (s.fromSlots a area fp i.spilled) x →
      ¬ area.InSlots fp reserved x) :
    let v := s.fromSlots a area fp i.spilled
    let u := sem.run t left before s
    let i' := i.mapRegisters (Loan.substitute loans)
    Transparent a area fp reserved i (sem.step t (left h) i v)
        (sem.run t left (before ++ (h, i') :: after) s) ∧
      (sem.reads i').map u.regs = (sem.reads i).map v.regs ∧
      ∀ x, (∀ n, 1 ≤ n → n ≤ reserved → ¬ InWord (area.reservedAddress fp n) x) →
        (sem.step t (left h) i' u).mem x = (sem.step t (left h) i v).mem x := by
  intro v u i'
  have hphys' : ∀ r ∈ t.allocatable, r.isPhysical := fun r hr ↦ (hphys r hr).1
  have hind := hlends.independent_exchanges hphys ha harea hcount fp
  obtain ⟨hbefore, hmirrors, hstep⟩ := mirrors_block ht hsem hphys ha harea hcount hlends hlen
    hcode hlaw left hfp hclear
  have hregs : ∀ r ∉ loans.map (·.scratch),
      (sem.step t (left h) i' u).regs (Loan.substitute loans r) =
        (sem.step t (left h) i v).regs r := hstep (left h)
  have hmem : ∀ x, (∀ n, 1 ≤ n → n ≤ reserved → ¬ InWord (area.reservedAddress fp n) x) →
      (sem.step t (left h) i' u).mem x = (sem.step t (left h) i v).mem x :=
    fun x hx ↦ mem_step_substitute hlen hbefore hlaw.self_confined hmirrors (left h) hx
  -- the frame pointer is neither lent, nor written, nor changed by a call
  have hstill : (sem.step t (left h) i' u).regs t.framePointer = fp := by
    have hnot : t.framePointer ∉ loans.map (·.scratch) := fun hmem ↦ by
      obtain ⟨x, hx, heq⟩ := List.mem_map.1 hmem
      exact (hphys _ (hlends.allocatable x hx)).2 heq
    have hfixed := (hlends.renaming_substitute hphys').fixes t.framePointer
      (Register.not_isVirtual_of_isPhysical ht.physical_framePointer)
    have hsame := hregs _ hnot
    rw [hfixed] at hsame
    rw [hsame, regs_step_fromSlots hlaw.self_confined _ ht.physical_framePointer hwrites
      fun _ ↦ ht.framePointer_saved, hfp]
  have hafter : Exchanged fp ((Loan.exchanges area loans).map Exchange.reverse)
      (sem.step t (left h) i' u) (sem.run t left (before ++ (h, i') :: after) s) := by
    rw [Semantics.run_append]
    refine run_exchanges ht hsem hind.reverse ?_ hstill
    rw [hcode.after_eq, Loan.exchanges, List.map_map, List.flatMap_map]
    rfl
  refine ⟨transparent_of_exchanged (left h) hphys' hlends hlaw hregs (fun x n hx ↦ ?_) hmem hafter,
    hmirrors.values, hmem⟩
  exact load_reserved_step hlen hbefore hmirrors hclear (left h) hx

end Block

end Machine

/-! ### All blocks of a function -/

/-- The block does what the instruction `e.2` does with its spilled registers in their slots: in
every machine state, on every machine that moves the registers `solid` to the frame and back, for
every meaning of the instruction that obeys the laws, does not write the frame pointer and works on
memory outside the slots. A physical register that the instruction does not change has its old
value, be it lent or not, and so has every slot of another register. -/
def RunsAs {Op : Type} (t : Target Op) (solid : Register → Prop) (a : Allocation)
    (area : SpillArea) (reserved : Nat) (implicit : List Register) (e : Handle × Instruction Op)
    (block : List (Handle × Instruction Op)) : Prop :=
  ∀ (sem : Semantics Op) (left : Handle → Register → Word) (s : State),
    sem.MovesWords t solid → sem.Lawful t.allocatable e.2 implicit →
    t.framePointer ∉ sem.writes e.2 →
    let fp := s.regs t.framePointer
    let v := s.fromSlots a area fp e.2.spilled
    let s' := sem.run t left block s
    (∀ x, sem.footprint e.2 v x → ¬ area.InSlots fp reserved x) →
      Transparent a area fp e.2.spilled.length e.2 (sem.step t (left e.1) e.2 v) s' ∧
      (∀ q, q.isPhysical → q ∉ sem.writes e.2 → (t.isCall e.2 → ¬ t.isCallerSaved q) →
        s'.regs q = s.regs q) ∧
      ∀ n < a.spillCount, (∀ v ∈ e.2.spilled, a.slotOf? v ≠ some n) →
        s'.mem.load (area.slotAddress fp n) = s.mem.load (area.slotAddress fp n)

/-- **Spill code is transparent.** On either machine, with any list of physical registers to hand
out that leaves the frame pointer and, on RISC-V, the register `zero` alone, and for any allocation
that gives different slots to different virtual registers: if spill code can be put into a function,
then its code is one block for each instruction, and the block of an instruction with spilled
registers runs as the instruction does. -/
theorem Function.insertSpillCode_transparent (k : TargetKind) {allocatable : List Register}
    (hallocatable : ∀ r ∈ allocatable,
      r.isPhysical ∧ r ≠ k.target.framePointer ∧ ¬ k.isHardwired r)
    {f f' : Function k.Opcode} {l : List (Handle × Instruction k.Opcode)}
    (hl : f.code.Represents l) {a : Allocation} (ha : a.DistinctSlots)
    (hcount : a.spillCount < Unsigned32.bound) {reserved : Nat}
    (h : (f.insertSpillCode (k.target.withAllocatable allocatable) a).result =
      .ok (reserved, f')) :
    let t := k.target.withAllocatable allocatable
    let area := f.spillArea t a
    ∃ blocks, f'.code.entries = blocks.flatten ∧
      List.Forall₂ (fun e block ↦ BlockFor t a area f.code.cells.size reserved e block ∧
        (e.2.spilled ≠ [] → ∃ implicit, t.implicitUses e.2 = .ok implicit ∧
          RunsAs t (¬ k.isHardwired ·) a area reserved implicit e block)) l blocks := by
  intro t area
  have ht : t.Conforming := k.conforming allocatable
  have harea : area.Fits := ⟨ht.registerSize, hcount⟩
  obtain ⟨blocks, hrep, hblocks, -⟩ := represents_insertSpillCode hl h
  refine ⟨blocks, hrep.entries_eq, hblocks.imp fun e block hblock ↦ ⟨hblock, fun hspilled ↦ ?_⟩⟩
  obtain ⟨implicit, loans, before, after, himplicit, hlends, hlen, hcode, rfl⟩ := hblock
  refine ⟨implicit, himplicit hspilled, fun sem left s hwords hlaw hwrites ↦ ?_⟩
  intro fp v s' hclear
  have hsem : sem.MovesFrame t := hwords.movesFrame fun r hr ↦ (hallocatable r hr).2.2
  have hphys : ∀ r ∈ t.allocatable, r.isPhysical ∧ r ≠ t.framePointer := fun r hr ↦
    ⟨(hallocatable r hr).1, (hallocatable r hr).2.1⟩
  have hlen' := hlends.length_eq
  have hbound := hlends.length_lt fun r hr ↦ (hphys r hr).1
  rw [hlen'] at hlen hbound
  have hclear' := fun x hx hin ↦ hclear x hx (SpillArea.InSlots.mono hin hlen)
  obtain ⟨htrans, -, -⟩ := transparent_block ht hsem hphys ha harea rfl hlends
    (Nat.le_of_eq hlen') hcode hlaw hwrites left e.1 rfl hclear'
  refine ⟨htrans, fun q hq hw hsaved ↦ ?_, fun n hn hother ↦ ?_⟩
  · exact (htrans.regs q hq).trans (regs_step_fromSlots hlaw.self_confined _ hq hw hsaved)
  · exact htrans.load_slot harea ha rfl hlaw.self_confined hbound hclear' hn hother

/-- Two spilled registers in one addition: the sum goes to the slot of the second one, and the lent
registers have their old values. -/
theorem Function.insertSpillCode_transparent_add :
    let t := X86.target.withAllocatable [X86.rax, X86.rcx]
    let i : Instruction X86.Opcode := ⟨.add, [.reg ⟨2147483648⟩, .reg ⟨2147483649⟩]⟩
    let f : Function X86.Opcode :=
      { name := "f", localBytes := 8, code := (Code.empty.pushBack i).2 }
    let places := (RegisterMap.empty.insert ⟨2147483648⟩ ⟨1073741824⟩).insert
      ⟨2147483649⟩ ⟨1073741825⟩
    let a : Allocation := { places, spillCount := 2 }
    let s : State := {
      regs := fun r ↦ if r = X86.rbp then 4096 else BitVec.ofNat 64 r.number
      mem := fun x ↦ if x = 4080 then 2 else if x = 4072 then 3 else 0 }
    ∃ f', (f.insertSpillCode t a).result = .ok (2, f') ∧
      let s' := (X86.semantics fun _ ↦ 0).run t (fun _ _ ↦ 0) f'.code.entries s
      let slot := (f.spillArea t a).slotAddress (s.regs X86.rbp)
      s.mem.load (slot 0) = 2 ∧ s.mem.load (slot 1) = 3 ∧
        s'.mem.load (slot 0) = 2 ∧ s'.mem.load (slot 1) = 5 ∧
        s'.regs X86.rax = s.regs X86.rax ∧ s'.regs X86.rcx = s.regs X86.rcx := by
  intro t i f places a s
  have hcount : (f.insertSpillCode t a).result.toOption.map (·.1) = some 2 := by decide
  obtain ⟨⟨n, f'⟩, hok, rfl⟩ := Option.map_eq_some_iff.1 hcount
  rw [toOption_eq_some] at hok
  have hallocatable : ∀ r ∈ [X86.rax, X86.rcx],
      r.isPhysical ∧ r ≠ X86.rbp ∧ ¬ TargetKind.x86.isHardwired r := by decide
  have hphys' : ∀ r ∈ [X86.rax, X86.rcx], r.isPhysical := by decide
  have ha : a.DistinctSlots := Allocation.distinctSlots_of_entries (by decide) (by decide)
  obtain ⟨blocks, hentries, hblocks⟩ := insertSpillCode_transparent .x86 hallocatable
    (Code.represents_empty.pushBack i) ha (by decide) hok
  obtain ⟨block, rest, ⟨-, hblock⟩, hrest, rfl⟩ := List.forall₂_cons_left_iff.1 hblocks
  rw [List.forall₂_nil_left_iff.1 hrest, List.flatten_singleton] at hentries
  subst hentries
  obtain ⟨implicit, -, hruns⟩ := hblock (by decide)
  obtain ⟨htrans, hregs, -⟩ := hruns (X86.semantics fun _ ↦ 0) (fun _ _ ↦ 0) s
    (X86.movesFrame _ hphys').movesWords (X86.lawful _ hphys' i implicit) (by decide)
    (fun x hx ↦ by rcases hx with hx | hx <;> cases hx)
  refine ⟨f', hok, by decide, by decide, ?_, ?_, ?_, ?_⟩
  · exact (htrans.slots ⟨2147483648⟩ (by decide) 0 rfl).trans (by decide)
  · exact (htrans.slots ⟨2147483649⟩ (by decide) 1 rfl).trans (by decide)
  · exact hregs X86.rax (by decide) (by decide) (by decide)
  · exact hregs X86.rcx (by decide) (by decide) (by decide)

/-- What the conditions are for. An instruction that writes the frame pointer: `mov v0, rbp` obeys
all laws and touches no memory, but after its block the lent register `rcx` has lost its value,
since it is looked for in a frame at the new place. And a register that is hardwired: `sub a0, v0,
v0` reads `v0` only, but its block, which lends it the register `zero`, puts a zero into the slot of
`v0`. -/
theorem Function.insertSpillCode_loses_value :
    (let t := X86.target.withAllocatable [X86.rcx]
    let i : Instruction X86.Opcode := ⟨.mov, [.reg ⟨2147483648⟩, .reg X86.rbp]⟩
    let f : Function X86.Opcode := { name := "f", code := (Code.empty.pushBack i).2 }
    let a : Allocation :=
      { places := RegisterMap.empty.insert ⟨2147483648⟩ ⟨1073741824⟩, spillCount := 1 }
    let sem := X86.semantics fun _ ↦ 0
    let s : State := { regs := fun r ↦ if r = X86.rbp then 4096 else 7, mem := fun _ ↦ 0 }
    a.DistinctSlots ∧ sem.MovesFrame t ∧ sem.Lawful t.allocatable i [] ∧
      t.implicitUses i = .ok [] ∧ (∀ s x, ¬ sem.footprint i s x) ∧ X86.rcx ∉ sem.writes i ∧
      ∃ f', (f.insertSpillCode t a).result = .ok (1, f') ∧
        (sem.run t (fun _ _ ↦ 0) f'.code.entries s).regs X86.rcx ≠ s.regs X86.rcx) ∧
    (let t := RiscV.target.withAllocatable [RiscV.zero]
    let i : Instruction RiscV.Opcode :=
      ⟨.sub, [.reg RiscV.a0, .reg ⟨2147483648⟩, .reg ⟨2147483648⟩]⟩
    let f : Function RiscV.Opcode := { name := "f", code := (Code.empty.pushBack i).2 }
    let a : Allocation :=
      { places := RegisterMap.empty.insert ⟨2147483648⟩ ⟨1073741824⟩, spillCount := 1 }
    let sem := RiscV.semantics fun _ ↦ 0
    let s : State := {
      regs := fun r ↦ if r = RiscV.fp then 4096 else 0
      mem := fun x ↦ if x = 4088 then 5 else 0 }
    let slot := (f.spillArea t a).slotAddress (s.regs RiscV.fp) 0
    a.DistinctSlots ∧ sem.MovesWords t (· ≠ RiscV.zero) ∧ sem.Confined i ∧
      (∀ r ∈ sem.reads i ++ sem.writes i, r ∈ i.registers) ∧ t.implicitUses i = .ok [] ∧
      (∀ s x, ¬ sem.footprint i s x) ∧ ⟨2147483648⟩ ∉ sem.writes i ∧
      ∃ f', (f.insertSpillCode t a).result = .ok (1, f') ∧ s.mem.load slot = 5 ∧
        (sem.run t (fun _ _ ↦ 0) f'.code.entries s).mem.load slot = 0) := by
  constructor
  · intro t i f a sem s
    have hphys : ∀ r ∈ [X86.rcx], r.isPhysical := by decide
    refine ⟨Allocation.distinctSlots_of_entries (by decide) (by decide), X86.movesFrame _ hphys,
      X86.lawful _ hphys i [], rfl, ?_, by decide, ?_⟩
    · intro s x hx
      rcases hx with hx | hx <;> cases hx
    · have hrun : (f.insertSpillCode t a).result.toOption.map (fun r ↦
          (r.1, (sem.run t (fun _ _ ↦ 0) r.2.code.entries s).regs X86.rcx)) = some (1, 0) := by
        decide
      obtain ⟨⟨n, f'⟩, hok, hrun⟩ := Option.map_eq_some_iff.1 hrun
      obtain ⟨rfl, hrcx⟩ := Prod.mk.inj hrun
      rw [toOption_eq_some] at hok
      exact ⟨f', hok, fun heq ↦ absurd (hrcx.symm.trans heq) (by decide)⟩
  · intro t i f a sem s slot
    refine ⟨Allocation.distinctSlots_of_entries (by decide) (by decide),
      RiscV.movesWords _ (by decide), Semantics.confined_ofAssignments _, by decide, rfl, ?_,
      by decide, ?_⟩
    · intro s x hx
      rcases hx with hx | hx | hx <;> cases hx
    · have hrun : (f.insertSpillCode t a).result.toOption.map (fun r ↦
          (r.1, (sem.run t (fun _ _ ↦ 0) r.2.code.entries s).mem.load slot)) = some (1, 0) := by
        decide
      obtain ⟨⟨n, f'⟩, hok, hrun⟩ := Option.map_eq_some_iff.1 hrun
      obtain ⟨rfl, hslot⟩ := Prod.mk.inj hrun
      rw [toOption_eq_some] at hok
      exact ⟨f', hok, by decide, hslot⟩

end MachineCode

import MachineCode.Lowering.SpillCode
import MachineCode.Proofs.Machine

/-!
# Moves between registers and the frame

Spill code is made of *exchanges*: a register is stored at one place of the frame and then filled
from another. Before an instruction a lent register goes to its reserved slot and is filled from a
stack slot; after the instruction it goes to the stack slot and is filled from the reserved slot. So
one rule covers both (`run_exchanges`): if the places that are stored to are apart from each other
and from those that are loaded from, and the registers are different, then the exchanges do not
disturb each other, whatever their number. This is also true of the registers that moves can be
relied on for, if there are others among those that are moved (`exchangedOn_run`).

That the slots of a frame are apart is a matter of their offsets (`SpillArea.apart_slots`,
`SpillArea.apart_reserved`, `SpillArea.apart_slot_reserved`). The numbers of slots are 32-bit words,
so the slots do not reach around the address space.
-/

namespace MachineCode

namespace Machine

variable {Op : Type} {t : Target Op} {sem : Semantics Op} {left : Handle → Register → Word}

/-! ### Single moves -/

/-- Storing an allocatable register in the frame changes one word, and loading it from there changes
the register only. What is moved of the registers `solid` is their value. -/
structure Semantics.MovesWords (sem : Semantics Op) (t : Target Op) (solid : Register → Prop) :
    Prop where
  store : ∀ r ∈ t.allocatable, ∀ offset s, ∃ w, sem.exec (t.store r offset) s =
    { s with mem := s.mem.store (offsetFrom (s.regs t.framePointer) offset) w } ∧
      (solid r → w = s.regs r)
  load : ∀ r ∈ t.allocatable, ∀ offset s, ∃ w, sem.exec (t.load offset r) s = s.set r w ∧
    (solid r → w = s.mem.load (offsetFrom (s.regs t.framePointer) offset))

variable {solid : Register → Prop}

/-- A machine that moves all registers as they are moves the solid ones so. -/
theorem Semantics.MovesFrame.movesWords (h : sem.MovesFrame t) : sem.MovesWords t solid where
  store r hr offset s := ⟨_, h.store r hr offset s, fun _ ↦ rfl⟩
  load r hr offset s := ⟨_, h.load r hr offset s, fun _ ↦ rfl⟩

/-- If all registers to hand out are solid, then all are moved as they are. -/
theorem Semantics.MovesWords.movesFrame (h : sem.MovesWords t solid)
    (hsolid : ∀ r ∈ t.allocatable, solid r) : sem.MovesFrame t where
  store r hr offset s := by
    obtain ⟨w, hexec, hw⟩ := h.store r hr offset s
    rw [hexec, hw (hsolid r hr)]
  load r hr offset s := by
    obtain ⟨w, hexec, hw⟩ := h.load r hr offset s
    rw [hexec, hw (hsolid r hr)]

/-- The fewer registers are solid, the less is asked of the machine. -/
theorem Semantics.MovesWords.mono {solid' : Register → Prop} (h : sem.MovesWords t solid)
    (himp : ∀ r, solid' r → solid r) : sem.MovesWords t solid' where
  store r hr offset s := by
    obtain ⟨w, hexec, hw⟩ := h.store r hr offset s
    exact ⟨w, hexec, fun hr' ↦ hw (himp r hr')⟩
  load r hr offset s := by
    obtain ⟨w, hexec, hw⟩ := h.load r hr offset s
    exact ⟨w, hexec, fun hr' ↦ hw (himp r hr')⟩

/-- A store in spill code is not a call, so it does what it is executed as. -/
theorem Semantics.MovesWords.step_store (hsem : sem.MovesWords t solid) (ht : t.Conforming)
    {r : Register} (hr : r ∈ t.allocatable) (offset : Int) (left : Register → Word) (s : State) :
    ∃ w, sem.step t left (t.store r offset) s =
      { s with mem := s.mem.store (offsetFrom (s.regs t.framePointer) offset) w } ∧
        (solid r → w = s.regs r) := by
  obtain ⟨w, hexec, hw⟩ := hsem.store r hr offset s
  refine ⟨w, ?_, hw⟩
  simp only [Semantics.step, ht.isCall_store, hexec, Bool.false_and, Bool.false_eq_true, if_false]

theorem Semantics.MovesWords.step_load (hsem : sem.MovesWords t solid) (ht : t.Conforming)
    {r : Register} (hr : r ∈ t.allocatable) (offset : Int) (left : Register → Word) (s : State) :
    ∃ w, sem.step t left (t.load offset r) s = s.set r w ∧
      (solid r → w = s.mem.load (offsetFrom (s.regs t.framePointer) offset)) := by
  obtain ⟨w, hexec, hw⟩ := hsem.load r hr offset s
  refine ⟨w, ?_, hw⟩
  simp only [Semantics.step, ht.isCall_load, hexec, Bool.false_and, Bool.false_eq_true, if_false]

/-! ### Exchanges -/

/-- A register is stored at one offset from the frame pointer, and filled from another. -/
structure Exchange where
  reg : Register
  dst : Int
  src : Int

/-- The instructions of an exchange. -/
def Exchange.code (t : Target Op) (x : Exchange) : List (Instruction Op) :=
  [t.store x.reg x.dst, t.load x.src x.reg]

/-- The exchange back: what was stored is loaded again. -/
def Exchange.reverse (x : Exchange) : Exchange := ⟨x.reg, x.src, x.dst⟩

theorem Exchange.reg_reverse (xs : List Exchange) :
    (xs.map reverse).map (·.reg) = xs.map (·.reg) := by
  rw [List.map_map]
  rfl

/-- What some exchanges in a frame at `fp` make of the state `s`. -/
structure Exchanged (fp : Word) (xs : List Exchange) (s s' : State) : Prop where
  filled : ∀ x ∈ xs, s'.regs x.reg = s.mem.load (offsetFrom fp x.src)
  regs : ∀ r ∉ xs.map (·.reg), s'.regs r = s.regs r
  stored : ∀ x ∈ xs, s'.mem.load (offsetFrom fp x.dst) = s.regs x.reg
  mem : ∀ y, (∀ x ∈ xs, ¬ InWord (offsetFrom fp x.dst) y) → s'.mem y = s.mem y

/-- The same, where only the registers `solid` are known to be stored and filled. -/
structure ExchangedOn (solid : Register → Prop) (fp : Word) (xs : List Exchange) (s s' : State) :
    Prop where
  filled : ∀ x ∈ xs, solid x.reg → s'.regs x.reg = s.mem.load (offsetFrom fp x.src)
  regs : ∀ r ∉ xs.map (·.reg), s'.regs r = s.regs r
  stored : ∀ x ∈ xs, solid x.reg → s'.mem.load (offsetFrom fp x.dst) = s.regs x.reg
  mem : ∀ y, (∀ x ∈ xs, ¬ InWord (offsetFrom fp x.dst) y) → s'.mem y = s.mem y

/-- Exchanges do not disturb each other if their registers are different, and the places that they
store to and load from are all apart. -/
structure Independent (t : Target Op) (fp : Word) (xs : List Exchange) : Prop where
  reg : ∀ x ∈ xs, x.reg ∈ t.allocatable ∧ x.reg ≠ t.framePointer
  nodup : (xs.map (·.reg)).Nodup
  dst : xs.Pairwise fun x y ↦ Apart (offsetFrom fp x.dst) (offsetFrom fp y.dst)
  src : xs.Pairwise fun x y ↦ Apart (offsetFrom fp x.src) (offsetFrom fp y.src)
  cross : ∀ x ∈ xs, ∀ y ∈ xs, Apart (offsetFrom fp x.dst) (offsetFrom fp y.src)

/-- What is left of independent exchanges is independent. -/
theorem Independent.tail {fp : Word} {x : Exchange} {xs : List Exchange}
    (h : Independent t fp (x :: xs)) : Independent t fp xs where
  reg y hy := h.reg y (List.mem_cons_of_mem x hy)
  nodup := (List.nodup_cons.1 h.nodup).2
  dst := (List.pairwise_cons.1 h.dst).2
  src := (List.pairwise_cons.1 h.src).2
  cross y hy z hz := h.cross y (List.mem_cons_of_mem x hy) z (List.mem_cons_of_mem x hz)

/-- Exchanges that are independent are so in the other direction, since all their places are apart.
-/
theorem Independent.reverse {fp : Word} {xs : List Exchange} (h : Independent t fp xs) :
    Independent t fp (xs.map Exchange.reverse) where
  reg := List.forall_mem_map.2 h.reg
  nodup := by
    rw [Exchange.reg_reverse]
    exact h.nodup
  dst := List.pairwise_map.2 h.src
  src := List.pairwise_map.2 h.dst
  cross := List.forall_mem_map.2 fun x hx ↦ List.forall_mem_map.2 fun y hy ↦
    (h.cross y hy x hx).symm

/-- Independent exchanges do what each of them does alone, as far as moves can be relied on. -/
theorem exchangedOn_run (ht : t.Conforming) (hsem : sem.MovesWords t solid) {fp : Word}
    {xs : List Exchange} (hxs : Independent t fp xs) {code : List (Handle × Instruction Op)}
    (hcode : code.map (·.2) = xs.flatMap (·.code t)) {s : State}
    (hfp : s.regs t.framePointer = fp) : ExchangedOn solid fp xs s (sem.run t left code s) := by
  induction xs generalizing code s with
  | nil =>
    cases List.map_eq_nil_iff.1 hcode
    exact ⟨by simp, fun _ _ ↦ rfl, by simp, fun _ _ ↦ rfl⟩
  | cons x xs ih =>
    obtain ⟨hreg, hne⟩ := hxs.reg x (by simp)
    have hx : x.reg ∉ xs.map (·.reg) := (List.nodup_cons.1 hxs.nodup).1
    have hself := hxs.cross x (by simp) x (by simp)
    rw [List.flatMap_cons, Exchange.code] at hcode
    obtain ⟨⟨h₁, i₁⟩, code₁, rfl, rfl, hcode₁⟩ := List.map_eq_cons_iff.1 hcode
    obtain ⟨⟨h₂, i₂⟩, code₂, rfl, rfl, hcode₂⟩ := List.map_eq_cons_iff.1 hcode₁
    -- the register is stored, and then filled from a place that the store has not touched
    obtain ⟨w, hstore, hw⟩ := hsem.step_store ht hreg x.dst (left h₁) s
    obtain ⟨w', hload, hw'⟩ := hsem.step_load ht hreg x.src (left h₂)
      { s with mem := s.mem.store (offsetFrom (s.regs t.framePointer) x.dst) w }
    rw [Semantics.run, Semantics.run, hstore, hload]
    rw [hfp, Memory.load_store_of_apart hself] at hw'
    rw [hfp]
    obtain ⟨hfilled, hregs, hstored, hmem⟩ := ih hxs.tail hcode₂ (s := State.set
      { s with mem := s.mem.store (offsetFrom fp x.dst) w } x.reg w')
      (by rw [State.regs_set, if_neg hne.symm]; exact hfp)
    simp only [State.regs_set, State.mem_set] at hfilled hregs hstored hmem
    refine ⟨?_, ?_, ?_, ?_⟩
    · intro y hy hsolid
      rcases List.mem_cons.1 hy with rfl | hy
      · rw [hregs _ hx, if_pos rfl, hw' hsolid]
      · rw [hfilled y hy hsolid,
          Memory.load_store_of_apart (hxs.cross x (by simp) y (by simp [hy]))]
    · intro r hr
      rw [List.map_cons, List.mem_cons, not_or] at hr
      rw [hregs r hr.2, if_neg hr.1]
    · intro y hy hsolid
      rcases List.mem_cons.1 hy with rfl | hy
      · -- the later exchanges store elsewhere
        have hlater := (List.pairwise_cons.1 hxs.dst).1
        rw [Memory.load_congr fun z hz ↦ hmem z fun w hw ↦ hlater w hw z hz, Memory.load_store,
          hw hsolid]
      · rw [hstored y hy hsolid, if_neg]
        rintro heq
        exact hx (heq ▸ List.mem_map_of_mem hy)
    · intro y hy
      rw [hmem y fun z hz ↦ hy z (by simp [hz]),
        Memory.store_of_not_inWord (hy x (by simp))]

/-- **Independent exchanges do what each of them does alone.** -/
theorem run_exchanges (ht : t.Conforming) (hsem : sem.MovesFrame t) {fp : Word}
    {xs : List Exchange} (hxs : Independent t fp xs) {code : List (Handle × Instruction Op)}
    (hcode : code.map (·.2) = xs.flatMap (·.code t)) {s : State}
    (hfp : s.regs t.framePointer = fp) : Exchanged fp xs s (sem.run t left code s) := by
  have h : ExchangedOn (fun _ ↦ True) fp xs s (sem.run t left code s) :=
    exchangedOn_run ht hsem.movesWords hxs hcode hfp
  exact ⟨fun x hx ↦ h.filled x hx trivial, h.regs, fun x hx ↦ h.stored x hx trivial, h.mem⟩

end Machine

/-! ### The slots of a frame -/

namespace SpillArea

open Machine

/-- The sizes are those of a frame on a machine with registers of eight bytes. -/
structure Fits (area : SpillArea) : Prop where
  registerSize : area.registerSize = 8
  spillCount : area.spillCount < Unsigned32.bound

/-- The address of a stack slot in a frame at `fp`. -/
def slotAddress (area : SpillArea) (fp : Word) (slot : Nat) : Word :=
  offsetFrom fp (area.slotOffset slot)

/-- The address of a reserved slot in a frame at `fp`. -/
def reservedAddress (area : SpillArea) (fp : Word) (nth : Nat) : Word :=
  offsetFrom fp (area.reservedOffset nth)

/-- The address is in a stack slot, or in one of the first `reserved` reserved slots. -/
def InSlots (area : SpillArea) (fp : Word) (reserved : Nat) (x : Word) : Prop :=
  (∃ n < area.spillCount, InWord (area.slotAddress fp n) x) ∨
    ∃ n, 1 ≤ n ∧ n ≤ reserved ∧ InWord (area.reservedAddress fp n) x

variable {area : SpillArea} {m n : Nat}

theorem InSlots.mono {fp x : Word} (h : area.InSlots fp m x) (hmn : m ≤ n) :
    area.InSlots fp n x := by
  refine h.imp_right ?_
  rintro ⟨k, hk, hkm, hin⟩
  exact ⟨k, hk, Nat.le_trans hkm hmn, hin⟩

/-- The stack slots lie below the locals, eight bytes each. -/
theorem slotOffset_eq (h : area.Fits) :
    area.slotOffset n = -((area.localBytes : Int) + 8 * (n + 1)) := by
  rw [slotOffset, Frame.spillOffset, h.registerSize]
  rfl

/-- The reserved slots lie below the stack slots, and are numbered from one. -/
theorem reservedOffset_eq (h : area.Fits) :
    area.reservedOffset n = -((area.localBytes : Int) + 8 * area.spillCount + 8 * n) := by
  rw [reservedOffset, Frame.reservedOffset, h.registerSize]
  rfl

/-- Different stack slots do not overlap. -/
theorem apart_slots (h : area.Fits) (fp : Word) (hm : m < area.spillCount)
    (hn : n < area.spillCount) (hne : m ≠ n) :
    Apart (area.slotAddress fp m) (area.slotAddress fp n) := by
  have hbound := h.spillCount
  simp only [Unsigned32.bound] at hbound
  apply apart_of_offsets <;> rw [slotOffset_eq h, slotOffset_eq h] <;> omega

theorem apart_reserved (h : area.Fits) (fp : Word) (hm : m < Unsigned32.bound)
    (hn : n < Unsigned32.bound) (hne : m ≠ n) :
    Apart (area.reservedAddress fp m) (area.reservedAddress fp n) := by
  simp only [Unsigned32.bound] at hm hn
  apply apart_of_offsets <;> rw [reservedOffset_eq h, reservedOffset_eq h] <;> omega

/-- Reserved slots lie below all stack slots. -/
theorem apart_slot_reserved (h : area.Fits) (fp : Word) (hm : m < area.spillCount) (hn : 1 ≤ n)
    (hn' : n < Unsigned32.bound) :
    Apart (area.slotAddress fp m) (area.reservedAddress fp n) := by
  have hbound := h.spillCount
  simp only [Unsigned32.bound] at hbound hn'
  apply apart_of_offsets <;> rw [slotOffset_eq h, reservedOffset_eq h] <;> omega

end SpillArea

end MachineCode

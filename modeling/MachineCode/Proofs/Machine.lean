import MachineCode.Function
import MachineCode.Proofs.Interference
import MachineCode.Proofs.Renaming

/-!
# Machines that run straight-line code

A machine state is a register file and a memory of bytes; words have 64 bits and are stored with
their low byte first. Registers of all classes have a value, so a program with virtual registers
runs as well as one without: its virtual registers are an unbounded register file.

What the instructions do is a parameter (`Semantics`). Nothing is assumed of it but the laws that
code generation relies on: an instruction is confined to the registers and the memory that it is
said to touch (`Confined`), it does not care what its registers are called (`Renames`), and the
instructions that move a register to the frame and back do so (`MovesFrame`). A call also leaves
arbitrary values in the caller-saved registers; they are another parameter, which says what each
call leaves in each register.

Code without jumps runs from its first entry to its last (`run`). `trace` lists what each
instruction on the way reads and the memory that it leaves behind.
-/

namespace MachineCode.Machine

/-! ### Memory -/

/-- A machine word. Addresses are words too. -/
abbrev Word := BitVec 64

/-- A byte for each address. -/
abbrev Memory := Word → BitVec 8

/-- The address is one of the eight that a word at `a` takes. -/
def InWord (a x : Word) : Prop := (x - a).toNat < 8

instance (a x : Word) : Decidable (InWord a x) := inferInstanceAs (Decidable (_ < _))

/-- Two words do not overlap. -/
def Apart (a b : Word) : Prop := ∀ x, InWord a x → ¬ InWord b x

namespace Memory

/-- The number in `n` bytes from `a` on, the low byte first. -/
def loadBytes (m : Memory) : Nat → Word → Word
  | 0, _ => 0
  | n + 1, a => m.loadBytes n (a + 1) <<< 8 ||| (m a).setWidth 64

/-- The word at an address. -/
def load (m : Memory) (a : Word) : Word := m.loadBytes 8 a

/-- The memory with another word at an address. -/
def store (m : Memory) (a w : Word) : Memory := fun x ↦
  if InWord a x then w.extractLsb' (8 * (x - a).toNat) 8 else m x

variable {m m' : Memory} {a b w x : Word}

/-- A store changes its word only. -/
theorem store_of_not_inWord (h : ¬ InWord a x) : m.store a w x = m x := if_neg h

/-- Bit `k` of a word is in its byte `k / 8`. -/
theorem getLsbD_loadBytes (m : Memory) {n : Nat} (hn : n ≤ 8) (a : Word) {k : Nat}
    (hk : k < 8 * n) :
    (m.loadBytes n a).getLsbD k = (m (a + BitVec.ofNat 64 (k / 8))).getLsbD (k % 8) := by
  induction n generalizing a k with
  | zero => omega
  | succ n ih =>
    rw [loadBytes, BitVec.getLsbD_or, BitVec.getLsbD_shiftLeft, BitVec.getLsbD_setWidth]
    by_cases hlow : k < 8
    · have hdiv : k / 8 = 0 := by omega
      have hmod : k % 8 = k := by omega
      have h64 : k < 64 := by omega
      simp [hdiv, hmod, hlow, h64]
    · have hdiv : k / 8 = (k - 8) / 8 + 1 := by omega
      have hmod : k % 8 = (k - 8) % 8 := by omega
      have h64 : k < 64 := by omega
      have hhigh : (m a).getLsbD k = false := BitVec.getLsbD_of_ge _ _ (by omega)
      have haddr : a + 1 + BitVec.ofNat 64 ((k - 8) / 8) = a + BitVec.ofNat 64 (k / 8) := by
        rw [hdiv, BitVec.ofNat_add, BitVec.add_assoc, BitVec.add_comm 1]
        rfl
      rw [ih (by omega) (a + 1) (by omega), haddr, hmod]
      simp [hlow, h64, hhigh]

/-- The eight bytes from an address on are its word. -/
theorem inWord_add (a : Word) {k : Nat} (hk : k < 8) : InWord a (a + BitVec.ofNat 64 k) := by
  rw [InWord, BitVec.add_comm, BitVec.add_sub_cancel, BitVec.toNat_ofNat]
  omega

/-- A load depends on the bytes of its word only. -/
theorem load_congr (h : ∀ x, InWord a x → m x = m' x) : m.load a = m'.load a := by
  refine BitVec.eq_of_getLsbD_eq fun k hk ↦ ?_
  rw [load, load, getLsbD_loadBytes m (Nat.le_refl 8) a hk,
    getLsbD_loadBytes m' (Nat.le_refl 8) a hk, h _ (inWord_add a (by omega))]

/-- **What was stored is loaded.** -/
@[simp] theorem load_store (m : Memory) (a w : Word) : (m.store a w).load a = w := by
  refine BitVec.eq_of_getLsbD_eq fun k hk ↦ ?_
  have hin := inWord_add a (show k / 8 < 8 by omega)
  have hbyte : (a + BitVec.ofNat 64 (k / 8) - a).toNat = k / 8 := by
    rw [BitVec.add_comm, BitVec.add_sub_cancel, BitVec.toNat_ofNat]
    omega
  rw [load, getLsbD_loadBytes _ (Nat.le_refl 8) a hk, store, if_pos hin, hbyte,
    BitVec.getLsbD_extractLsb', Nat.div_add_mod]
  simp [Nat.mod_lt]

/-- A store does not change what is loaded from elsewhere. -/
theorem load_store_of_apart (h : Apart a b) : (m.store a w).load b = m.load b :=
  load_congr fun _ hx ↦ store_of_not_inWord fun hin ↦ h _ hin hx

end Memory

/-- The address at an offset from another. -/
def offsetFrom (base : Word) (offset : Int) : Word := base + BitVec.ofInt 64 offset

theorem Apart.symm {a b : Word} (h : Apart a b) : Apart b a := fun x hb ha ↦ h x ha hb

/-- Words at offsets from one address that are eight bytes apart, and not so far apart that they
meet behind the end of the memory, do not overlap. -/
theorem apart_of_offsets (base : Word) {d e : Int} (hne : 8 ≤ d - e ∨ 8 ≤ e - d)
    (hde : d - e < 9223372036854775808) (hed : e - d < 9223372036854775808) :
    Apart (offsetFrom base d) (offsetFrom base e) := by
  intro x hx hy
  rw [InWord, offsetFrom] at hx hy
  -- the address is `d + p` and also `e + q` bytes behind the base, with `p` and `q` below eight
  have hsum : ∀ c : Int, x - (base + BitVec.ofInt 64 c) + (base + BitVec.ofInt 64 c) = x :=
    fun c ↦ BitVec.sub_add_cancel _ _
  have hofInt : ∀ (c : Int) (w : Word), w + (base + BitVec.ofInt 64 c) =
      base + BitVec.ofInt 64 (c + w.toNat) := by
    intro c w
    rw [BitVec.ofInt_add, BitVec.ofInt_natCast, BitVec.ofNat_toNat, BitVec.setWidth_eq,
      BitVec.add_comm, BitVec.add_assoc]
  have heq := (hsum d).trans (hsum e).symm
  rw [hofInt, hofInt, BitVec.add_right_inj] at heq
  have hmod := congrArg BitVec.toNat heq
  rw [BitVec.toNat_ofInt, BitVec.toNat_ofInt] at hmod
  omega

/-! ### States -/

/-- The registers and the memory. -/
structure State where
  regs : Register → Word
  mem : Memory

namespace State

/-- The state with another value in a register. -/
def set (s : State) (r : Register) (w : Word) : State :=
  { s with regs := fun q ↦ if q = r then w else s.regs q }

/-- The state as an instruction sees it whose registers go through `ρ`. -/
def rename (ρ : Register → Register) (s : State) : State := { s with regs := s.regs ∘ ρ }

@[simp] theorem regs_set (s : State) (r q : Register) (w : Word) :
    (s.set r w).regs q = if q = r then w else s.regs q := rfl

theorem set_self (s : State) (r : Register) : s.set r (s.regs r) = s := by
  obtain ⟨regs, mem⟩ := s
  rw [set, State.mk.injEq]
  refine ⟨funext fun q ↦ ?_, rfl⟩
  split
  · rename_i heq
    rw [heq]
  · rfl

@[simp] theorem mem_set (s : State) (r : Register) (w : Word) : (s.set r w).mem = s.mem := rfl

@[simp] theorem regs_rename (ρ : Register → Register) (s : State) (r : Register) :
    (s.rename ρ).regs r = s.regs (ρ r) := rfl

@[simp] theorem mem_rename (ρ : Register → Register) (s : State) : (s.rename ρ).mem = s.mem := rfl

theorem rename_rename (ρ ρ' : Register → Register) (s : State) :
    (s.rename ρ').rename ρ = s.rename (ρ' ∘ ρ) := rfl

end State

/-! ### What instructions do -/

/-- What the instructions of a machine do: the registers that they read and write, the addresses
that they read or write in a given state, and the state that they lead to. -/
structure Semantics (Op : Type) where
  reads : Instruction Op → List Register
  writes : Instruction Op → List Register
  footprint : Instruction Op → State → Word → Prop
  exec : Instruction Op → State → State

namespace Semantics

variable {Op : Type} (sem : Semantics Op)

/-- The instruction touches nothing but the registers and addresses that it is said to touch. -/
structure Confined (i : Instruction Op) : Prop where
  regs : ∀ s, ∀ r ∉ sem.writes i, (sem.exec i s).regs r = s.regs r
  mem : ∀ s x, ¬ sem.footprint i s x → (sem.exec i s).mem x = s.mem x
  /-- States that agree on what the instruction reads agree on what it touches and writes. -/
  depends : ∀ s s', (∀ r ∈ sem.reads i, s.regs r = s'.regs r) →
    (∀ x, sem.footprint i s x → s.mem x = s'.mem x) →
    sem.footprint i s' = sem.footprint i s ∧
      (∀ r ∈ sem.writes i, (sem.exec i s').regs r = (sem.exec i s).regs r) ∧
      ∀ x, sem.footprint i s x → (sem.exec i s').mem x = (sem.exec i s).mem x

/-- The instruction with renamed registers does to the renamed registers what the instruction does
to its own. -/
structure Renames (i : Instruction Op) (ρ : Register → Register) : Prop where
  reads : sem.reads (i.mapRegisters ρ) = (sem.reads i).map ρ
  writes : sem.writes (i.mapRegisters ρ) = (sem.writes i).map ρ
  footprint : ∀ s, sem.footprint (i.mapRegisters ρ) s = sem.footprint i (s.rename ρ)
  regs : ∀ s, ∀ r ∈ sem.writes i,
    (sem.exec (i.mapRegisters ρ) s).regs (ρ r) = (sem.exec i (s.rename ρ)).regs r
  mem : ∀ s, (sem.exec (i.mapRegisters ρ) s).mem = (sem.exec i (s.rename ρ)).mem

/-- The instruction touches only the registers that it names and those in `implicit`, and all this
stays true when its virtual registers are renamed to others or to members of `rs`. -/
structure Lawful (rs : List Register) (i : Instruction Op) (implicit : List Register) : Prop where
  reads_subset : ∀ r ∈ sem.reads i, r ∈ i.registers ++ implicit
  writes_subset : ∀ r ∈ sem.writes i, r ∈ i.registers ++ implicit
  confined : ∀ ρ, RegisterRenaming rs (i.registers ++ implicit) ρ → sem.Confined (i.mapRegisters ρ)
  renames : ∀ ρ, RegisterRenaming rs (i.registers ++ implicit) ρ → sem.Renames i ρ

/-- The instructions of a machine that store an allocatable register in the frame and load it from
there do so. -/
structure MovesFrame (t : Target Op) : Prop where
  store : ∀ r ∈ t.allocatable, ∀ offset s, sem.exec (t.store r offset) s =
    { s with mem := s.mem.store (offsetFrom (s.regs t.framePointer) offset) (s.regs r) }
  load : ∀ r ∈ t.allocatable, ∀ offset s, sem.exec (t.load offset r) s =
    s.set r (s.mem.load (offsetFrom (s.regs t.framePointer) offset))

variable {sem} {rs implicit implicit' : List Register} {i : Instruction Op}

namespace Lawful

/-- The laws hold of the instruction itself, since leaving all registers as they are is a renaming.
-/
theorem self_confined (h : sem.Lawful rs i implicit) : sem.Confined i := by
  have hid := h.confined id (RegisterRenaming.id _ _)
  rwa [Instruction.mapRegisters_id] at hid

/-- An instruction that touches less obeys the laws with more to touch. -/
theorem mono (h : sem.Lawful rs i implicit) (hsub : ∀ r ∈ implicit, r ∈ implicit') :
    sem.Lawful rs i implicit' := by
  have hall : ∀ r ∈ i.registers ++ implicit, r ∈ i.registers ++ implicit' := by
    intro r hr
    rw [List.mem_append] at hr ⊢
    exact hr.imp_right (hsub r)
  exact ⟨fun r hr ↦ hall r (h.reads_subset r hr), fun r hr ↦ hall r (h.writes_subset r hr),
    fun ρ hρ ↦ h.confined ρ (hρ.mono hall), fun ρ hρ ↦ h.renames ρ (hρ.mono hall)⟩

/-- **The laws survive a renaming**: a second renaming on top of it is one renaming. -/
theorem mapRegisters (hrs : ∀ r ∈ rs, r.isPhysical) (h : sem.Lawful rs i [])
    {ρ : Register → Register} (hρ : RegisterRenaming rs i.registers ρ) :
    sem.Lawful rs (i.mapRegisters ρ) [] := by
  have hregs := Instruction.registers_mapRegisters (hρ.isAbsent_eq hrs) i
  have hself := h.renames ρ (by rwa [List.append_nil])
  -- every law of the renamed instruction is the law of the instruction for the composed renaming
  have hcomp : ∀ ρ', RegisterRenaming rs ((i.mapRegisters ρ).registers ++ []) ρ' →
      RegisterRenaming rs (i.registers ++ []) (ρ' ∘ ρ) := by
    intro ρ' hρ'
    rw [List.append_nil] at hρ' ⊢
    rw [hregs] at hρ'
    exact hρ.comp hrs hρ'
  constructor
  · intro r hr
    rw [hself.reads] at hr
    obtain ⟨q, hq, rfl⟩ := List.mem_map.1 hr
    rw [List.append_nil, hregs]
    exact List.mem_map_of_mem (by simpa using h.reads_subset q hq)
  · intro r hr
    rw [hself.writes] at hr
    obtain ⟨q, hq, rfl⟩ := List.mem_map.1 hr
    rw [List.append_nil, hregs]
    exact List.mem_map_of_mem (by simpa using h.writes_subset q hq)
  · intro ρ' hρ'
    rw [Instruction.mapRegisters_mapRegisters]
    exact h.confined _ (hcomp ρ' hρ')
  · intro ρ' hρ'
    have hboth := h.renames _ (hcomp ρ' hρ')
    constructor
    · rw [Instruction.mapRegisters_mapRegisters, hboth.reads, hself.reads, List.map_map]
    · rw [Instruction.mapRegisters_mapRegisters, hboth.writes, hself.writes, List.map_map]
    · intro s
      rw [Instruction.mapRegisters_mapRegisters, hboth.footprint, hself.footprint,
        State.rename_rename]
    · intro s r hr
      rw [hself.writes] at hr
      obtain ⟨q, hq, rfl⟩ := List.mem_map.1 hr
      rw [Instruction.mapRegisters_mapRegisters, hself.regs _ q hq, State.rename_rename]
      exact hboth.regs s q hq
    · intro s
      rw [Instruction.mapRegisters_mapRegisters, hboth.mem, hself.mem, State.rename_rename]

end Lawful

/-- The renamed instruction does in the state `u` what the instruction does in the state `v`. -/
structure Mirrors (sem : Semantics Op) (i : Instruction Op) (ρ : Register → Register)
    (v u : State) : Prop where
  values : (sem.reads (i.mapRegisters ρ)).map u.regs = (sem.reads i).map v.regs
  footprint : sem.footprint (i.mapRegisters ρ) u = sem.footprint i v
  written : ∀ r ∈ sem.writes i,
    (sem.exec (i.mapRegisters ρ) u).regs (ρ r) = (sem.exec i v).regs r
  kept : ∀ q, (∀ r ∈ sem.writes i, ρ r ≠ q) → (sem.exec (i.mapRegisters ρ) u).regs q = u.regs q
  touched : ∀ x, sem.footprint i v x →
    (sem.exec (i.mapRegisters ρ) u).mem x = (sem.exec i v).mem x
  untouched : ∀ x, ¬ sem.footprint i v x → (sem.exec (i.mapRegisters ρ) u).mem x = u.mem x

/-- **A renamed instruction does the same** wherever the renamed registers hold the values that the
instruction reads, and the memory agrees where the instruction touches it. -/
theorem Lawful.mirrors (h : sem.Lawful rs i implicit) {ρ : Register → Register}
    (hρ : RegisterRenaming rs (i.registers ++ implicit) ρ) {v u : State}
    (hregs : ∀ r ∈ sem.reads i, u.regs (ρ r) = v.regs r)
    (hmem : ∀ x, sem.footprint i v x → u.mem x = v.mem x) : sem.Mirrors i ρ v u := by
  have hren := h.renames ρ hρ
  obtain ⟨hfoot, hwritten, htouched⟩ := h.self_confined.depends v (u.rename ρ)
    (fun r hr ↦ (hregs r hr).symm) (fun x hx ↦ (hmem x hx).symm)
  have hfoot' : sem.footprint (i.mapRegisters ρ) u = sem.footprint i v := by
    rw [hren.footprint, hfoot]
  refine ⟨?_, hfoot', fun r hr ↦ ?_, fun q hq ↦ ?_, fun x hx ↦ ?_, fun x hx ↦ ?_⟩
  · rw [hren.reads, List.map_map]
    exact List.map_congr_left hregs
  · rw [hren.regs u r hr, hwritten r hr]
  · refine (h.confined ρ hρ).regs u q fun hmem ↦ ?_
    rw [hren.writes] at hmem
    obtain ⟨r, hr, heq⟩ := List.mem_map.1 hmem
    exact hq r hr heq
  · rw [hren.mem u, htouched x hx]
  · refine (h.confined ρ hρ).mem u x ?_
    rw [hfoot']
    exact hx

end Semantics

/-! ### Runs -/

/-- What one instruction on the way reads, and the memory that it leaves behind. -/
structure Observation where
  handle : Handle
  /-- The values of the registers that the instruction reads, in its order of reading. -/
  values : List Word
  memory : Memory

namespace Semantics

variable {Op : Type} (sem : Semantics Op) (t : Target Op)

/-- One instruction. If it is a call, then the caller-saved registers get the values `left`. -/
def step (left : Register → Word) (i : Instruction Op) (s : State) : State :=
  { sem.exec i s with
    regs := fun r ↦ if t.isCall i && t.isCallerSaved r then left r else (sem.exec i s).regs r }

/-- The instructions of a list, one after the other. The call with handle `h` leaves the values
`left h`. -/
def run (left : Handle → Register → Word) : List (Handle × Instruction Op) → State → State
  | [], s => s
  | e :: rest, s => run left rest (sem.step t (left e.1) e.2 s)

/-- What is observed of the instructions of a list that run one after the other. -/
def trace (left : Handle → Register → Word) : List (Handle × Instruction Op) → State →
    List Observation
  | [], _ => []
  | e :: rest, s =>
    ⟨e.1, (sem.reads e.2).map s.regs, (sem.step t (left e.1) e.2 s).mem⟩ ::
      trace left rest (sem.step t (left e.1) e.2 s)

variable {sem t} {left : Handle → Register → Word} {i : Instruction Op}

@[simp] theorem mem_step (w : Register → Word) (s : State) :
    (sem.step t w i s).mem = (sem.exec i s).mem := rfl

/-- A call puts arbitrary values into the caller-saved registers. -/
theorem regs_step (w : Register → Word) (s : State) (r : Register) :
    (sem.step t w i s).regs r =
      if t.isCall i && t.isCallerSaved r then w r else (sem.exec i s).regs r := rfl

/-- A register that is no caller-saved one holds after a call what the instruction left there. -/
theorem regs_step_of_not {w : Register → Word} {s : State} {r : Register}
    (h : t.isCall i → ¬ t.isCallerSaved r) :
    (sem.step t w i s).regs r = (sem.exec i s).regs r := by
  rw [regs_step, if_neg]
  rw [Bool.and_eq_true]
  exact fun hboth ↦ h hboth.1 hboth.2

/-- Code runs one part after the other. -/
theorem run_append (l₁ l₂ : List (Handle × Instruction Op)) (s : State) :
    sem.run t left (l₁ ++ l₂) s = sem.run t left l₂ (sem.run t left l₁ s) := by
  induction l₁ generalizing s with
  | nil => rfl
  | cons e rest ih => exact ih _

theorem trace_append (l₁ l₂ : List (Handle × Instruction Op)) (s : State) :
    sem.trace t left (l₁ ++ l₂) s =
      sem.trace t left l₁ s ++ sem.trace t left l₂ (sem.run t left l₁ s) := by
  induction l₁ generalizing s with
  | nil => rfl
  | cons e rest ih => exact congrArg _ (ih _)

theorem handles_trace (l : List (Handle × Instruction Op)) (s : State) :
    (sem.trace t left l s).map (·.handle) = l.map (·.1) := by
  induction l generalizing s with
  | nil => rfl
  | cons e rest ih => exact congrArg _ (ih _)

end Semantics

end MachineCode.Machine

namespace MachineCode

/-- What the lowering of a function relies on in a machine. -/
structure Target.Conforming {Op : Type} (t : Target Op) : Prop where
  conventional : t.toRegisterFile.Conventional
  registerSize : t.registerSize = 8
  physical_framePointer : t.framePointer.isPhysical
  /-- A call keeps the frame pointer. -/
  framePointer_saved : ¬ t.isCallerSaved t.framePointer
  isCall_mapRegisters : ∀ ρ i, t.isCall (i.mapRegisters ρ) = t.isCall i
  isCall_store : ∀ r offset, t.isCall (t.store r offset) = false
  isCall_load : ∀ offset r, t.isCall (t.load offset r) = false

/-- A call leaves the virtual registers alone. -/
theorem Machine.Semantics.regs_step_of_isVirtual {Op : Type} {sem : Semantics Op} {t : Target Op}
    (ht : t.Conforming) {i : Instruction Op} (left : Register → Word) (s : State) {v : Register}
    (hv : v.isVirtual) : (sem.step t left i s).regs v = (sem.exec i s).regs v :=
  regs_step_of_not fun _ hsaved ↦
    Register.not_isVirtual_of_isPhysical (ht.conventional.physical_of_caller hsaved) hv

/-- Both machines conform, with any list of registers to hand out. -/
theorem TargetKind.conforming (k : TargetKind) (allocatable : List Register) :
    (k.target.withAllocatable allocatable).Conforming where
  conventional := k.conventional allocatable
  registerSize := by cases k <;> rfl
  physical_framePointer := by
    show k.target.framePointer.isPhysical
    cases k <;> decide
  framePointer_saved := by
    show ¬ k.target.isCallerSaved k.target.framePointer
    cases k <;> decide
  isCall_mapRegisters ρ i := by cases k <;> rfl
  isCall_store r offset := by cases k <;> rfl
  isCall_load offset r := by cases k <;> rfl

end MachineCode

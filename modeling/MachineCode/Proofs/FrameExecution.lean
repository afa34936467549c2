import MachineCode.Proofs.FrameSizes
import MachineCode.Proofs.Interference
import MachineCode.Proofs.RiscVExecution
import Mathlib.Data.List.Induction

/-!
# Setting a frame up and taking it down

The code before a body saves registers in the words from the frame pointer on, and the code behind
the body loads them from there. On either machine the order of the words is that of a list of
registers (`Memory.Saved`): the frame pointer and the saved registers backwards on x86-64, which
pushes them; the return address, the frame pointer and the saved registers on RISC-V, which stores
them from the lowest word up. So both need the same two facts about memory: a word more at the front
of a list that is there (`Memory.Saves.push`), and a list behind a word that is there
(`Memory.Saves.cons`).

**The epilogue undoes the prologue** (`TargetKind.exists_undone`): whatever runs in between, if it
leaves the stack pointer, the frame pointer and the save area as they were, then at the return the
two pointers, the return address and the saved registers are what they were on entry.

Of the machine it is assumed that it executes the few instructions of this code and of the moves
between registers and the frame (`TargetKind.Executes`). `X86.stackSemantics` and `RiscV.semantics`
do.
-/

namespace MachineCode

namespace Machine

/-! ### Lists of words -/

/-- The address is in one of the first `n` words from `base` on. -/
def InWords (base : Word) (n : Nat) (x : Word) : Prop := (x - base).toNat < 8 * n

/-- The first word is one of the words from the address on. -/
theorem InWord.inWords {base x : Word} (h : InWord base x) (n : Nat) : InWords base (n + 1) x := by
  rw [InWord] at h
  rw [InWords]
  omega

theorem InWords.of_tail {base x : Word} {n : Nat} (h : InWords (base + 8) n x) :
    InWords base (n + 1) x := by
  rw [InWords] at h ⊢
  bv_omega

theorem InWords.mono {base x : Word} {m n : Nat} (h : InWords base m x) (hmn : m ≤ n) :
    InWords base n x := by
  rw [InWords] at h ⊢
  omega

/-- The words behind the first one are apart from it, unless they reach around the memory. -/
theorem InWords.not_inWord {base x : Word} {n : Nat} (hn : 8 * (n + 1) ≤ 18446744073709551616)
    (h : InWords (base + 8) n x) : ¬ InWord base x := by
  rw [InWords] at h
  rw [InWord]
  bv_omega

/-- The word behind the first `n` words is apart from them. -/
theorem InWord.not_inWords {base x : Word} {n : Nat} (hn : 8 * (n + 1) ≤ 18446744073709551616)
    (h : InWord (base + BitVec.ofNat 64 (8 * n)) x) : ¬ InWords base n x := by
  rw [InWord] at h
  rw [InWords]
  bv_omega

/-- The word behind the first `n` words is the last of `n + 1`, unless they reach around the
memory. -/
theorem InWord.inWords_last {base x : Word} {n : Nat} (hn : 8 * (n + 1) ≤ 18446744073709551616)
    (h : InWord (base + BitVec.ofNat 64 (8 * n)) x) : InWords base (n + 1) x := by
  rw [InWord] at h
  rw [InWords]
  bv_omega

namespace Memory

/-- The words from `base` on hold the values `v` of the registers, in their order. -/
def Saved (m : Memory) (base : Word) : List Register → (Register → Word) → Prop
  | [], _ => True
  | r :: rs, v => m.load base = v r ∧ m.Saved (base + 8) rs v

variable {m m' : Memory} {base : Word} {r : Register} {rs : List Register}
  {v v' : Register → Word}

/-- What is saved depends on the saved words and on the values of the saved registers only. -/
theorem Saved.congr (h : m.Saved base rs v)
    (hmem : ∀ x, InWords base rs.length x → m' x = m x) (hv : ∀ r ∈ rs, v' r = v r) :
    m'.Saved base rs v' := by
  induction rs generalizing base with
  | nil => trivial
  | cons r rs ih =>
    refine ⟨?_, ih h.2 (fun x hx ↦ hmem x hx.of_tail) fun q hq ↦ hv q (by simp [hq])⟩
    rw [hv r (by simp), ← h.1]
    exact load_congr fun x hx ↦ hmem x (hx.inWords rs.length)

/-- The memory `m'` is `m` with the values `v` of some registers in the words from `base` on. -/
structure Saves (m m' : Memory) (base : Word) (rs : List Register) (v : Register → Word) :
    Prop where
  saved : m'.Saved base rs v
  other : ∀ x, ¬ InWords base rs.length x → m' x = m x

namespace Saves

/-- Only the values of the registers that are saved matter. -/
theorem congr (h : m.Saves m' base rs v) (hv : ∀ r ∈ rs, v' r = v r) : m.Saves m' base rs v' :=
  ⟨h.saved.congr (fun _ _ ↦ rfl) hv, h.other⟩

/-- No registers are saved by leaving the memory as it is. -/
theorem nil (m : Memory) (base : Word) (v : Register → Word) : m.Saves m base [] v :=
  ⟨trivial, fun _ _ ↦ rfl⟩

/-- One more word below those that are there. -/
theorem push (h : m.Saves m' (base + 8) rs v)
    (hlen : 8 * (rs.length + 1) ≤ 18446744073709551616) :
    m.Saves (m'.store base (v r)) base (r :: rs) v where
  saved := by
    refine ⟨load_store m' base (v r), h.saved.congr (fun x hx ↦ ?_) fun _ _ ↦ rfl⟩
    exact store_of_not_inWord (hx.not_inWord hlen)
  other x hx := by
    rw [store_of_not_inWord fun hin ↦ hx (hin.inWords rs.length)]
    exact h.other x fun hin ↦ hx hin.of_tail

/-- The other words above the first one, which is there. -/
theorem cons (h : (m.store base (v r)).Saves m' (base + 8) rs v)
    (hlen : 8 * (rs.length + 1) ≤ 18446744073709551616) : m.Saves m' base (r :: rs) v where
  saved := by
    refine ⟨?_, h.saved⟩
    rw [load_congr fun x hx ↦ h.other x fun hin ↦ hin.not_inWord hlen hx, load_store]
  other x hx := by
    rw [h.other x fun hin ↦ hx hin.of_tail]
    exact store_of_not_inWord fun hin ↦ hx (hin.inWords rs.length)

end Saves

end Memory

/-! ### Code without calls -/

namespace Semantics

variable {Op : Type} (sem : Semantics Op)

/-- The instructions of a list, one after the other. -/
def execAll (is : List (Instruction Op)) (s : State) : State := is.foldl (fun s i ↦ sem.exec i s) s

@[simp] theorem execAll_nil (s : State) : sem.execAll [] s = s := rfl

@[simp] theorem execAll_cons (i : Instruction Op) (is : List (Instruction Op)) (s : State) :
    sem.execAll (i :: is) s = sem.execAll is (sem.exec i s) := rfl

/-- Two pieces of code run one after the other. -/
@[simp] theorem execAll_append (is js : List (Instruction Op)) (s : State) :
    sem.execAll (is ++ js) s = sem.execAll js (sem.execAll is s) := List.foldl_append

variable {sem} {t : Target Op} {left : Handle → Register → Word}

/-- Where nothing is called, the caller-saved registers are left alone. -/
theorem run_eq_execAll {code : List (Handle × Instruction Op)}
    (h : ∀ i ∈ code.map (·.2), t.isCall i = false) (s : State) :
    sem.run t left code s = sem.execAll (code.map (·.2)) s := by
  induction code generalizing s with
  | nil => rfl
  | cons e rest ih =>
    rw [List.map_cons, List.forall_mem_cons] at h
    have hstep : sem.step t (left e.1) e.2 s = sem.exec e.2 s := by
      simp only [step, h.1, Bool.false_and, Bool.false_eq_true, if_false]
    rw [run, hstep]
    exact ih h.2 _

end Semantics

/-! ### Frames -/

/-- The state `s₁` has a frame that was set up in the state `s`: the frame pointer is `above` bytes
below the stack pointer on entry, the stack pointer `below` bytes below the frame pointer, and the
registers `words` are saved with the values `v` from the frame pointer up. -/
structure SetUp (rf : RegisterFile) (above below : Nat) (words : List Register)
    (v : Register → Word) (s s₁ : State) : Prop where
  framePointer : s₁.regs rf.framePointer = s.regs rf.stackPointer - BitVec.ofNat 64 above
  stackPointer : s₁.regs rf.stackPointer = s₁.regs rf.framePointer - BitVec.ofNat 64 below
  kept : ∀ r, rf.isCalleeSaved r → r ≠ rf.stackPointer → r ≠ rf.framePointer →
    s₁.regs r = s.regs r
  saves : s.mem.Saves s₁.mem (s₁.regs rf.framePointer) words v

/-- Where a frame is set up, only the values of the registers in its words matter. -/
theorem SetUp.congr {rf : RegisterFile} {above below : Nat} {words : List Register}
    {v v' : Register → Word} {s s₁ : State} (h : SetUp rf above below words v s s₁)
    (hv : ∀ r ∈ words, v' r = v r) : SetUp rf above below words v' s s₁ :=
  { h with saves := h.saves.congr hv }

/-- In the state `s₃` the frame of the state `s₂` is taken down, where the registers `words` were
saved with the values `v`. -/
structure TakenDown (rf : RegisterFile) (above : Nat) (words : List Register)
    (v : Register → Word) (s₂ s₃ : State) : Prop where
  stackPointer : s₃.regs rf.stackPointer = s₂.regs rf.framePointer + BitVec.ofNat 64 above
  mem : s₃.mem = s₂.mem
  loaded : ∀ r ∈ words, s₃.regs r = v r
  kept : ∀ r, r ≠ rf.stackPointer → r ∉ words → s₃.regs r = s₂.regs r

/-- The state `s₂` has the pointers of the state `s₁`, and its first `n` words from the frame
pointer on. -/
structure KeepsFrame (rf : RegisterFile) (n : Nat) (s₁ s₂ : State) : Prop where
  stackPointer : s₂.regs rf.stackPointer = s₁.regs rf.stackPointer
  framePointer : s₂.regs rf.framePointer = s₁.regs rf.framePointer
  words : ∀ x, InWords (s₁.regs rf.framePointer) n x → s₂.mem x = s₁.mem x

/-- **What was set up is taken down**, whatever has run in between, if it has kept the frame. -/
theorem SetUp.undoes {rf : RegisterFile} {above below n : Nat} {words : List Register}
    {s s₁ s₂ s₃ : State} (hup : SetUp rf above below words s.regs s s₁) (hn : words.length ≤ n)
    (hkeeps : KeepsFrame rf n s₁ s₂)
    (hdown : s₂.regs rf.stackPointer = s₂.regs rf.framePointer - BitVec.ofNat 64 below →
      s₂.mem.Saved (s₂.regs rf.framePointer) words s.regs →
      TakenDown rf above words s.regs s₂ s₃) :
    TakenDown rf above words s.regs s₂ s₃ ∧
      s₃.regs rf.stackPointer = s.regs rf.stackPointer := by
  have h : TakenDown rf above words s.regs s₂ s₃ := by
    refine hdown ?_ ?_
    · rw [hkeeps.stackPointer, hkeeps.framePointer, hup.stackPointer]
    · rw [hkeeps.framePointer]
      exact hup.saves.saved.congr (fun x hx ↦ hkeeps.words x (hx.mono hn)) fun _ _ ↦ rfl
  refine ⟨h, ?_⟩
  rw [h.stackPointer, hkeeps.framePointer, hup.framePointer, BitVec.sub_add_cancel]

/-- The state `s₃` is that of the return, where the frame is taken down that was set up in the state
`s`, from the state `s₂` at the end of the body. The return address of a state is `address`. -/
structure Undone (rf : RegisterFile) (address : State → Word) (saved : List Register)
    (s s₂ s₃ : State) : Prop where
  stackPointer : s₃.regs rf.stackPointer = s.regs rf.stackPointer
  framePointer : s₃.regs rf.framePointer = s.regs rf.framePointer
  returnAddress : address s₃ = address s
  restored : ∀ r ∈ saved, s₃.regs r = s.regs r
  kept : ∀ r, rf.isCalleeSaved r → r ≠ rf.stackPointer → r ≠ rf.framePointer → r ∉ saved →
    s₃.regs r = s₂.regs r

end Machine

open Machine

/-! ### Frames on x86-64 -/

namespace X86

/-- The machine executes the instructions around a body, and the moves between registers and the
frame. -/
structure Executes (sem : Semantics Opcode) : Prop where
  push : ∀ r, r.isPhysical → ∀ s, sem.exec ⟨.push, [.reg r]⟩ s =
    { s.set rsp (s.regs rsp - 8) with mem := s.mem.store (s.regs rsp - 8) (s.regs r) }
  pop : ∀ r, r.isPhysical → ∀ s, sem.exec ⟨.pop, [.reg r]⟩ s =
    (s.set rsp (s.regs rsp + 8)).set r (s.mem.load (s.regs rsp))
  mov : ∀ s, sem.exec ⟨.mov, [.reg rsp, .reg rbp]⟩ s = s.set rbp (s.regs rsp)
  sub : ∀ n s, sem.exec ⟨.sub, [.imm n, .reg rsp]⟩ s =
    s.set rsp (s.regs rsp - BitVec.ofInt 64 n)
  add : ∀ n s, sem.exec ⟨.add, [.imm n, .reg rsp]⟩ s =
    s.set rsp (s.regs rsp + BitVec.ofInt 64 n)
  store : ∀ r, r.isPhysical → ∀ offset s, sem.exec (store r offset) s =
    { s with mem := s.mem.store (offsetFrom (s.regs rbp) offset) (s.regs r) }
  load : ∀ r, r.isPhysical → ∀ offset s, sem.exec (load offset r) s =
    s.set r (s.mem.load (offsetFrom (s.regs rbp) offset))

/-- The return address is on top of the stack. -/
def returnAddress (s : State) : Word := s.mem.load (s.regs rsp)

variable {sem : Semantics Opcode} {rs : List Register} {f : Frame}

/-- **Pushed registers** are in the words from the stack pointer on, the last one first. Where the
stack pointer is among them, it is saved with a value that it has on the way. -/
theorem execAll_push (hsem : Executes sem) (hrs : ∀ r ∈ rs, r.isPhysical)
    (hcount : rs.count rsp ≤ 1) (hlen : 8 * (rs.length + 1) ≤ 18446744073709551616) (s : State) :
    let s' := sem.execAll (rs.map fun r ↦ ⟨.push, [.reg r]⟩) s
    s'.regs rsp = s.regs rsp - BitVec.ofNat 64 (8 * rs.length) ∧
      (∀ r, r ≠ rsp → s'.regs r = s.regs r) ∧
      ∃ v : Register → Word, (∀ r, r ≠ rsp → v r = s.regs r) ∧
        s.mem.Saves s'.mem (s'.regs rsp) rs.reverse v := by
  induction rs using List.reverseRecOn with
  | nil =>
    refine ⟨?_, fun _ _ ↦ rfl, s.regs, fun _ _ ↦ rfl, .nil _ _ _⟩
    show s.regs rsp = s.regs rsp - 0#64
    rw [BitVec.sub_zero]
  | append_singleton rs r ih =>
    simp only [List.forall_mem_append, List.forall_mem_singleton, List.length_append,
      List.length_singleton, List.count_append] at hrs hlen hcount
    obtain ⟨hsp, hregs, v, hv, hsaves⟩ := ih hrs.1 (by omega) (by omega)
    rw [List.map_append, Semantics.execAll_append, List.map_singleton, Semantics.execAll_cons,
      Semantics.execAll_nil, hsem.push r hrs.2, List.reverse_append, List.reverse_singleton,
      List.singleton_append]
    simp only [State.regs_set, if_true]
    generalize sem.execAll (rs.map fun r ↦ ⟨.push, [.reg r]⟩) s = s' at hsp hregs hsaves ⊢
    refine ⟨?_, fun q hq ↦ ?_, fun q ↦ if q = r then s'.regs r else v q, fun q hq ↦ ?_, ?_⟩
    · rw [hsp, List.length_append, List.length_singleton]
      bv_omega
    · rw [if_neg hq, hregs q hq]
    · dsimp only
      split
      · rename_i heq
        rw [← heq, hregs q hq]
      · exact hv q hq
    · -- the words that are there keep their values, also if `r` is among them
      have hvalues : ∀ q ∈ rs.reverse, (if q = r then s'.regs r else v q) = v q := by
        intro q hq
        split
        · rename_i heq
          subst heq
          have hne : q ≠ rsp := by
            rintro rfl
            have := List.one_le_count_iff.2 (List.mem_reverse.1 hq)
            simp only [List.count_singleton_self] at hcount
            omega
          rw [hregs q hne, hv q hne]
        · rfl
      have hbase : s.mem.Saves s'.mem (s'.regs rsp - 8 + 8) rs.reverse
          (fun q ↦ if q = r then s'.regs r else v q) := by
        rw [BitVec.sub_add_cancel]
        exact hsaves.congr hvalues
      have hpush := hbase.push (r := r) (by rw [List.length_reverse]; omega)
      rwa [if_pos rfl] at hpush

/-- **Popping** loads the words from the stack pointer on. -/
theorem execAll_pop (hsem : Executes sem) (hrs : ∀ r ∈ rs, r.isPhysical ∧ r ≠ rsp)
    {v : Register → Word} (s : State) (hsaved : s.mem.Saved (s.regs rsp) rs v) :
    let s' := sem.execAll (rs.map fun r ↦ ⟨.pop, [.reg r]⟩) s
    s'.regs rsp = s.regs rsp + BitVec.ofNat 64 (8 * rs.length) ∧ s'.mem = s.mem ∧
      (∀ r ∈ rs, s'.regs r = v r) ∧ ∀ r, r ≠ rsp → r ∉ rs → s'.regs r = s.regs r := by
  induction rs generalizing s with
  | nil =>
    refine ⟨?_, rfl, by simp, fun _ _ _ ↦ rfl⟩
    show s.regs rsp = s.regs rsp + 0#64
    rw [BitVec.add_zero]
  | cons r rs ih =>
    rw [List.forall_mem_cons] at hrs
    have hne : rsp ≠ r := hrs.1.2.symm
    rw [List.map_cons, Semantics.execAll_cons, hsem.pop r hrs.1.1]
    obtain ⟨hsp, hmem, hloaded, hkept⟩ := ih hrs.2
      ((s.set rsp (s.regs rsp + 8)).set r (s.mem.load (s.regs rsp))) (by
        rw [State.regs_set, if_neg hne, State.regs_set, if_pos rfl]
        exact hsaved.2)
    simp only [State.regs_set, State.mem_set, if_neg hne, if_true] at hsp hmem hkept
    refine ⟨?_, hmem, fun q hq ↦ ?_, fun q hq hq' ↦ ?_⟩
    · rw [hsp, List.length_cons]
      bv_omega
    · by_cases hlater : q ∈ rs
      · exact hloaded q hlater
      · obtain rfl := (List.mem_cons.1 hq).resolve_right hlater
        rw [hkept q hrs.1.2 hlater, if_pos rfl, hsaved.1]
    · rw [List.mem_cons, not_or] at hq'
      rw [hkept q hq hq'.2, if_neg hq'.1, if_neg hq]

/-- Making no room is no instruction. -/
theorem execAll_room {op : Opcode} {g : Word → Word → Word} (hg : ∀ w, g w 0#64 = w)
    (hexec : ∀ (n : Int) s, sem.exec ⟨op, [.imm n, .reg rsp]⟩ s =
      s.set rsp (g (s.regs rsp) (BitVec.ofInt 64 n))) (n : Nat) (s : State) :
    sem.execAll (if n = 0 then [] else [⟨op, [.imm n, .reg rsp]⟩]) s =
      s.set rsp (g (s.regs rsp) (BitVec.ofNat 64 n)) := by
  split
  · rename_i hzero
    rw [hzero, hg, State.set_self]
    rfl
  · rw [Semantics.execAll_cons, Semantics.execAll_nil, hexec, BitVec.ofInt_natCast]

/-- The stack pointer may be saved too, but not with its value on entry. -/
theorem exists_setUp (hsem : Executes sem) (hfits : f.Fits)
    (hsaved : ∀ r ∈ f.saved, r.isPhysical) (hcount : f.saved.count rsp ≤ 1)
    {is : List (Instruction Opcode)} (h : prologue f = .ok is) (s : State) :
    ∃ v : Register → Word, (∀ r, r ≠ rsp → v r = s.regs r) ∧
      SetUp registerFile (8 * (f.saved.length + 1)) f.padded (rbp :: f.saved.reverse) v s
        (sem.execAll is s) := by
  cases (prologue_eq hfits).symm.trans h
  have hlen := hfits.length_saved_lt
  have hphys : ∀ r ∈ f.saved ++ [rbp], r.isPhysical := by
    rw [List.forall_mem_append, List.forall_mem_singleton]
    exact ⟨hsaved, by decide⟩
  have hcount' : (f.saved ++ [rbp]).count rsp ≤ 1 := by
    rw [List.count_append]
    exact hcount
  obtain ⟨hsp, hregs, v, hv, hsaves⟩ := execAll_push hsem hphys hcount' (by
    simp only [List.length_append, List.length_singleton, Unsigned32.bound] at hlen ⊢
    omega) s
  rw [List.length_append, List.length_singleton] at hsp
  rw [List.reverse_append, List.reverse_singleton, List.singleton_append] at hsaves
  -- the push of the frame pointer is the last of the pushes
  have hsplit : f.saved.map (fun r ↦ (⟨.push, [.reg r]⟩ : Instruction Opcode)) ++
      [⟨.push, [.reg rbp]⟩, ⟨.mov, [.reg rsp, .reg rbp]⟩] =
      (f.saved ++ [rbp]).map (fun r ↦ ⟨.push, [.reg r]⟩) ++ [⟨.mov, [.reg rsp, .reg rbp]⟩] := by
    simp
  rw [hsplit, Semantics.execAll_append, Semantics.execAll_append, Semantics.execAll_cons,
    Semantics.execAll_nil, hsem.mov, execAll_room BitVec.sub_zero hsem.sub]
  exact ⟨v, hv, hsp, rfl,
    fun r _ hr hr' ↦ (if_neg hr).trans ((if_neg hr').trans (hregs r hr)), hsaves⟩

/-- **The prologue on x86 sets the frame up**, with the values that the registers have on entry, if
the stack pointer is not among those to save. -/
theorem setUp_prologue (hsem : Executes sem) (hfits : f.Fits)
    (hsaved : ∀ r ∈ f.saved, r.isPhysical ∧ r ≠ rsp) {is : List (Instruction Opcode)}
    (h : prologue f = .ok is) (s : State) :
    SetUp registerFile (8 * (f.saved.length + 1)) f.padded (rbp :: f.saved.reverse) s.regs s
      (sem.execAll is s) := by
  have hnone : f.saved.count rsp = 0 := List.count_eq_zero.2 fun hmem ↦ (hsaved rsp hmem).2 rfl
  obtain ⟨v, hv, hup⟩ := exists_setUp hsem hfits (fun r hr ↦ (hsaved r hr).1) (by omega) h s
  refine hup.congr fun r hr ↦ (hv r ?_).symm
  rcases List.mem_cons.1 hr with rfl | hr
  · decide
  · exact (hsaved r (List.mem_reverse.1 hr)).2

/-- **The epilogue on x86 takes the frame down**: it reads the words from the frame pointer on. -/
theorem exists_takenDown (hsem : Executes sem) (hfits : f.Fits)
    (hsaved : ∀ r ∈ f.saved, r.isPhysical ∧ r ≠ rsp) :
    ∃ js, epilogue f = .ok (js ++ [⟨.ret, []⟩]) ∧ ∀ (s : State) (v : Register → Word),
      s.regs rsp = s.regs rbp - BitVec.ofNat 64 f.padded →
      s.mem.Saved (s.regs rbp) (rbp :: f.saved.reverse) v →
      TakenDown registerFile (8 * (f.saved.length + 1)) (rbp :: f.saved.reverse) v s
        (sem.execAll js s) := by
  have hphys : ∀ r ∈ rbp :: f.saved.reverse, r.isPhysical ∧ r ≠ rsp := by
    rw [List.forall_mem_cons]
    exact ⟨by decide, fun r hr ↦ hsaved r (List.mem_reverse.1 hr)⟩
  refine ⟨_, epilogue_eq hfits, fun s v hsp hmem ↦ ?_⟩
  have hroom := execAll_room BitVec.add_zero hsem.add f.padded s
  rw [hsp, BitVec.sub_add_cancel] at hroom
  obtain ⟨hsp₃, hmem₃, hloaded, hkept⟩ := execAll_pop hsem hphys (v := v)
    (s.set rsp (s.regs rbp)) (by rwa [State.regs_set, if_pos rfl])
  rw [State.regs_set, if_pos rfl, List.length_cons, List.length_reverse] at hsp₃
  rw [List.append_assoc, Semantics.execAll_append, hroom]
  exact ⟨hsp₃, hmem₃, hloaded, fun r hr hr' ↦ (hkept r hr hr').trans (if_neg hr)⟩

/-- **Pops undo pushes.** -/
theorem exists_undone (hsem : Executes sem) (hfits : f.Fits)
    (hsaved : ∀ r ∈ f.saved, r.isPhysical ∧ r ≠ rsp) {is : List (Instruction Opcode)}
    (h : prologue f = .ok is) :
    ∃ js, epilogue f = .ok (js ++ [⟨.ret, []⟩]) ∧ ∀ s s₂,
      KeepsFrame registerFile (2 + f.saved.length) (sem.execAll is s) s₂ →
      Undone registerFile returnAddress f.saved s s₂ (sem.execAll js s₂) := by
  obtain ⟨js, hjs, hdown⟩ := exists_takenDown hsem hfits hsaved
  refine ⟨js, hjs, fun s s₂ hkeeps ↦ ?_⟩
  have hup := setUp_prologue hsem hfits hsaved h s
  have hlen := hfits.length_saved_lt
  have hwords : (rbp :: f.saved.reverse).length = f.saved.length + 1 := by simp
  obtain ⟨htaken, hsp⟩ := hup.undoes (by omega) hkeeps (hdown s₂ s.regs)
  refine ⟨hsp, htaken.loaded rbp (by simp), ?_, fun r hr ↦ htaken.loaded r (by simp [hr]),
    fun r _ hr hr' hr'' ↦ htaken.kept r hr ?_⟩
  · -- the return address is the word above those that were pushed
    have hentry : s.regs rsp = (sem.execAll is s).regs rbp +
        BitVec.ofNat 64 (8 * (f.saved.length + 1)) := by
      have hfp : (sem.execAll is s).regs rbp = s.regs rsp - _ := hup.framePointer
      rw [hfp, BitVec.sub_add_cancel]
    simp only [Unsigned32.bound] at hlen
    show (sem.execAll js s₂).mem.load ((sem.execAll js s₂).regs registerFile.stackPointer) =
      s.mem.load (s.regs rsp)
    rw [hsp, htaken.mem]
    refine Memory.load_congr fun x hx ↦ ?_
    have hx' : InWord ((sem.execAll is s).regs rbp +
      BitVec.ofNat 64 (8 * (f.saved.length + 1))) x := hentry ▸ hx
    rw [hkeeps.words x ((hx'.inWords_last (by omega)).mono (by omega))]
    refine hup.saves.other x ?_
    rw [hwords]
    exact hx'.not_inWords (by omega)
  · rw [List.mem_cons, List.mem_reverse, not_or]
    exact ⟨hr', hr''⟩

/-- The meaning of the data instructions and of those that work on the stack, with the labels at the
addresses `symbol`. -/
def stackSemantics (symbol : String → Word) : Semantics Opcode where
  reads i :=
    match i.opcode, i.operands with
    | .push, [op] => rsp :: State.named op
    | .pop, [op] => rsp :: State.addressed op
    | _, _ => (semantics symbol).reads i
  writes i :=
    match i.opcode, i.operands with
    | .push, [_] => [rsp]
    | .pop, [op] => rsp :: State.destination op
    | _, _ => (semantics symbol).writes i
  footprint i s x :=
    match i.opcode, i.operands with
    | .push, [op] => InWord (s.regs rsp - 8) x ∨ s.touches op x
    | .pop, [op] => InWord (s.regs rsp) x ∨ (s.set rsp (s.regs rsp + 8)).touches op x
    | _, _ => (semantics symbol).footprint i s x
  exec i s :=
    match i.opcode, i.operands with
    | .push, [op] =>
      { s.set rsp (s.regs rsp - 8) with mem := s.mem.store (s.regs rsp - 8) (s.value symbol op) }
    | .pop, [op] => (s.set rsp (s.regs rsp + 8)).assign (s.mem.load (s.regs rsp)) op
    | _, _ => (semantics symbol).exec i s

/-- The instructions of `stackSemantics` do what code around a body needs. -/
theorem executes (symbol : String → Word) : Executes (stackSemantics symbol) where
  push r hr s := by
    show { s.set rsp (s.regs rsp - 8) with mem := s.mem.store (s.regs rsp - 8) (s.read r) } = _
    rw [s.read_of_isPhysical hr]
  pop r hr s := by
    show (if r.isAbsent then _ else _) = _
    rw [Register.not_isAbsent_of_isPhysical hr]
    rfl
  mov s := rfl
  sub n s := rfl
  add n s := rfl
  store r hr :=
    (movesFrame symbol (List.forall_mem_singleton.2 hr)).store r (List.mem_singleton_self r)
  load r hr :=
    (movesFrame symbol (List.forall_mem_singleton.2 hr)).load r (List.mem_singleton_self r)

end X86

/-! ### Frames on RISC-V -/

namespace RiscV

/-- What is stored of a register: the register `zero` holds zero. -/
def stored (s : State) (r : Register) : Word := if r = zero then 0 else s.regs r

/-- The machine executes the instructions around a body, and the moves between registers and the
frame. What is loaded into the register `zero` is lost. -/
structure Executes (sem : Semantics Opcode) : Prop where
  addi : ∀ dst ∈ [sp, fp], ∀ src ∈ [sp, fp], ∀ n s,
    sem.exec (addi dst src n) s = s.set dst (s.regs src + BitVec.ofInt 64 n)
  li : ∀ n s, sem.exec ⟨.li, [.reg t0, .imm n]⟩ s = s.set t0 (BitVec.ofInt 64 n)
  sub : ∀ s, sem.exec ⟨.sub, [.reg sp, .reg sp, .reg t0]⟩ s = s.set sp (s.regs sp - s.regs t0)
  sd : ∀ r, r.isPhysical → ∀ base ∈ [sp, fp], ∀ offset s, sem.exec (sd r offset base) s =
    { s with mem := s.mem.store (offsetFrom (s.regs base) offset) (stored s r) }
  ld : ∀ r, r.isPhysical → ∀ base ∈ [sp, fp], ∀ offset s, sem.exec (ld r offset base) s =
    if r = zero then s else s.set r (s.mem.load (offsetFrom (s.regs base) offset))

/-- The return address is in a register. -/
def returnAddress (s : State) : Word := s.regs ra

variable {sem : Semantics Opcode} {rs : List Register} {f : Frame}

theorem add_word_succ (base : Word) (offset n : Nat) :
    base + BitVec.ofNat 64 (offset + 8 * n) + 8 =
      base + BitVec.ofNat 64 (offset + 8 * (n + 1)) := by
  bv_omega

/-- **Stored registers** are in the words from the first address on. The numbers of the words
start at `n`. -/
theorem execAll_sd (hsem : Executes sem) (hrs : ∀ r ∈ rs, r.isPhysical ∧ r ≠ zero)
    (hlen : 8 * (rs.length + 1) ≤ 18446744073709551616) (offset n : Nat) (s : State) :
    let s' := sem.execAll ((rs.zipIdx n).map fun x ↦ sd x.1 (offset + 8 * x.2 : Nat) sp) s
    s'.regs = s.regs ∧
      s.mem.Saves s'.mem (s.regs sp + BitVec.ofNat 64 (offset + 8 * n)) rs s.regs := by
  induction rs generalizing n s with
  | nil => exact ⟨rfl, .nil _ _ _⟩
  | cons r rs ih =>
    rw [List.forall_mem_cons] at hrs
    rw [List.length_cons] at hlen
    rw [List.zipIdx_cons, List.map_cons, Semantics.execAll_cons,
      hsem.sd r hrs.1.1 sp (by simp), stored, if_neg hrs.1.2, offsetFrom, BitVec.ofInt_natCast]
    obtain ⟨hregs, hsaves⟩ := ih hrs.2 (by omega) (n + 1) { s with
      mem := s.mem.store (s.regs sp + BitVec.ofNat 64 (offset + 8 * n)) (s.regs r) }
    refine ⟨hregs, Memory.Saves.cons ?_ (by omega)⟩
    rw [add_word_succ]
    exact hsaves

/-- **Loading** takes the registers from the words from the first address on. -/
theorem execAll_ld (hsem : Executes sem) (hrs : ∀ r ∈ rs, r.isPhysical ∧ r ≠ zero ∧ r ≠ sp)
    {v : Register → Word} (offset n : Nat) (s : State)
    (hsaved : s.mem.Saved (s.regs sp + BitVec.ofNat 64 (offset + 8 * n)) rs v) :
    let s' := sem.execAll ((rs.zipIdx n).map fun x ↦ ld x.1 (offset + 8 * x.2 : Nat) sp) s
    s'.mem = s.mem ∧ (∀ r ∈ rs, s'.regs r = v r) ∧ ∀ r ∉ rs, s'.regs r = s.regs r := by
  induction rs generalizing n s with
  | nil => exact ⟨rfl, by simp, fun _ _ ↦ rfl⟩
  | cons r rs ih =>
    rw [List.forall_mem_cons] at hrs
    obtain ⟨hphys, hzero, hsp⟩ := hrs.1
    rw [List.zipIdx_cons, List.map_cons, Semantics.execAll_cons, hsem.ld r hphys sp (by simp),
      if_neg hzero, offsetFrom, BitVec.ofInt_natCast, hsaved.1]
    obtain ⟨hmem, hloaded, hkept⟩ := ih hrs.2 (n + 1) (s.set r (v r)) (by
      rw [State.regs_set, if_neg hsp.symm]
      rw [← add_word_succ]
      exact hsaved.2)
    refine ⟨hmem, fun q hq ↦ ?_, fun q hq ↦ ?_⟩
    · by_cases hlater : q ∈ rs
      · exact hloaded q hlater
      · obtain rfl := (List.mem_cons.1 hq).resolve_right hlater
        rw [hkept q hlater, State.regs_set, if_pos rfl]
    · rw [List.mem_cons, not_or] at hq
      rw [hkept q hq.2, State.regs_set, if_neg hq.1]

/-- The bytes from the frame pointer up to the stack pointer on entry. -/
def above (f : Frame) : Nat :=
  if f.total ≤ maxAddiFrame then f.total - f.body else Frame.roundUp f.save f.alignment

/-- The bytes from the stack pointer up to the frame pointer. -/
def below (f : Frame) : Nat :=
  if f.total ≤ maxAddiFrame then f.body else Frame.roundUp f.body f.alignment

/-- The saved registers are none that the code around the body treats in a special way. -/
def Savable (f : Frame) : Prop := ∀ r ∈ f.saved, r.isPhysical ∧ r ≠ zero ∧ r ≠ sp

/-- The return address and the frame pointer can be saved like the saved registers. -/
theorem Savable.words (h : Savable f) :
    ∀ r ∈ ra :: fp :: f.saved, r.isPhysical ∧ r ≠ zero ∧ r ≠ sp := by
  rw [List.forall_mem_cons, List.forall_mem_cons]
  exact ⟨by decide, by decide, h⟩

/-- The registers are stored after the stack pointer has been lowered. -/
theorem execAll_transfer_sd (hsem : Executes sem) (hfits : f.Fits)
    (hsaved : ∀ r ∈ f.saved, r.isPhysical ∧ r ≠ zero) (w : Word) (offset : Nat) (s : State) :
    let s' := sem.execAll (transfer sd offset f.saved) (s.set sp w)
    s'.regs = (s.set sp w).regs ∧
      s.mem.Saves s'.mem (w + BitVec.ofNat 64 offset) (ra :: fp :: f.saved)
        (s.set sp w).regs := by
  have hlen := hfits.length_saved_lt
  have hphys : ∀ r ∈ ra :: fp :: f.saved, r.isPhysical ∧ r ≠ zero := by
    rw [List.forall_mem_cons, List.forall_mem_cons]
    exact ⟨by decide, by decide, hsaved⟩
  obtain ⟨hregs, hsaves⟩ := execAll_sd hsem hphys (by
    simp only [List.length_cons, Unsigned32.bound] at hlen ⊢
    omega) offset 0 (s.set sp w)
  rw [State.regs_set, if_pos rfl] at hsaves
  exact ⟨hregs, hsaves⟩

/-- The stack pointer may be saved too, but not with its value on entry. -/
theorem exists_setUp (hsem : Executes sem) (hfits : f.Fits)
    (hsaved : ∀ r ∈ f.saved, r.isPhysical ∧ r ≠ zero) {is : List (Instruction Opcode)}
    (h : prologue f = .ok is) (s : State) :
    ∃ v : Register → Word, (∀ r, r ≠ sp → v r = s.regs r) ∧
      SetUp registerFile (above f) (below f) (ra :: fp :: f.saved) v s (sem.execAll is s) := by
  cases (prologue_eq hfits).symm.trans h
  have hle := hfits.le_total
  rw [above, below]
  split
  · -- one step: the stack pointer stays, and the frame pointer is set from it
    obtain ⟨hregs, hsaves⟩ := execAll_transfer_sd hsem hfits hsaved
      (s.regs sp + BitVec.ofInt 64 (-f.total)) f.body s
    simp only [Semantics.execAll_append, Semantics.execAll_cons, Semantics.execAll_nil,
      hsem.addi sp (by simp) sp (by simp), hsem.addi fp (by simp) sp (by simp),
      BitVec.ofInt_natCast]
    generalize sem.execAll (transfer sd f.body f.saved) _ = s' at hregs hsaves ⊢
    have hsp : s'.regs sp = s.regs sp + BitVec.ofInt 64 (-f.total) := by
      rw [hregs, State.regs_set, if_pos rfl]
    refine ⟨s'.regs, fun r hr ↦ (congrFun hregs r).trans (if_neg hr), ?_, ?_,
      fun r _ hr hr' ↦ ?_, ?_⟩
    · show s'.regs sp + BitVec.ofNat 64 f.body = s.regs sp - _
      rw [hsp, BitVec.ofInt_neg, BitVec.ofInt_natCast]
      bv_omega
    · exact (BitVec.add_sub_cancel _ _).symm
    · exact (if_neg hr').trans ((congrFun hregs r).trans (if_neg hr))
    · show s.mem.Saves s'.mem (s'.regs sp + BitVec.ofNat 64 f.body) _ _
      rw [hsp, hregs]
      exact hsaves
  · -- two steps: the frame pointer is set in between
    obtain ⟨hregs, hsaves⟩ := execAll_transfer_sd hsem hfits hsaved
      (s.regs sp + BitVec.ofInt 64 (-Frame.roundUp f.save f.alignment)) 0 s
    simp only [Semantics.execAll_append, Semantics.execAll_cons, Semantics.execAll_nil,
      hsem.addi sp (by simp) sp (by simp), hsem.addi fp (by simp) sp (by simp), hsem.li, hsem.sub,
      BitVec.ofInt_natCast]
    generalize sem.execAll (transfer sd 0 f.saved) _ = s' at hregs hsaves ⊢
    have hsp : s'.regs sp = s.regs sp + BitVec.ofInt 64 (-Frame.roundUp f.save f.alignment) := by
      rw [hregs, State.regs_set, if_pos rfl]
    refine ⟨s'.regs, fun r hr ↦ (congrFun hregs r).trans (if_neg hr), ?_, ?_,
      fun r hcallee hr hr' ↦ ?_, ?_⟩
    · show s'.regs sp + 0#64 = s.regs sp - _
      rw [hsp, BitVec.ofInt_neg, BitVec.ofInt_natCast]
      bv_omega
    · show s'.regs sp - _ = s'.regs sp + 0#64 - _
      rw [BitVec.add_zero]
      rfl
    · have ht0 : r ≠ t0 := by
        rintro rfl
        exact absurd hcallee (by decide)
      exact (if_neg hr).trans ((if_neg ht0).trans ((if_neg hr').trans
        ((congrFun hregs r).trans (if_neg hr))))
    · show s.mem.Saves s'.mem (s'.regs sp + 0#64) _ _
      rw [hsp, hregs]
      exact hsaves

/-- **The prologue on RISC-V sets the frame up**, in one step or in two. -/
theorem setUp_prologue (hsem : Executes sem) (hfits : f.Fits) (hsaved : Savable f)
    {is : List (Instruction Opcode)} (h : prologue f = .ok is) (s : State) :
    SetUp registerFile (above f) (below f) (ra :: fp :: f.saved) s.regs s (sem.execAll is s) := by
  obtain ⟨v, hv, hup⟩ := exists_setUp hsem hfits
    (fun r hr ↦ ⟨(hsaved r hr).1, (hsaved r hr).2.1⟩) h s
  exact hup.congr fun r hr ↦ (hv r (hsaved.words r hr).2.2).symm

/-- The registers are loaded, and then the stack pointer is raised. -/
theorem execAll_transfer_ld (hsem : Executes sem) (hsaved : Savable f) (offset n : Nat) {s : State}
    {v : Register → Word}
    (hmem : s.mem.Saved (s.regs sp + BitVec.ofNat 64 offset) (ra :: fp :: f.saved) v) :
    let s' := sem.execAll (transfer ld offset f.saved ++ [addi sp sp n]) s
    s'.regs sp = s.regs sp + BitVec.ofNat 64 n ∧ s'.mem = s.mem ∧
      (∀ r ∈ ra :: fp :: f.saved, s'.regs r = v r) ∧
      ∀ r, r ≠ sp → r ∉ ra :: fp :: f.saved → s'.regs r = s.regs r := by
  obtain ⟨hmem', hloaded, hkept⟩ := execAll_ld hsem hsaved.words offset 0 s hmem
  have hsp : sp ∉ ra :: fp :: f.saved := fun hin ↦ (hsaved.words sp hin).2.2 rfl
  rw [Semantics.execAll_append, Semantics.execAll_cons, Semantics.execAll_nil,
    hsem.addi sp (by simp) sp (by simp), BitVec.ofInt_natCast]
  refine ⟨?_, hmem', fun r hr ↦ ?_, fun r hr hr' ↦ ?_⟩
  · rw [State.regs_set, if_pos rfl]
    exact congrArg (· + _) (hkept sp hsp)
  · rw [State.regs_set, if_neg (hsaved.words r hr).2.2]
    exact hloaded r hr
  · rw [State.regs_set, if_neg hr]
    exact hkept r hr'

/-- **The epilogue on RISC-V takes the frame down**, from the stack pointer if the frame is small,
and from the frame pointer otherwise. -/
theorem exists_takenDown (hsem : Executes sem) (hfits : f.Fits) (hsaved : Savable f) :
    ∃ js, epilogue f = .ok (js ++ [⟨.ret, []⟩]) ∧ ∀ (s : State) (v : Register → Word),
      s.regs sp = s.regs fp - BitVec.ofNat 64 (below f) →
      s.mem.Saved (s.regs fp) (ra :: fp :: f.saved) v →
      TakenDown registerFile (above f) (ra :: fp :: f.saved) v s (sem.execAll js s) := by
  have hle := hfits.le_total
  have hepilogue := epilogue_eq hfits
  rw [above, below]
  split at hepilogue
  · rename_i hsmall
    refine ⟨transfer ld f.body f.saved ++ [addi sp sp f.total], by simpa using hepilogue, ?_⟩
    intro s v hsp hmem
    rw [if_pos hsmall] at hsp ⊢
    obtain ⟨hsp', hrest⟩ := execAll_transfer_ld hsem hsaved f.body f.total (s := s) (v := v) (by
      rwa [hsp, BitVec.sub_add_cancel])
    refine ⟨hsp'.trans ?_, hrest.1, hrest.2.1, hrest.2.2⟩
    show _ = s.regs fp + _
    rw [hsp]
    bv_omega
  · rename_i hlarge
    refine ⟨addi sp fp 0 :: (transfer ld 0 f.saved ++
      [addi sp sp (Frame.roundUp f.save f.alignment : Nat)]), by simpa using hepilogue, ?_⟩
    intro s v _ hmem
    rw [if_neg hlarge, Semantics.execAll_cons, hsem.addi sp (by simp) fp (by simp)]
    have hfp : (s.set sp (s.regs fp + BitVec.ofInt 64 0)).regs sp = s.regs fp := by
      rw [State.regs_set, if_pos rfl]
      exact BitVec.add_zero _
    obtain ⟨hsp', hmem', hloaded, hkept⟩ := execAll_transfer_ld hsem hsaved 0
      (Frame.roundUp f.save f.alignment) (s := s.set sp (s.regs fp + BitVec.ofInt 64 0)) (v := v)
      (by rwa [hfp, BitVec.add_zero])
    rw [hfp] at hsp'
    exact ⟨hsp', hmem', hloaded, fun r hr hr' ↦ (hkept r hr hr').trans (if_neg hr)⟩

/-- **Loads undo stores.** -/
theorem exists_undone (hsem : Executes sem) (hfits : f.Fits) (hsaved : Savable f)
    {is : List (Instruction Opcode)} (h : prologue f = .ok is) :
    ∃ js, epilogue f = .ok (js ++ [⟨.ret, []⟩]) ∧ ∀ s s₂,
      KeepsFrame registerFile (2 + f.saved.length) (sem.execAll is s) s₂ →
      Undone registerFile returnAddress f.saved s s₂ (sem.execAll js s₂) := by
  obtain ⟨js, hjs, hdown⟩ := exists_takenDown hsem hfits hsaved
  refine ⟨js, hjs, fun s s₂ hkeeps ↦ ?_⟩
  obtain ⟨htaken, hsp⟩ := (setUp_prologue hsem hfits hsaved h s).undoes
    (by rw [List.length_cons, List.length_cons]; omega) hkeeps (hdown s₂ s.regs)
  refine ⟨hsp, htaken.loaded fp (by simp), htaken.loaded ra (by simp),
    fun r hr ↦ htaken.loaded r (by simp [hr]), fun r hcallee hr hr' hr'' ↦ htaken.kept r hr ?_⟩
  have hra : r ≠ ra := by
    rintro rfl
    exact absurd hcallee (by decide)
  rw [List.mem_cons, List.mem_cons, not_or, not_or]
  exact ⟨hra, hr', hr''⟩

/-- Stack pointer and frame pointer are registers to read from and to write to. -/
theorem visible_of_mem {base : Register} (h : base ∈ [sp, fp]) :
    visible base = base ∧ base.isPhysical := by
  revert base
  decide

/-- The address of a place in the frame, as the machine sees its registers. -/
def frameAddress (offset : Int) (base : Register) : Address :=
  { disp := offset, base := visible base, index := visible .absent }

/-- An address in the frame is at its offset from the base. -/
theorem address_frameAddress (s : State) {base : Register} (h : base ∈ [sp, fp]) (offset : Int) :
    s.address (frameAddress offset base) = offsetFrom (s.regs base) offset := by
  obtain ⟨hvisible, hphys⟩ := visible_of_mem h
  rw [frameAddress, hvisible]
  exact s.address_of_base hphys offset

theorem read_visible (s : State) {r : Register} (hr : r.isPhysical) :
    s.read (visible r) = stored s r := by
  by_cases hzero : r = zero
  · rw [stored, if_pos hzero, visible, if_pos hzero]
    rfl
  · rw [stored, if_neg hzero, visible_of_ne hzero, s.read_of_isPhysical hr]

/-- The instructions of `semantics` do what code around a body needs. -/
theorem executes (symbol : String → Word) : Executes (semantics symbol) where
  addi dst hdst src hsrc n s := by
    obtain ⟨hdst, hdst'⟩ := visible_of_mem hdst
    obtain ⟨hsrc, hsrc'⟩ := visible_of_mem hsrc
    show (if (visible dst).isAbsent then s else
      s.set (visible dst) (s.read (visible src) + BitVec.ofInt 64 n)) = _
    rw [hdst, hsrc, Register.not_isAbsent_of_isPhysical hdst', s.read_of_isPhysical hsrc']
    rfl
  li n s := rfl
  sub s := rfl
  sd r hr base hbase offset s := by
    show { s with
      mem := s.mem.store (s.address (frameAddress offset base)) (s.read (visible r)) } = _
    rw [address_frameAddress s hbase, read_visible s hr]
  ld r hr base hbase offset s := by
    show (if (visible r).isAbsent then s else
      s.set (visible r) (s.mem.load (s.address (frameAddress offset base)))) = _
    rw [address_frameAddress s hbase]
    by_cases hzero : r = zero
    · rw [if_pos hzero, visible, if_pos hzero]
      rfl
    · rw [if_neg hzero, visible_of_ne hzero, Register.not_isAbsent_of_isPhysical hr]
      rfl

end RiscV

/-! ### Frames on either machine -/

namespace TargetKind

/-- The machine executes the instructions around a body, and the moves between registers and the
frame. -/
def Executes : (k : TargetKind) → Semantics k.Opcode → Prop
  | x86, sem => X86.Executes sem
  | riscV, sem => RiscV.Executes sem

/-- The instruction that returns. -/
def ret : (k : TargetKind) → Instruction k.Opcode
  | x86 => ⟨X86.Opcode.ret, []⟩
  | riscV => ⟨RiscV.Opcode.ret, []⟩

/-- Where a return goes to. -/
def returnAddress : TargetKind → State → Word
  | x86 => X86.returnAddress
  | riscV => RiscV.returnAddress

variable (k : TargetKind) {sem : Semantics k.Opcode} {frame : Frame}
  {is : List (Instruction k.Opcode)}

/-- The registers that a frame may save. -/
def Saves (frame : Frame) : Prop :=
  ∀ r ∈ frame.saved, k.target.isCalleeSaved r ∧ r ≠ k.target.stackPointer

variable {k}

theorem Saves.isPhysical (h : k.Saves frame) {r : Register} (hr : r ∈ frame.saved) :
    r.isPhysical :=
  (k.conventional []).physical_of_callee (h r hr).1

/-- What is callee-saved on RISC-V can be saved, but for the stack pointer. -/
theorem Saves.savable (h : riscV.Saves frame) : RiscV.Savable frame := by
  refine fun r hr ↦ ⟨h.isPhysical hr, ?_, (h r hr).2⟩
  rintro rfl
  exact absurd (h RiscV.zero hr).1 (by decide)

variable (k)

/-- **The epilogue undoes the prologue**: if what runs in between keeps the pointers and the save
area, then at the return everything is as it was on entry, but for registers that were not saved. -/
theorem exists_undone (hsem : k.Executes sem) (hfits : frame.Fits) (hsaved : k.Saves frame)
    (h : k.target.prologue frame = .ok is) :
    ∃ js, k.target.epilogue frame = .ok (js ++ [k.ret]) ∧ ∀ s s₂,
      KeepsFrame k.target.toRegisterFile (2 + frame.saved.length) (sem.execAll is s) s₂ →
      Undone k.target.toRegisterFile k.returnAddress frame.saved s s₂ (sem.execAll js s₂) := by
  cases k with
  | x86 =>
    exact X86.exists_undone hsem hfits (fun r hr ↦ ⟨hsaved.isPhysical hr, (hsaved r hr).2⟩) h
  | riscV => exact RiscV.exists_undone hsem hfits hsaved.savable h

/-- The prologue leaves the callee-saved registers alone, but for the pointers. -/
theorem regs_prologue (hsem : k.Executes sem) (hfits : frame.Fits) (hsaved : k.Saves frame)
    (h : k.target.prologue frame = .ok is) {r : Register} (hr : k.target.isCalleeSaved r)
    (hsp : r ≠ k.target.stackPointer) (hfp : r ≠ k.target.framePointer) (s : State) :
    (sem.execAll is s).regs r = s.regs r := by
  cases k with
  | x86 =>
    have hup := X86.setUp_prologue hsem hfits
      (fun r hr ↦ ⟨hsaved.isPhysical hr, (hsaved r hr).2⟩) h s
    exact hup.kept r hr hsp hfp
  | riscV => exact (RiscV.setUp_prologue hsem hfits hsaved.savable h s).kept r hr hsp hfp

end TargetKind

end MachineCode

import MachineCode.Proofs.FrameSizes
import MachineCode.Proofs.OperandSeparation

/-!
# The outcome of compilation

Compilation of a built function ends in a way that can be read off its instructions and its
allocation. The only thing that can go wrong is an instruction for which there is no spill code
(`Instruction.obstacle?`): a call with spilled registers whose argument count is no number, or an
instruction with more spilled registers than there are registers to lend. The first such
instruction decides the error (`Session.compile_outcome`). If there is none, and the frame is not
too large, compilation succeeds.

Why nothing else goes wrong:

* every virtual register of a built function has a place, so assignment accepts it
  (`Function.Recorded.accepts`);
* registers are lent greedily, and greed is no loss: as long as fewer are lent than can be lent,
  one of them is left (`Pool.exists_scratch`), so the loans run out exactly when the registers do
  (`Instruction.lendAll_outcome`);
* the handles that spill code is put around denote instructions of the code throughout
  (`Code.Represents.exists_wrap`);
* a frame that fits has a prologue and an epilogue (`TargetKind.exists_enclosure`).
-/

namespace MachineCode

/-! ### Obstacles -/

/-- Why there is no spill code for an instruction. -/
inductive Obstacle where
  /-- The registers that the instruction uses without naming them are not known. -/
  | malformed (cause : MalformedCall)
  /-- There is no register left to lend to this spilled one. -/
  | scarce (v : Register)
  deriving DecidableEq

namespace Instruction

variable {Op : Type}

/-- The registers that can be lent to an instruction which uses the registers `uses` without naming
them: those that may be handed out, without the physical registers that it names after assignment.
To a call only those that it preserves can be lent. -/
def lendable (t : Target Op) (a : Allocation) (uses : List Register) (i : Instruction Op) :
    List Register :=
  Register.distinct (t.allocatable.filter fun r ↦ !uses.contains r &&
    !(r.isPhysical && (i.registers.map a.assigned).contains r) &&
    !(t.isCall i && t.isCallerSaved r))

/-- What stands against spill code for an instruction. An instruction without spilled registers
needs none. -/
def obstacle? (t : Target Op) (a : Allocation) (i : Instruction Op) : Option Obstacle :=
  if (a.spilledIn i).isEmpty then
    none
  else
    match t.implicitUses i with
    | .error cause => some (.malformed cause)
    | .ok uses => (a.spilledIn i)[(i.lendable t a uses).length]?.map .scarce

end Instruction

/-- The failure tells of the obstacle in an instruction of the function `name`. -/
def Obstacle.Reported {Op : Type} (t : Target Op) (a : Allocation) (name : String)
    (i : Instruction Op) : Obstacle → Failure → Prop
  | .malformed cause, failure => failure =
      .error (.malformedOperand name (t.describe (i.mapRegisters a.assigned)) cause.message)
  | .scarce v, failure =>
    ∃ instruction inUse, failure = .error (.noScratch name v instruction inUse)

/-! ### Lending -/

section Lending

variable {Op : Type} {t : Target Op} {a : Allocation} {i : Instruction Op} {area : SpillArea}
  {inUse vs pool : List Register} {done : List Loan}

/-- The list holds each register that can be lent, once. -/
structure Pool (t : Target Op) (i : Instruction Op) (inUse pool : List Register) : Prop where
  nodup : pool.Nodup
  mem_iff : ∀ r, r ∈ pool ↔ r ∈ t.allocatable ∧ r ∉ inUse ∧ (t.isCall i → ¬ t.isCallerSaved r)

/-- What was lent comes from the pool. -/
theorem Pool.lent_subset (h : Pool t i inUse pool) (hdone : Lends t a i inUse vs done) :
    done.map (·.scratch) ⊆ pool := by
  intro r hr
  obtain ⟨x, hx, rfl⟩ := List.mem_map.1 hr
  exact (h.mem_iff _).2 ⟨hdone.allocatable x hx, hdone.free x hx, hdone.saved x hx⟩

/-- **Greed is no loss**: while fewer registers are lent than can be lent, one is left. -/
theorem Pool.exists_scratch (h : Pool t i inUse pool) {lent : List Register}
    (hlt : lent.length < pool.length) :
    ∃ r, i.scratch? t (inUse ++ lent) = some r := by
  rw [← Option.isSome_iff_exists, Instruction.scratch?, List.find?_isSome]
  by_contra hnone
  -- otherwise all that can be lent is lent
  have hsub : pool ⊆ lent := by
    intro r hr
    obtain ⟨hmem, hfree, hsaved⟩ := (h.mem_iff r).1 hr
    by_contra hlent
    refine hnone ⟨r, hmem, ?_⟩
    simp only [Bool.and_eq_true, Bool.not_eq_true', Bool.and_eq_false_imp, List.contains_eq_mem,
      decide_eq_false_iff_not, List.mem_append, not_or]
    exact ⟨⟨hfree, hlent⟩, fun hcall ↦ Bool.eq_false_iff.2 (hsaved hcall)⟩
  exact absurd (List.subperm_of_subset h.nodup hsub).length_le (Nat.not_le_of_lt hlt)

/-- When as many registers are lent as can be lent, none is left. -/
theorem Pool.scratch?_eq_none (h : Pool t i inUse pool) (hdone : Lends t a i inUse vs done)
    (hle : pool.length ≤ done.length) :
    i.scratch? t (inUse ++ done.map (·.scratch)) = none := by
  by_contra hsome
  obtain ⟨r, hr⟩ := Option.ne_none_iff_exists'.1 hsome
  obtain ⟨hmem, hfree, hsaved⟩ := Instruction.scratch?_eq_some hr
  rw [List.mem_append, not_or] at hfree
  have hnodup : (r :: done.map (·.scratch)).Nodup := List.nodup_cons.2 ⟨hfree.2, hdone.nodup⟩
  have hsub : r :: done.map (·.scratch) ⊆ pool := List.cons_subset.2
    ⟨(h.mem_iff r).2 ⟨hmem, hfree.1, hsaved⟩, h.lent_subset hdone⟩
  have hlt := (List.subperm_of_subset hnodup hsub).length_le
  rw [List.length_cons, List.length_map] at hlt
  omega

/-- **Loans run out when the registers do.** With `free` registers left, the register that stands
behind `free` others cannot be lent one, and this is the only failure. -/
theorem Instruction.lendAll_outcome (function : String) (area : SpillArea)
    (hpool : Pool t i inUse pool) {rest : List Register}
    (hslot : ∀ v ∈ rest, ∃ n, a.slotOf? v = some n) (hdone : Lends t a i inUse vs done)
    {free : Nat} (hfree : pool.length = done.length + free) :
    match rest[free]? with
    | none => ∃ loans, (i.lendAll t function a area inUse done rest).result = .ok loans
    | some v => ∃ instruction taken, (i.lendAll t function a area inUse done rest).result =
        .error (.error (.noScratch function v instruction taken)) := by
  induction rest generalizing done vs free with
  | nil => exact ⟨done, rfl⟩
  | cons v rest ih =>
    obtain ⟨n, hn⟩ := hslot v List.mem_cons_self
    -- the invariant: what was lent and what is free make up the pool
    match free with
    | 0 =>
      have hnone := hpool.scratch?_eq_none hdone (Nat.le_of_eq hfree)
      refine ⟨t.describe (i.mapRegisters (Loan.substitute done)),
        Text.joinWith ", " ((inUse ++ done.map (·.scratch)).map t.display), ?_⟩
      simp only [lendAll, Logged.result_bind, Logged.result_orError, hn, hnone]
      rfl
    | free + 1 =>
      have hlt : (done.map (·.scratch)).length < pool.length := by
        rw [List.length_map]
        omega
      obtain ⟨r, hr⟩ := hpool.exists_scratch hlt
      have hnext : pool.length = (done ++ [(⟨v, n, r⟩ : Loan)]).length + free := by
        rw [List.length_append, List.length_singleton]
        omega
      have hresult : (i.lendAll t function a area inUse done (v :: rest)).result =
          (i.lendAll t function a area inUse (done ++ [⟨v, n, r⟩]) rest).result := by
        simp only [lendAll, Logged.result_bind, Logged.result_orError, Logged.result_say, hn, hr]
        rfl
      rw [hresult]
      exact ih (fun w hw ↦ hslot w (List.mem_cons_of_mem _ hw)) (lends_concat hdone hn hr) hnext

end Lending

/-- A spilled register has a slot number. -/
theorem Allocation.exists_slotOf?_of_mem_spilledIn {Op : Type} {a : Allocation}
    {i : Instruction Op} {v : Register} (hv : v ∈ a.spilledIn i) : ∃ n, a.slotOf? v = some n := by
  rw [spilledIn, Register.mem_distinct, List.mem_filter, Bool.and_eq_true] at hv
  obtain ⟨place, hplace, hslot⟩ := (Option.any_eq_true _ _).1 hv.2.2
  refine ⟨place.number - Register.firstSlot, ?_⟩
  rw [slotOf?, hplace, Option.bind_some, Register.slotIndex?, if_pos hslot]

/-- The registers that can be lent, in terms of the source and of the assigned instruction. -/
theorem Instruction.pool_lendable {Op : Type} {t : Target Op} (ht : t.Conforming) (a : Allocation)
    (uses : List Register) (i : Instruction Op) :
    Pool t (i.mapRegisters a.assigned)
      (uses ++ (i.mapRegisters a.assigned).registers.filter (·.isPhysical))
      (i.lendable t a uses) := by
  refine ⟨Register.nodup_distinct _, fun r ↦ ?_⟩
  rw [lendable, Register.mem_distinct, List.mem_filter, registers_assigned, ht.isCall_mapRegisters]
  simp only [Bool.and_eq_true, Bool.not_eq_true', Bool.and_eq_false_imp, List.contains_eq_mem,
    decide_eq_false_iff_not, List.mem_append, List.mem_filter, not_or, not_and', and_assoc,
    Bool.not_eq_true]

/-- The loans of an instruction with its assigned registers: they are found if no obstacle stands
against them, and otherwise the obstacle is reported. -/
theorem Instruction.loans_outcome {Op : Type} {t : Target Op} (ht : t.Conforming) {a : Allocation}
    {i : Instruction Op}
    (huses : t.implicitUses (i.mapRegisters a.assigned) = t.implicitUses i)
    (haccepts : ∀ r ∈ i.registers, a.accepts r) (name : String) (area : SpillArea) :
    match i.obstacle? t a with
    | none => ∃ loans, ((i.mapRegisters a.assigned).loans t name a area).result = .ok loans
    | some o => ∃ failure, ((i.mapRegisters a.assigned).loans t name a area).result =
        .error failure ∧ o.Reported t a name i failure := by
  rw [loans, obstacle?, spilled_assigned haccepts, huses]
  by_cases hempty : (a.spilledIn i).isEmpty
  · rw [if_pos hempty, if_pos hempty]
    exact ⟨[], rfl⟩
  rw [if_neg hempty, if_neg hempty]
  cases t.implicitUses i with
  | error cause => exact ⟨_, rfl, rfl⟩
  | ok uses =>
    have hslot : ∀ v ∈ a.spilledIn i, ∃ n, a.slotOf? v = some n := fun v hv ↦
      Allocation.exists_slotOf?_of_mem_spilledIn hv
    have houtcome := lendAll_outcome name area (pool_lendable ht a uses i) hslot lends_nil
      (Nat.zero_add _).symm
    dsimp only
    cases hv : (a.spilledIn i)[(i.lendable t a uses).length]? with
    | none =>
      rw [hv] at houtcome
      exact houtcome
    | some v =>
      rw [hv] at houtcome
      obtain ⟨instruction, inUse, hresult⟩ := houtcome
      exact ⟨_, hresult, instruction, inUse, rfl⟩

/-! ### The passes -/

namespace Function

variable {Op : Type} {t : Target Op} {a : Allocation} {f f' : Function Op}
  {l m : List (Handle × Instruction Op)}

/-- One instruction more gets its spill code, without messages. -/
def spillStep (t : Target Op) (a : Allocation) (f : Function Op) (s : Nat × Code Op)
    (e : Handle × Instruction Op) : Except Failure (Nat × Code Op) := do
  let loans ← (e.2.loans t f.name a (f.spillArea t a)).result
  let c ← (s.2.wrap t (f.spillArea t a) e.1 loans).mapError .fault
  return (max s.1 loans.length, c)

/-- The log aside, spill code goes in by a fold over the entries. -/
theorem result_insertSpillCode (f : Function Op) :
    (f.insertSpillCode t a).result =
      f.code.entries.foldlM (f.spillStep t a) (0, f.code) >>= fun s ↦
        .ok (s.1, { f with code := s.2 }) := by
  rw [insertSpillCode, Logged.result_bind, Logged.result_foldlM]
  simp only [Logged.result_bind]
  rfl

/-- While the loans of the instructions are found, spill code is put around one after the other, and
the instructions behind them are as they were. -/
theorem exists_spillFold (hl : f.code.Represents (l ++ m))
    (hloans : ∀ e ∈ l, ∃ loans, (e.2.loans t f.name a (f.spillArea t a)).result = .ok loans) :
    ∃ n c pre, l.foldlM (f.spillStep t a) (0, f.code) = .ok (n, c) ∧ c.Represents (pre ++ m) := by
  -- the entries that are still to come are the end of the code, whatever was put in before them
  have hpass := exists_foldlM (f := f.spillStep t a) (l := l)
    (fun (done : List (Handle × Instruction Op)) (s : Nat × Code Op) ↦ ∀ rest, l = done ++ rest →
      ∃ pre, s.2.Represents (pre ++ (rest ++ m))) ?_ (b := (0, f.code))
    (fun rest hrest ↦ ⟨[], by rw [hrest] at hl; exact hl⟩)
  · obtain ⟨⟨n, c⟩, hfold, hrep⟩ := hpass
    obtain ⟨pre, hpre⟩ := hrep [] (List.append_nil l).symm
    exact ⟨n, c, pre, hfold, hpre⟩
  · rintro done e rest ⟨n, c⟩ hsplit hrep
    obtain ⟨loans, hfound⟩ := hloans e (by simp [hsplit])
    obtain ⟨pre, hpre⟩ := hrep (e :: rest) hsplit
    have hpre' : c.Represents (pre ++ (e.1, e.2) :: (rest ++ m)) := hpre
    obtain ⟨c', before, after, hwrap, -, hrep', -⟩ :=
      hpre'.exists_wrap (Nat.zero_le _) t (f.spillArea t a) loans
    refine ⟨(max n loans.length, c'), ?_, fun rest' hrest' ↦ ?_⟩
    · exact bind_eq_ok.2 ⟨loans, hfound, bind_eq_ok.2 ⟨c', mapError_eq_ok.2 hwrap, rfl⟩⟩
    · have hsame : rest = rest' := by
        rw [hsplit, List.append_assoc] at hrest'
        simpa using hrest'
      subst hsame
      exact ⟨_, hrep'⟩

/-- Spill code is put in if the loans of all instructions are found. -/
theorem exists_insertSpillCode (hl : f.code.Represents l)
    (hloans : ∀ e ∈ l, ∃ loans, (e.2.loans t f.name a (f.spillArea t a)).result = .ok loans) :
    ∃ reserved f', (f.insertSpillCode t a).result = .ok (reserved, f') := by
  have hl' : f.code.Represents (l ++ []) := by rwa [List.append_nil]
  obtain ⟨n, c, -, hfold, -⟩ := exists_spillFold hl' hloans
  refine ⟨n, { f with code := c }, ?_⟩
  rw [result_insertSpillCode, hl.entries_eq, hfold]
  rfl

/-- The first instruction whose loans are not found decides how the pass fails. -/
theorem insertSpillCode_eq_error {e : Handle × Instruction Op} {failure : Failure}
    (hl : f.code.Represents (l ++ e :: m))
    (hloans : ∀ e ∈ l, ∃ loans, (e.2.loans t f.name a (f.spillArea t a)).result = .ok loans)
    (he : (e.2.loans t f.name a (f.spillArea t a)).result = .error failure) :
    (f.insertSpillCode t a).result = .error failure := by
  obtain ⟨n, c, -, hfold, -⟩ := exists_spillFold hl hloans
  have hstep : f.spillStep t a (n, c) e = .error failure := by
    rw [spillStep, he]
    rfl
  rw [result_insertSpillCode, hl.entries_eq, List.foldlM_append, hfold]
  show (List.foldlM (f.spillStep t a) (n, c) (e :: m) >>= _) = _
  rw [List.foldlM_cons, hstep]
  rfl

/-- Every register of a recorded function is accepted: a virtual one is live where it is named, and
so it has a place. -/
theorem Recorded.accepts (h : f.Recorded l) (hrf : t.toRegisterFile.Conventional)
    (ha : f.liveness.allocate t.toRegisterFile = .ok a) {e : Handle × Instruction Op} (he : e ∈ l)
    {r : Register} (hr : r ∈ e.2.registers) : a.accepts r := by
  by_cases hv : r.isVirtual
  · obtain ⟨p, hp⟩ := List.getElem?_of_mem he
    obtain ⟨x, hx, -⟩ := h.covers p e hp r hr hv
    obtain ⟨place, hplace, hcases⟩ := Liveness.exists_place h.liveness.wellFormed hrf ha hv hx
    rw [Allocation.accepts, hplace]
    rcases hcases with ⟨n, -, hslot⟩ | ⟨-, hphys, -⟩
    · simp [Register.isStackSlot_slot? hslot]
    · simp [hphys]
  · simp [Allocation.accepts, hv]

/-- A failure of the spill code is the failure of the whole lowering. -/
theorem lower_eq_error {f₁ : Function Op} {preserve : Bool} {failure : Failure}
    (hassign : f.assign t a = .ok f₁)
    (hspill : (f₁.insertSpillCode t a).result = .error failure) :
    (f.lower t a preserve).result = .error failure := by
  simp only [lower, Logged.result_bind, Logged.result_orError, hassign]
  show ((f₁.insertSpillCode t a).result >>= _) = _
  rw [hspill]
  rfl

end Function

/-- What becomes of a function once its registers are allocated. -/
theorem Session.result_compile {Op : Type} {s : Session Op} {f : Function Op} {a : Allocation}
    (ha : f.liveness.allocate s.target.toRegisterFile = .ok a) :
    (s.compile f).result = (f.lower s.target a (s.config.preserves f.name)).result >>= fun r ↦
      .ok ⟨r.1, a, r.2⟩ := by
  simp only [compile, Logged.result_bind, Logged.result_say, Logged.result_sayAll,
    Logged.result_mapError, Liveness.result_noteAllocate, ha]
  rfl

/-! ### No virtual register is left -/

/-- No virtual register is left in lowered code if only physical registers are handed out. -/
theorem TargetKind.not_hasVirtual_of_lower (k : TargetKind) {allocatable : List Register}
    (hallocatable : ∀ r ∈ allocatable, r.isPhysical) {a : Allocation} {f f' : Function k.Opcode}
    {l : List (Handle × Instruction k.Opcode)} (hl : f.code.Represents l) {preserve : Bool}
    {frame : Frame}
    (h : (f.lower (k.target.withAllocatable allocatable) a preserve).result = .ok (f', frame)) :
    ∀ e ∈ f'.code.entries, ¬ e.2.hasVirtual := by
  obtain ⟨-, prologue, blocks, epilogue, bound, total, hrep, hprologue, hepilogue, -, -, -, -, -,
    hblocks⟩ := Function.exists_lowered hl h
  have hsaved : ∀ r ∈ frame.saved, r.isPhysical := by
    rw [Function.lower_frame hl h]
    show ∀ r ∈ (if preserve then _ else []), _
    split
    · exact fun r hr ↦ (Allocation.mem_usedCalleeSaved.1 hr).1
    · exact fun r hr ↦ nomatch hr
  obtain ⟨hbefore, hafter⟩ := k.physical_enclosure hsaved hprologue hepilogue
  rw [hrep.entries_eq]
  simp only [List.forall_mem_append]
  refine ⟨⟨fun e he ↦ ?_, ?_⟩, fun e he ↦ ?_⟩
  · exact (hbefore _ (List.mem_map_of_mem he)).not_hasVirtual
  · exact not_hasVirtual_flatten hblocks (k.movesPhysical allocatable) hallocatable
  · exact (hafter _ (List.mem_map_of_mem he)).not_hasVirtual

/-! ### Lowering -/

section Lower

variable {Op : Type} {t : Target Op} {a : Allocation} {f : Function Op}
  {l l₁ l₂ : List (Handle × Instruction Op)}

/-- A function without obstacles is lowered if its frame has a size, a prologue and an epilogue. -/
theorem Function.exists_lower (ht : t.Conforming)
    (huses : ∀ ρ i, t.implicitUses (i.mapRegisters ρ) = t.implicitUses i)
    (hl : f.code.Represents l) (haccepts : ∀ e ∈ l, ∀ r ∈ e.2.registers, a.accepts r)
    (hnone : ∀ e ∈ l, e.2.obstacle? t a = none) {preserve : Bool} {frame : Frame}
    (hframe : frame = t.frame f.localBytes a.spillCount (a.peak l)
      (if preserve then a.usedCalleeSaved t.toRegisterFile else []))
    {total : Nat} (htotal : frame.totalBytes = .ok total) {is js : List (Instruction Op)}
    (hprologue : t.prologue frame = .ok is) (hepilogue : t.epilogue frame = .ok js) :
    ∃ f', (f.lower t a preserve).result = .ok (f', frame) := by
  obtain ⟨f₁, hassign⟩ := exists_assign (t := t) hl haccepts
  obtain ⟨hrep₁, -, hlocal₁⟩ := represents_assign hl hassign
  have hloans : ∀ e ∈ l.map fun e ↦ (e.1, e.2.mapRegisters a.assigned),
      ∃ loans, (e.2.loans t f₁.name a (f₁.spillArea t a)).result = .ok loans := by
    refine List.forall_mem_map.2 fun e he ↦ ?_
    have houtcome := Instruction.loans_outcome ht (huses _ _) (haccepts e he) f₁.name
      (f₁.spillArea t a)
    rw [hnone e he] at houtcome
    exact houtcome
  obtain ⟨reserved, f₂, hspill⟩ := exists_insertSpillCode hrep₁ hloans
  obtain ⟨blocks, hrep₂, -, hlocal₂⟩ := represents_insertSpillCode hrep₁ hspill
  obtain ⟨f', -, -, henclose, -⟩ := exists_enclose hrep₂ hprologue hepilogue
  rw [← hlocal₁, ← hlocal₂, ← reserved_eq_peak hl hassign hspill] at hframe
  exact ⟨f', lower_eq_ok.2 ⟨f₁, reserved, f₂, total, hassign, hspill, hframe, htotal, henclose⟩⟩

/-- The first obstacle is reported, whatever the frame would be. -/
theorem Function.exists_failure_of_obstacle (ht : t.Conforming)
    (huses : ∀ ρ i, t.implicitUses (i.mapRegisters ρ) = t.implicitUses i)
    {e : Handle × Instruction Op} (hl : f.code.Represents (l₁ ++ e :: l₂))
    (haccepts : ∀ e' ∈ l₁ ++ e :: l₂, ∀ r ∈ e'.2.registers, a.accepts r)
    (hnone : ∀ e' ∈ l₁, e'.2.obstacle? t a = none) {o : Obstacle}
    (ho : e.2.obstacle? t a = some o) (preserve : Bool) :
    ∃ failure, (f.lower t a preserve).result = .error failure ∧
      o.Reported t a f.name e.2 failure := by
  obtain ⟨f₁, hassign⟩ := exists_assign (t := t) hl haccepts
  obtain ⟨hrep₁, -, -⟩ := represents_assign hl hassign
  rw [List.map_append, List.map_cons] at hrep₁
  have hname : f₁.name = f.name := by
    obtain ⟨code, -, heq⟩ := bind_eq_ok.1 hassign
    cases heq
    rfl
  have houtcome := fun e' he' ↦ Instruction.loans_outcome ht (huses _ _) (haccepts e' he') f₁.name
    (f₁.spillArea t a)
  have hlast := houtcome e (by simp)
  rw [ho] at hlast
  obtain ⟨failure, hfailure, hreported⟩ := hlast
  refine ⟨failure, lower_eq_error hassign ?_, hname ▸ hreported⟩
  refine insertSpillCode_eq_error hrep₁ (List.forall_mem_map.2 fun e' he' ↦ ?_) hfailure
  have hfound := houtcome e' (List.mem_append_left _ he')
  rw [hnone e' he'] at hfound
  exact hfound

end Lower

/-- **The outcome of compilation.** Let a function be built by appending instructions and noting
call boundaries, with fewer virtual registers than there are stack slots, and be compiled for either
machine with any list of registers to hand out. If an obstacle stands against the spill code of some
instruction, then the first such instruction is reported, and nothing else goes wrong. If there is
no obstacle and the frame fits in a word, then the function is compiled; and with physical registers
to hand out no virtual register is left in its code. -/
theorem Session.compile_outcome (k : TargetKind) (allocatable : List Register) {name : String}
    {localBytes : Nat} {steps : List (BuildStep k.Opcode)} {f : Function k.Opcode}
    (hbuild : Function.build name localBytes steps = .ok f)
    (hcount : f.liveness.virtualRegisters.length < Nat.pow 2 30) (config : Config)
    (supply : Counter) :
    let t := k.target.withAllocatable allocatable
    let outcome := (compile ⟨t, config, supply⟩ f).result
    ∃ a, f.liveness.allocate t.toRegisterFile = .ok a ∧
      match f.code.entries.findSome? fun e ↦ (e.2.obstacle? t a).map fun o ↦ (e.2, o) with
      | some (i, o) => ∃ failure, outcome = .error failure ∧ o.Reported t a f.name i failure
      | none =>
        let saved := if config.preserves f.name then a.usedCalleeSaved t.toRegisterFile else []
        f.localBytes + 8 * (a.spillCount + a.peak f.code.entries) + 8 * (2 + saved.length) + 16 <
            Nat.pow 2 32 →
          ∃ compiled, outcome = .ok compiled ∧ ((∀ r ∈ allocatable, r.isPhysical) →
            ∀ e ∈ compiled.function.code.entries, ¬ e.2.hasVirtual) := by
  intro t outcome
  have ht : t.Conforming := k.conforming allocatable
  have huses : ∀ ρ i, t.implicitUses (i.mapRegisters ρ) = t.implicitUses i :=
    k.implicitUses_mapRegisters
  have hrf := ht.conventional
  obtain ⟨l, hrec⟩ := Function.recorded_of_build hbuild
  obtain ⟨a, ha⟩ := Liveness.exists_allocate hrec.liveness.wellFormed hrf (Nat.le_of_lt hcount)
  have haccepts : ∀ e ∈ l, ∀ r ∈ e.2.registers, a.accepts r := fun e he r hr ↦
    hrec.accepts hrf ha he hr
  have hresult : outcome = _ := result_compile (s := ⟨t, config, supply⟩) ha
  refine ⟨a, ha, ?_⟩
  rw [hrec.code.entries_eq]
  split
  -- the passes before the first obstacle succeed, so its failure is the one that is reported
  · rename_i i o hfirst
    obtain ⟨l₁, e, l₂, rfl, he, hnone⟩ := List.findSome?_eq_some_iff.1 hfirst
    obtain ⟨o', ho', heq⟩ := Option.map_eq_some_iff.1 he
    cases heq
    obtain ⟨failure, hfailure, hreported⟩ := Function.exists_failure_of_obstacle ht huses hrec.code
      haccepts (fun e' he' ↦ Option.map_eq_none_iff.1 (hnone e' he')) ho' (config.preserves f.name)
    refine ⟨failure, ?_, hreported⟩
    rw [hresult]
    exact congrArg (· >>= _) hfailure
  -- without obstacles only the size of the frame can be in the way
  · rename_i hnone
    intro saved hsize
    have hfits : (t.frame f.localBytes a.spillCount (a.peak l) saved).Fits :=
      k.fits_frame_iff.2 hsize
    obtain ⟨is, js, hprologue, hepilogue⟩ := k.exists_enclosure hfits
    obtain ⟨f', hlower⟩ := Function.exists_lower ht huses hrec.code haccepts
      (fun e he ↦ Option.map_eq_none_iff.1 (List.findSome?_eq_none_iff.1 hnone e he)) rfl
      hfits.totalBytes_eq hprologue hepilogue
    refine ⟨⟨f', a, t.frame f.localBytes a.spillCount (a.peak l) saved⟩, ?_, fun hphys ↦
      k.not_hasVirtual_of_lower hphys hrec.code hlower⟩
    rw [hresult]
    exact congrArg (· >>= _) hlower

/-- Three values at once. With one register to hand out, the addition names it and a spilled
register, and there is none to lend; with two, all goes well. -/
theorem Session.compile_outcome_addition :
    let steps : List (BuildStep X86.Opcode) := [
      .append ⟨.mov, [.imm 1, .reg ⟨2147483648⟩]⟩, .append ⟨.mov, [.imm 2, .reg ⟨2147483649⟩]⟩,
      .append ⟨.mov, [.imm 3, .reg ⟨2147483650⟩]⟩,
      .append ⟨.add, [.reg ⟨2147483648⟩, .reg ⟨2147483649⟩]⟩,
      .append ⟨.add, [.reg ⟨2147483649⟩, .reg ⟨2147483650⟩]⟩]
    ∃ f, Function.build "f" 0 steps = .ok f ∧
      (∃ instruction inUse,
        (compile ⟨X86.target.withAllocatable [X86.rax], {}, {}⟩ f).result =
          .error (.error (.noScratch "f" ⟨2147483649⟩ instruction inUse))) ∧
      ∃ compiled,
        (compile ⟨X86.target.withAllocatable [X86.rax, X86.rcx], {}, {}⟩ f).result =
          .ok compiled ∧ ∀ e ∈ compiled.function.code.entries, ¬ e.2.hasVirtual := by
  intro steps
  let one := X86.target.withAllocatable [X86.rax]
  let two := X86.target.withAllocatable [X86.rax, X86.rcx]
  let obstacle := fun (t : Target X86.Opcode) (f : Function X86.Opcode) (a : Allocation) ↦
    f.code.entries.findSome? fun e ↦ (e.2.obstacle? t a).map fun o ↦ (e.2, o)
  let scarce : Instruction X86.Opcode × Obstacle :=
    (⟨.add, [.reg ⟨2147483648⟩, .reg ⟨2147483649⟩]⟩, .scarce ⟨2147483649⟩)
  have hrun : (Function.build "f" 0 steps).toOption.map (fun f ↦
      (f.name, f.liveness.virtualRegisters.length)) = some ("f", 3) := by decide
  have hone : (Function.build "f" 0 steps).toOption.map (fun f ↦
      (f.liveness.allocate one.toRegisterFile).toOption.map (obstacle one f)) =
      some (some (some scarce)) := by decide
  have htwo : (Function.build "f" 0 steps).toOption.map (fun f ↦
      (f.liveness.allocate two.toRegisterFile).toOption.map fun a ↦ (obstacle two f a,
        f.localBytes + 8 * (a.spillCount + a.peak f.code.entries) +
          8 * (2 + (a.usedCalleeSaved two.toRegisterFile).length) + 16)) =
      some (some (none, 48)) := by decide
  obtain ⟨f, hf, hrun⟩ := Option.map_eq_some_iff.1 hrun
  rw [hf] at hone htwo
  rw [toOption_eq_some] at hf
  obtain ⟨hname, hlen⟩ := Prod.mk.inj hrun
  obtain ⟨a, ha, hscarce⟩ := Option.map_eq_some_iff.1 (Option.some.inj hone)
  obtain ⟨b, hb, hfine⟩ := Option.map_eq_some_iff.1 (Option.some.inj htwo)
  obtain ⟨hnone, hsize⟩ := Prod.mk.inj hfine
  rw [toOption_eq_some] at ha hb
  have hcount : f.liveness.virtualRegisters.length < Nat.pow 2 30 := by
    rw [hlen]
    decide
  obtain ⟨a', ha', hfirst⟩ := compile_outcome .x86 [X86.rax] hf hcount {} {}
  obtain ⟨b', hb', hsecond⟩ := compile_outcome .x86 [X86.rax, X86.rcx] hf hcount {} {}
  cases ha'.symm.trans ha
  cases hb'.symm.trans hb
  refine ⟨f, hf, ?_, ?_⟩
  · split at hfirst
    · rename_i i o heq
      obtain ⟨-, rfl⟩ : i = _ ∧ o = .scarce ⟨2147483649⟩ :=
        Prod.mk.inj (Option.some.inj (heq.symm.trans hscarce))
      obtain ⟨failure, hresult, instruction, inUse, rfl⟩ := hfirst
      exact ⟨instruction, inUse, hname ▸ hresult⟩
    · rename_i heq
      cases heq.symm.trans hscarce
  · split at hsecond
    · rename_i i o heq
      cases heq.symm.trans hnone
    · have hpreserves : Config.preserves {} f.name = true := by
        rw [hname]
        decide
      simp only [hpreserves] at hsecond
      obtain ⟨compiled, hcompiled, hphysical⟩ := hsecond (Nat.lt_of_le_of_lt (Nat.le_of_eq hsize)
        (by decide))
      exact ⟨compiled, hcompiled, hphysical (by decide)⟩

end MachineCode

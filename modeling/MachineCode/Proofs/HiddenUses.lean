import MachineCode.Proofs.CallSafety
import MachineCode.Proofs.FixedRanges
import MachineCode.Proofs.LoweredCode

/-!
# Registers that are used without being named

A division works on registers that it does not name, and a call reads its argument registers
without naming them. Liveness records named registers only, so the allocator learns of such a use in
one way: a call is on record as a call, and no range across it gets a caller-saved register.

What the allocator may do with a caller-saved register `r` is therefore decided by what is on record
while a virtual register `v` is live. If there is no call and no mention of `r` (`Function.Idle`),
then `r` is eligible for `v`, and otherwise it is not (`Function.Tracked.eligible_iff_idle`). Two
results follow:

* `Session.compile_implicitUses`: a virtual register that is live at a division stays clear of the
  registers of the division exactly if its range holds a call or a mention of them;
* `Session.compile_arguments`: an argument register stays untouched between its last mention before
  a call and the call, but for virtual registers that are live strictly between the two.
-/

namespace MachineCode

/-- Ranges that are not empty overlap if they have a point in common. -/
theorem LiveRange.overlaps_iff_exists {x y : LiveRange} (hx : x.start < x.stop)
    (hy : y.start < y.stop) : x.overlaps y ↔ ∃ q, x.contains q ∧ y.contains q := by
  simp only [overlaps_iff, contains_iff]
  constructor
  · intro h
    exact ⟨max x.start y.start, by omega⟩
  · rintro ⟨q, hxq, hyq⟩
    omega

namespace Liveness

variable {l : Liveness}

/-- A virtual register is live where its one range is. -/
theorem WellFormed.covers_iff (hl : l.WellFormed) {v : Register} (hv : v.isVirtual)
    {x : LiveRange} (hx : x ∈ l.ranges v) {p : Nat} : l.Covers v p ↔ x.contains p := by
  constructor
  · rintro ⟨y, hy, hyp⟩
    cases hl.ranges_subsingleton hv hx hy
    exact hyp
  · intro hxp
    exact ⟨x, hx, hxp⟩

/-- A virtual register in a physical one has a range that the register is eligible for. -/
theorem eligible_of_allocate {rf : RegisterFile} {a : Allocation} (hl : l.WellFormed)
    (hrf : rf.Conventional) (ha : l.allocate rf = .ok a) {v r : Register} (hv : v.isVirtual)
    (hr : r.isPhysical) (hget : a.get? v = some r) {x : LiveRange} (hx : x ∈ l.ranges v) :
    Scan.eligible rf l.fixedIntervals r ⟨v, x⟩ := by
  obtain ⟨p, s, rfl, hsound⟩ := exists_sound_of_allocate hl hrf ha
  rcases hsound.place ⟨v, x⟩ (mem_virtualIntervals.2 ⟨hv, hx⟩) r hget with
    ⟨n, -, hn⟩ | ⟨-, hel, -⟩
  · exact absurd (Register.isStackSlot_slot? hn) (Register.not_isStackSlot_of_isPhysical hr)
  · exact hel

end Liveness

/-! ### What is on record -/

namespace Function

variable {Op : Type} {f : Function Op} {l : List (Handle × Instruction Op)}

/-- While `v` is live, nothing is called and no instruction names `r`. -/
def Idle (f : Function Op) (r v : Register) : Prop :=
  ∀ p, f.liveness.Covers v p → p ∉ f.liveness.calls ∧
    ∀ e, f.code.entries[p]? = some e → r ∉ e.2.registers

/-- **A caller-saved register is eligible exactly if it is idle**: what an instruction does to it
without naming it does not count. -/
theorem Tracked.eligible_iff_idle (h : f.Tracked l) {rf : RegisterFile} (hrf : rf.Conventional)
    {r v : Register} (hr : rf.isCallerSaved r) (hv : v.isVirtual) {x : LiveRange}
    (hx : x ∈ f.liveness.ranges v) :
    Scan.eligible rf f.liveness.fixedIntervals r ⟨v, x⟩ ↔ f.Idle r v := by
  have hwf := h.liveness.wellFormed
  have hphys := hrf.physical_of_caller hr
  obtain ⟨hne, hpinned⟩ := h.pinned r hphys
  -- the class is right if no call is in the range, since a call would ask for the other class
  have hclass : (if x.acrossCall then rf.isCalleeSaved r else rf.isCallerSaved r) ↔
      ∀ c ∈ f.liveness.calls, ¬ x.contains c := by
    have hmark := h.liveness.acrossCall_iff v hv x hx
    split
    · rename_i hacross
      obtain ⟨c, hc, hxc⟩ := hmark.1 hacross
      exact iff_of_false (hrf.disjoint hr) fun hnone ↦ hnone c hc hxc
    · rename_i hacross
      exact iff_of_true hr fun c hc hxc ↦ hacross (hmark.2 ⟨c, hc, hxc⟩)
  -- the fixed intervals of the register are the points at which the code names it
  have hfixed : (∀ i ∈ f.liveness.fixedIntervals, i.reg = r → ¬ i.overlaps ⟨v, x⟩) ↔
      ∀ q, f.liveness.Covers r q → ¬ x.contains q := by
    constructor
    · rintro hapart q ⟨y, hy, hyq⟩ hxq
      refine hapart ⟨r, y⟩ (Liveness.mem_fixedIntervals.2 ⟨hphys, hy⟩) rfl ?_
      exact (LiveRange.overlaps_iff_exists (hne y hy) (hwf.start_lt_stop hv hx)).2 ⟨q, hyq, hxq⟩
    · rintro hapart ⟨r', y⟩ hi rfl hov
      obtain ⟨-, hy⟩ := Liveness.mem_fixedIntervals.1 hi
      obtain ⟨q, hyq, hxq⟩ :=
        (LiveRange.overlaps_iff_exists (hne y hy) (hwf.start_lt_stop hv hx)).1 hov
      exact hapart q ⟨y, hy, hyq⟩ hxq
  rw [Scan.eligible_iff, hclass, hfixed, Idle]
  simp only [hwf.covers_iff hv hx, hpinned, h.entries_eq]
  constructor
  · rintro ⟨hcalls, hnames⟩ p hxp
    exact ⟨fun hp ↦ hcalls p hp hxp, fun e he hmem ↦ hnames p ⟨e, he, hmem⟩ hxp⟩
  · intro hidle
    refine ⟨fun c hc hxc ↦ (hidle c hxc).1 hc, ?_⟩
    rintro q ⟨e, he, hmem⟩ hxq
    exact (hidle q hxq).2 e he hmem

/-- A caller-saved register is the place of a virtual register only if it is idle. -/
theorem Tracked.idle_of_allocate (h : f.Tracked l) {rf : RegisterFile} (hrf : rf.Conventional)
    {a : Allocation} (ha : f.liveness.allocate rf = .ok a) {r v : Register}
    (hr : rf.isCallerSaved r) (hv : v.isVirtual) (hget : a.get? v = some r) : f.Idle r v := by
  intro p hp
  obtain ⟨x, hx, -⟩ := id hp
  have hel := Liveness.eligible_of_allocate h.liveness.wellFormed hrf ha hv
    (hrf.physical_of_caller hr) hget hx
  exact (h.eligible_iff_idle hrf hr hv hx).1 hel p hp

end Function

/-! ### Hidden registers are caller-saved -/

/-- A callee may use the registers that its arguments come in. -/
theorem TargetKind.isCallerSaved_of_mem_arguments (k : TargetKind) :
    ∀ r ∈ k.target.arguments, k.target.isCallerSaved r := by
  cases k <;> decide

/-- A division and a call hide only caller-saved registers. -/
theorem X86.isCallerSaved_of_implicitUses {i : Instruction X86.Opcode} {uses : List Register}
    (h : X86.implicitUses i = .ok uses) : ∀ r ∈ uses, X86.registerFile.isCallerSaved r := by
  have hdivision : ∀ r ∈ [rax, rdx], registerFile.isCallerSaved r := by decide
  rw [implicitUses] at h
  split at h
  · cases h
    exact hdivision
  · cases h
    exact hdivision
  · obtain ⟨n, -, huses⟩ := bind_eq_ok.1 h
    cases huses
    refine List.forall_mem_cons.2 ⟨hdivision rax (by simp), fun r hr ↦ ?_⟩
    exact TargetKind.x86.isCallerSaved_of_mem_arguments r (List.mem_of_mem_take hr)
  · cases h
    simp

/-- On RISC-V only a call hides registers. -/
theorem RiscV.isCallerSaved_of_implicitUses {i : Instruction RiscV.Opcode} {uses : List Register}
    (h : RiscV.implicitUses i = .ok uses) : ∀ r ∈ uses, RiscV.registerFile.isCallerSaved r := by
  rw [implicitUses] at h
  split at h
  · obtain ⟨n, -, huses⟩ := bind_eq_ok.1 h
    cases huses
    refine List.forall_mem_cons.2 ⟨by decide, fun r hr ↦ ?_⟩
    exact TargetKind.riscV.isCallerSaved_of_mem_arguments r
      (List.mem_of_mem_take (List.mem_of_mem_drop hr))
  · cases h
    simp

/-- **Registers that are used without being named are caller-saved.** -/
theorem TargetKind.isCallerSaved_of_implicitUses (k : TargetKind) {i : Instruction k.Opcode}
    {uses : List Register} (h : k.target.implicitUses i = .ok uses) {r : Register}
    (hr : r ∈ uses) : k.target.isCallerSaved r := by
  cases k with
  | x86 => exact X86.isCallerSaved_of_implicitUses h r hr
  | riscV => exact RiscV.isCallerSaved_of_implicitUses h r hr

namespace Session

/-! ### Hidden uses of an instruction -/

/-- **Hidden uses and allocation.** Let an instruction selector build a function on either machine,
with calls emitted as calls, and let it be compiled with any list of registers to hand out. Let `v`
be live at an instruction that uses `r` without naming it. At a call `v` does not live in `r`. At
another instruction it does not if its range holds a call or a mention of `r`; if there is neither,
then nothing stops the allocator: `r` is eligible for the range. -/
theorem compile_implicitUses (k : TargetKind) {allocatable : List Register} {name : String}
    {localBytes : Nat} {counter counter' : Counter}
    {emissions : List (Function.Emission k.Opcode)} {f : Function k.Opcode}
    (hf : Function.emitAll name localBytes counter emissions = .ok (f, counter'))
    (hemit : ∀ i, .emit i ∈ emissions → ¬ k.target.isCall i) {config : Config} {supply : Counter}
    {compiled : Compiled k.Opcode}
    (hcompile : (compile ⟨k.target.withAllocatable allocatable, config, supply⟩ f).result =
      .ok compiled)
    {p : Nat} {e : Handle × Instruction k.Opcode} (he : f.code.entries[p]? = some e)
    {uses : List Register} (huses : k.target.implicitUses e.2 = .ok uses) {v r : Register}
    (hv : v.isVirtual) (hlive : f.liveness.Covers v p) (hr : r ∈ uses) :
    (k.target.isCall e.2 ∨ ¬ f.Idle r v → compiled.allocation.get? v ≠ some r) ∧
    (f.Idle r v → ∀ x ∈ f.liveness.ranges v,
      Scan.eligible (k.target.withAllocatable allocatable).toRegisterFile
        f.liveness.fixedIntervals r ⟨v, x⟩) := by
  have hrf := k.conventional allocatable
  have htracked := Function.tracked_of_emitAll hf
  have hcaller : (k.target.withAllocatable allocatable).isCallerSaved r :=
    k.isCallerSaved_of_implicitUses huses hr
  obtain ⟨halloc, -⟩ := compile_eq_ok hcompile
  refine ⟨fun hguard hget ↦ ?_, fun hidle x hx ↦ ?_⟩
  · have hidle := htracked.idle_of_allocate hrf halloc hcaller hv hget
    rcases hguard with hcall | hbusy
    · -- a call is not emitted by itself, so there is a call on record at its point
      obtain ⟨l, hrec, hcalls⟩ := Function.recorded_of_emitAll hf
      have hl : l[p]? = some e := hrec.code.entries_eq ▸ he
      have hp := (hcalls p e hl).resolve_left fun hmem ↦ hemit _ hmem hcall
      exact (hidle p hlive).1 hp
    · exact hbusy hidle
  · exact (htracked.eligible_iff_idle hrf hcaller hv hx).2 hidle

/-- A division behind a mention of its dividend. The register that is live across it stays clear of
`rax`, which is named while it is live; nothing keeps the divisor off `rdx`. -/
theorem compile_implicitUses_dividend :
    let t := X86.target.withAllocatable X86.registerFile.allocatable
    let emissions : List (Function.Emission X86.Opcode) := [.newVirtual, .newVirtual, .newVirtual,
      .emit ⟨.mov, [.imm 1, .reg ⟨2147483648⟩]⟩, .emit ⟨.mov, [.imm 2, .reg ⟨2147483649⟩]⟩,
      .emit ⟨.mov, [.imm 3, .reg ⟨2147483650⟩]⟩, .emit ⟨.mov, [.imm 100, .reg X86.rax]⟩,
      .emit ⟨.cqto, []⟩, .emit ⟨.idiv, [.reg ⟨2147483650⟩]⟩,
      .emit ⟨.add, [.reg ⟨2147483648⟩, .reg X86.rax]⟩,
      .emit ⟨.add, [.reg ⟨2147483649⟩, .reg X86.rax]⟩]
    ∃ f counter compiled, Function.emitAll "f" 0 {} emissions = .ok (f, counter) ∧
      (compile ⟨t, {}, {}⟩ f).result = .ok compiled ∧
      compiled.allocation.get? ⟨2147483648⟩ ≠ some X86.rax ∧
      Scan.eligible t.toRegisterFile f.liveness.fixedIntervals X86.rdx
        ⟨⟨2147483650⟩, ⟨2, 6, false⟩⟩ := by
  intro t emissions
  let source : List (Handle × Instruction X86.Opcode) := [
    (0, ⟨.mov, [.imm 1, .reg ⟨2147483648⟩]⟩), (1, ⟨.mov, [.imm 2, .reg ⟨2147483649⟩]⟩),
    (2, ⟨.mov, [.imm 3, .reg ⟨2147483650⟩]⟩), (3, ⟨.mov, [.imm 100, .reg X86.rax]⟩),
    (4, ⟨.cqto, []⟩), (5, ⟨.idiv, [.reg ⟨2147483650⟩]⟩),
    (6, ⟨.add, [.reg ⟨2147483648⟩, .reg X86.rax]⟩),
    (7, ⟨.add, [.reg ⟨2147483649⟩, .reg X86.rax]⟩)]
  have hrun : (Function.emitAll "f" 0 {} emissions).toOption.map (fun b ↦ (b.1.code.entries,
      (b.1.liveness.ranges ⟨2147483648⟩, b.1.liveness.ranges ⟨2147483650⟩),
      (compile ⟨t, {}, {}⟩ b.1).result.toOption.map fun _ ↦ b.1.liveness.calls)) =
      some (source, ([⟨0, 7, false⟩], [⟨2, 6, false⟩]), some []) := by decide
  obtain ⟨⟨f, counter⟩, hf, hrun⟩ := Option.map_eq_some_iff.1 hrun
  obtain ⟨hentries, hrun⟩ : f.code.entries = source ∧ _ := Prod.mk.inj hrun
  obtain ⟨hranges, hrun⟩ := Prod.mk.inj hrun
  obtain ⟨hfirst, hdivisor⟩ := Prod.mk.inj hranges
  obtain ⟨compiled, hcompile, hcalls⟩ := Option.map_eq_some_iff.1 hrun
  rw [toOption_eq_some] at hf hcompile
  have hemit : ∀ i, .emit i ∈ emissions → ¬ X86.target.isCall i := by
    intro i hi
    simp only [emissions, List.mem_cons, Function.Emission.emit.injEq, reduceCtorEq, false_or,
      List.not_mem_nil, or_false] at hi
    rcases hi with rfl | rfl | rfl | rfl | rfl | rfl | rfl | rfl <;> decide
  have hcqto : f.code.entries[4]? = some (4, ⟨.cqto, []⟩) := by rw [hentries]; rfl
  have hlive : ∀ p, p < 7 → f.liveness.Covers ⟨2147483648⟩ p := by
    intro p hp
    exact ⟨_, hfirst ▸ List.mem_singleton.2 rfl, LiveRange.contains_iff.2 ⟨Nat.zero_le p, hp⟩⟩
  have hlive' : ∀ p, f.liveness.Covers ⟨2147483650⟩ p ↔ 2 ≤ p ∧ p < 6 := by
    intro p
    rw [Liveness.Covers, hdivisor]
    simp [LiveRange.contains]
  obtain ⟨hspared, -⟩ := compile_implicitUses .x86 hf hemit hcompile hcqto rfl
    (show Register.isVirtual ⟨2147483648⟩ by decide) (hlive 4 (by decide))
    (show X86.rax ∈ [X86.rax, X86.rdx] by decide)
  obtain ⟨-, hfree⟩ := compile_implicitUses .x86 hf hemit hcompile hcqto rfl
    (show Register.isVirtual ⟨2147483650⟩ by decide) ((hlive' 4).2 (by decide))
    (show X86.rdx ∈ [X86.rax, X86.rdx] by decide)
  have hidle : f.Idle X86.rdx ⟨2147483650⟩ := by
    intro p hp
    rw [hlive'] at hp
    rw [show f.liveness.calls = [] from hcalls, hentries]
    refine ⟨List.not_mem_nil, ?_⟩
    obtain rfl | rfl | rfl | rfl : p = 2 ∨ p = 3 ∨ p = 4 ∨ p = 5 := by omega
    all_goals
      intro e he
      cases he
      decide
  refine ⟨f, counter, compiled, hf, hcompile, hspared (Or.inr fun hidle ↦ ?_), hfree hidle _ ?_⟩
  · have hthree : f.code.entries[3]? = some (3, ⟨.mov, [.imm 100, .reg X86.rax]⟩) := by
      rw [hentries]
      rfl
    exact (hidle 3 (hlive 3 (by decide))).2 _ hthree (by decide)
  · rw [hdivisor]
    exact List.mem_singleton.2 rfl

/-- A divisor in `rdx`: the instruction before the division writes the register, and the divisor is
lost. -/
theorem compile_gives_implicit_register :
    let emissions : List (Function.Emission X86.Opcode) := [.newVirtual, .newVirtual, .newVirtual,
      .emit ⟨.mov, [.imm 1, .reg ⟨2147483648⟩]⟩, .emit ⟨.mov, [.imm 2, .reg ⟨2147483649⟩]⟩,
      .emit ⟨.mov, [.imm 3, .reg ⟨2147483650⟩]⟩, .emit ⟨.mov, [.imm 100, .reg X86.rax]⟩,
      .emit ⟨.cqto, []⟩, .emit ⟨.idiv, [.reg ⟨2147483650⟩]⟩,
      .emit ⟨.add, [.reg ⟨2147483648⟩, .reg X86.rax]⟩,
      .emit ⟨.add, [.reg ⟨2147483649⟩, .reg X86.rax]⟩]
    ∃ f counter compiled, Function.emitAll "f" 0 {} emissions = .ok (f, counter) ∧
      (compile ⟨X86.target, {}, {}⟩ f).result = .ok compiled ∧
      (∃ h, f.code.entries[4]? = some (h, ⟨.cqto, []⟩)) ∧
      X86.target.implicitUses ⟨.cqto, []⟩ = .ok [X86.rax, X86.rdx] ∧
      f.liveness.Covers ⟨2147483650⟩ 4 ∧ compiled.allocation.get? ⟨2147483650⟩ = some X86.rdx := by
  intro emissions
  have hrun : (Function.emitAll "f" 0 {} emissions).toOption.map (fun b ↦ (b.1.code.entries[4]?,
      b.1.liveness.ranges ⟨2147483650⟩, (compile ⟨X86.target, {}, {}⟩ b.1).result.toOption.map
        fun c ↦ c.allocation.get? ⟨2147483650⟩)) =
      some (some (4, ⟨.cqto, []⟩), [⟨2, 6, false⟩], some (some X86.rdx)) := by decide
  obtain ⟨⟨f, counter⟩, hf, hrun⟩ := Option.map_eq_some_iff.1 hrun
  obtain ⟨hcqto, hrun⟩ := Prod.mk.inj hrun
  obtain ⟨hranges, hrun⟩ := Prod.mk.inj hrun
  obtain ⟨compiled, hcompile, hplace⟩ := Option.map_eq_some_iff.1 hrun
  rw [toOption_eq_some] at hf hcompile
  refine ⟨f, counter, compiled, hf, hcompile, ⟨4, hcqto⟩, rfl, ?_, hplace⟩
  exact ⟨_, hranges ▸ List.mem_singleton.2 rfl, by decide⟩

/-! ### Argument registers -/

/-- **Argument registers up to the call.** Let a call with `count` arguments be emitted behind the
function `g`, let `r` be one of its argument registers and `p` the last point before the call whose
instruction names `r`; let `v` be live strictly between the two. If `v` is also live at `p` or
before it, at the call or behind it, or at some call, then it does not live in `r`. A register that
is live strictly between the two only, and across no call, is one that `r` is eligible for. -/
theorem compile_arguments (k : TargetKind) {allocatable : List Register} {name : String}
    {localBytes : Nat} {counter counter₁ counter₂ : Counter}
    {before after : List (Function.Emission k.Opcode)} {opcode : k.Opcode} {callee : Operand}
    {count : Nat} {g f : Function k.Opcode}
    (hg : Function.emitAll name localBytes counter before = .ok (g, counter₁))
    (hf : Function.emitAll name localBytes counter
      (before ++ .emitCall opcode callee count :: after) = .ok (f, counter₂))
    {config : Config} {supply : Counter} {compiled : Compiled k.Opcode}
    (hcompile : (compile ⟨k.target.withAllocatable allocatable, config, supply⟩ f).result =
      .ok compiled)
    {r : Register} (hr : r ∈ k.target.arguments.take count) {p : Nat}
    {e : Handle × Instruction k.Opcode} (he : f.code.entries[p]? = some e)
    (hnamed : r ∈ e.2.registers)
    (hlast : ∀ m, p < m → m < g.point → ∀ e', f.code.entries[m]? = some e' → r ∉ e'.2.registers)
    {v : Register} (hv : v.isVirtual) {m : Nat} (hpm : p < m) (hmq : m < g.point)
    (hlive : f.liveness.Covers v m) :
    ((∃ n, f.liveness.Covers v n ∧ (n ≤ p ∨ g.point ≤ n ∨ n ∈ f.liveness.calls)) →
      compiled.allocation.get? v ≠ some r) ∧
    ((∀ n, f.liveness.Covers v n → p < n ∧ n < g.point ∧ n ∉ f.liveness.calls) →
      ∀ x ∈ f.liveness.ranges v,
        Scan.eligible (k.target.withAllocatable allocatable).toRegisterFile
          f.liveness.fixedIntervals r ⟨v, x⟩) := by
  have hrf := k.conventional allocatable
  have htracked := Function.tracked_of_emitAll hf
  have hwf := htracked.liveness.wellFormed
  have hcaller : (k.target.withAllocatable allocatable).isCallerSaved r :=
    k.isCallerSaved_of_mem_arguments r (List.mem_of_mem_take hr)
  obtain ⟨halloc, -⟩ := compile_eq_ok hcompile
  refine ⟨?_, fun hinside x hx ↦ ?_⟩
  · rintro ⟨n, hn, hout⟩ hget
    have hidle := htracked.idle_of_allocate hrf halloc hcaller hv hget
    -- a live range is an interval, so it contains the last use or the call if it reaches beyond
    rcases hout with hnp | hqn | hcall
    · have hp := hwf.covers_between hv hn hlive hnp (Nat.le_of_lt hpm)
      exact (hidle p hp).2 e he hnamed
    · have hq := hwf.covers_between hv hlive hn (Nat.le_of_lt hmq) hqn
      exact (hidle _ hq).1 (Function.point_mem_calls_of_emitAll hg hf)
    · exact (hidle n hn).1 hcall
  · refine (htracked.eligible_iff_idle hrf hcaller hv hx).2 fun n hn ↦ ?_
    obtain ⟨hpn, hnq, hcall⟩ := hinside n hn
    exact ⟨hcall, hlast n hpn hnq⟩

/-- A temporary and a value across the call, between the first argument and the call: the value
stays clear of `rdi`, the temporary need not. -/
theorem compile_arguments_temporary :
    let t := X86.target.withAllocatable X86.registerFile.allocatable
    let before : List (Function.Emission X86.Opcode) := [.newVirtual, .newVirtual,
      .emit ⟨.mov, [.imm 1, .reg X86.rdi]⟩, .emit ⟨.mov, [.imm 2, .reg ⟨2147483648⟩]⟩,
      .emit ⟨.mov, [.imm 3, .reg ⟨2147483649⟩]⟩,
      .emit ⟨.add, [.reg ⟨2147483648⟩, .reg ⟨2147483649⟩]⟩,
      .emit ⟨.mov, [.reg ⟨2147483649⟩, .reg X86.rsi]⟩]
    let emissions := before ++ .emitCall .call (.label "g") 2 ::
      [.emit ⟨.push, [.reg ⟨2147483648⟩]⟩]
    ∃ f counter compiled, Function.emitAll "f" 0 {} emissions = .ok (f, counter) ∧
      (compile ⟨t, {}, {}⟩ f).result = .ok compiled ∧
      compiled.allocation.get? ⟨2147483648⟩ ≠ some X86.rdi ∧
      Scan.eligible t.toRegisterFile f.liveness.fixedIntervals X86.rdi
        ⟨⟨2147483649⟩, ⟨2, 5, false⟩⟩ := by
  intro t before emissions
  let source : List (Handle × Instruction X86.Opcode) := [
    (0, ⟨.mov, [.imm 1, .reg X86.rdi]⟩), (1, ⟨.mov, [.imm 2, .reg ⟨2147483648⟩]⟩),
    (2, ⟨.mov, [.imm 3, .reg ⟨2147483649⟩]⟩),
    (3, ⟨.add, [.reg ⟨2147483648⟩, .reg ⟨2147483649⟩]⟩),
    (4, ⟨.mov, [.reg ⟨2147483649⟩, .reg X86.rsi]⟩), (5, ⟨.call, [.label "g", .imm 2]⟩),
    (6, ⟨.push, [.reg ⟨2147483648⟩]⟩)]
  have hpoint : (Function.emitAll "f" 0 {} before).toOption.map (·.1.point) = some 5 := by decide
  have hrun : (Function.emitAll "f" 0 {} emissions).toOption.map (fun b ↦ (b.1.code.entries,
      (b.1.liveness.ranges ⟨2147483648⟩, b.1.liveness.ranges ⟨2147483649⟩),
      (compile ⟨t, {}, {}⟩ b.1).result.toOption.map fun _ ↦ b.1.liveness.calls)) =
      some (source, ([⟨1, 7, true⟩], [⟨2, 5, false⟩]), some [5]) := by decide
  obtain ⟨⟨g, counter₁⟩, hg, hpoint⟩ := Option.map_eq_some_iff.1 hpoint
  obtain ⟨⟨f, counter⟩, hf, hrun⟩ := Option.map_eq_some_iff.1 hrun
  obtain ⟨hentries, hrun⟩ : f.code.entries = source ∧ _ := Prod.mk.inj hrun
  obtain ⟨hranges, hrun⟩ := Prod.mk.inj hrun
  obtain ⟨hacross, htemporary⟩ := Prod.mk.inj hranges
  obtain ⟨compiled, hcompile, hcalls⟩ := Option.map_eq_some_iff.1 hrun
  rw [toOption_eq_some] at hg hf hcompile
  replace hpoint : g.point = 5 := hpoint
  have hzero : f.code.entries[0]? = some (0, ⟨.mov, [.imm 1, .reg X86.rdi]⟩) := by
    rw [hentries]
    rfl
  have hlast : ∀ m, 0 < m → m < g.point → ∀ e', f.code.entries[m]? = some e' →
      X86.rdi ∉ e'.2.registers := by
    rw [hpoint, hentries]
    intro m hpm hmq
    obtain rfl | rfl | rfl | rfl : m = 1 ∨ m = 2 ∨ m = 3 ∨ m = 4 := by omega
    all_goals
      intro e he
      cases he
      decide
  have hlive : ∀ p, f.liveness.Covers ⟨2147483648⟩ p ↔ 1 ≤ p ∧ p < 7 := by
    intro p
    rw [Liveness.Covers, hacross]
    simp [LiveRange.contains]
  have hlive' : ∀ p, f.liveness.Covers ⟨2147483649⟩ p ↔ 2 ≤ p ∧ p < 5 := by
    intro p
    rw [Liveness.Covers, htemporary]
    simp [LiveRange.contains]
  have hbefore : 3 < g.point := by
    rw [hpoint]
    decide
  have hinside : ∀ n, f.liveness.Covers ⟨2147483649⟩ n →
      0 < n ∧ n < g.point ∧ n ∉ f.liveness.calls := by
    intro n hn
    rw [hlive'] at hn
    rw [hpoint, show f.liveness.calls = [5] from hcalls, List.mem_singleton]
    omega
  have hrdi : X86.rdi ∈ X86.target.arguments.take 2 := by decide
  obtain ⟨hspared, -⟩ := compile_arguments .x86 hg hf hcompile hrdi hzero (by decide) hlast
    (show Register.isVirtual ⟨2147483648⟩ by decide) (show 0 < 3 by decide)
    hbefore ((hlive 3).2 (by decide))
  obtain ⟨-, hfree⟩ := compile_arguments .x86 hg hf hcompile hrdi hzero (by decide) hlast
    (show Register.isVirtual ⟨2147483649⟩ by decide) (show 0 < 3 by decide)
    hbefore ((hlive' 3).2 (by decide))
  refine ⟨f, counter, compiled, hf, hcompile, hspared ⟨5, (hlive 5).2 (by decide), ?_⟩,
    hfree hinside _ ?_⟩
  · exact Or.inr (Or.inl (Nat.le_of_eq hpoint))
  · rw [htemporary]
    exact List.mem_singleton.2 rfl

/-- A temporary in `rdi`, between the first argument and the call: the argument is lost. -/
theorem compile_overwrites_argument :
    let emissions : List (Function.Emission X86.Opcode) := [.newVirtual, .newVirtual,
      .emit ⟨.mov, [.imm 1, .reg X86.rdi]⟩, .emit ⟨.mov, [.imm 2, .reg ⟨2147483648⟩]⟩,
      .emit ⟨.mov, [.imm 3, .reg ⟨2147483649⟩]⟩,
      .emit ⟨.add, [.reg ⟨2147483648⟩, .reg ⟨2147483649⟩]⟩,
      .emit ⟨.mov, [.reg ⟨2147483649⟩, .reg X86.rsi]⟩, .emitCall .call (.label "g") 2]
    ∃ f counter compiled, Function.emitAll "f" 0 {} emissions = .ok (f, counter) ∧
      (compile ⟨X86.target, {}, {}⟩ f).result = .ok compiled ∧
      X86.rdi ∈ X86.target.arguments.take 2 ∧
      f.code.entries.map (·.2) = [⟨.mov, [.imm 1, .reg X86.rdi]⟩,
        ⟨.mov, [.imm 2, .reg ⟨2147483648⟩]⟩, ⟨.mov, [.imm 3, .reg ⟨2147483649⟩]⟩,
        ⟨.add, [.reg ⟨2147483648⟩, .reg ⟨2147483649⟩]⟩,
        ⟨.mov, [.reg ⟨2147483649⟩, .reg X86.rsi]⟩, ⟨.call, [.label "g", .imm 2]⟩] ∧
      f.liveness.Covers ⟨2147483649⟩ 3 ∧ compiled.allocation.get? ⟨2147483649⟩ = some X86.rdi := by
  intro emissions
  have hrun : (Function.emitAll "f" 0 {} emissions).toOption.map (fun b ↦ (
      b.1.code.entries.map (·.2), b.1.liveness.ranges ⟨2147483649⟩,
      (compile ⟨X86.target, {}, {}⟩ b.1).result.toOption.map
        fun c ↦ c.allocation.get? ⟨2147483649⟩)) =
      some ([⟨.mov, [.imm 1, .reg X86.rdi]⟩, ⟨.mov, [.imm 2, .reg ⟨2147483648⟩]⟩,
        ⟨.mov, [.imm 3, .reg ⟨2147483649⟩]⟩, ⟨.add, [.reg ⟨2147483648⟩, .reg ⟨2147483649⟩]⟩,
        ⟨.mov, [.reg ⟨2147483649⟩, .reg X86.rsi]⟩, ⟨.call, [.label "g", .imm 2]⟩],
        [⟨2, 5, false⟩], some (some X86.rdi)) := by decide
  obtain ⟨⟨f, counter⟩, hf, hrun⟩ := Option.map_eq_some_iff.1 hrun
  obtain ⟨hcode, hrun⟩ := Prod.mk.inj hrun
  obtain ⟨hranges, hrun⟩ := Prod.mk.inj hrun
  obtain ⟨compiled, hcompile, hplace⟩ := Option.map_eq_some_iff.1 hrun
  rw [toOption_eq_some] at hf hcompile
  refine ⟨f, counter, compiled, hf, hcompile, by decide, hcode, ?_, hplace⟩
  exact ⟨_, hranges ▸ List.mem_singleton.2 rfl, by decide⟩

end Session

end MachineCode

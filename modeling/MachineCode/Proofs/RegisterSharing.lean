import MachineCode.Proofs.ControlFlow
import MachineCode.Proofs.FixedRanges
import MachineCode.Proofs.Interference
import MachineCode.Proofs.LoweredCode
import Mathlib.Data.List.Chain

/-!
# Sharing a register along the paths of control

The range of a virtual register goes from its first to its last mention in the order of the code,
and registers whose ranges do not overlap may share a place. Control does not follow the order of
the code: around a loop, a value can be wanted at points that lie outside its range, and there
another register may be written to the same place.

`Flow.Carries` is a value on its way: a path of control from an instruction that writes `v` to one
that reads it, with no other write to `v` between. `Session.compile_sharing` says when the value
survives: where `v` is live by its range; on a path that never goes back; and on every path, if
control comes into the range of `v` only where `v` is written anew.
-/

namespace MachineCode

namespace Flow

variable {Op : Type}

/-- The registers that are read at a position of the code. -/
def readsAt (flow : Flow Op) (code : List (Handle × Instruction Op)) (p : Nat) : List Register :=
  (code[p]?.map fun e ↦ flow.reads e.2).getD []

/-- The registers that are written at a position of the code. -/
def writesAt (flow : Flow Op) (code : List (Handle × Instruction Op)) (p : Nat) : List Register :=
  (code[p]?.map fun e ↦ flow.writes e.2).getD []

/-- Control goes from `p` through the points `mid` to `q`, and takes along what is written to `v` at
`p`, to be read at `q`. -/
structure Carries (flow : Flow Op) (code : List (Handle × Instruction Op)) (v : Register)
    (p : Nat) (mid : List Nat) (q : Nat) : Prop where
  path : (p :: mid ++ [q]).IsChain fun s t ↦ flow.leads code s t
  written : v ∈ flow.writesAt code p
  read : v ∈ flow.readsAt code q
  kept : ∀ m ∈ mid, v ∉ flow.writesAt code m

/-- What is written at the point is new: the old value is not read. -/
def WritesAnew (flow : Flow Op) (code : List (Handle × Instruction Op)) (v : Register)
    (p : Nat) : Prop :=
  v ∈ flow.writesAt code p ∧ v ∉ flow.readsAt code p

theorem exists_of_mem_at {code : List (Handle × Instruction Op)} {v : Register} {p : Nat}
    {g : Instruction Op → List Register} (h : v ∈ (code[p]?.map fun e ↦ g e.2).getD []) :
    ∃ e, code[p]? = some e ∧ v ∈ g e.2 := by
  cases he : code[p]? with
  | none => simp [he] at h
  | some e =>
    rw [he] at h
    exact ⟨e, rfl, h⟩

/-- A register that is read at a point is named there. -/
theorem exists_of_mem_readsAt {flow : Flow Op} {code : List (Handle × Instruction Op)}
    {v : Register} {p : Nat} (h : v ∈ flow.readsAt code p) :
    ∃ e, code[p]? = some e ∧ v ∈ e.2.registers :=
  (exists_of_mem_at h).imp fun _ he ↦ ⟨he.1, reads_subset he.2⟩

theorem exists_of_mem_writesAt {flow : Flow Op} {code : List (Handle × Instruction Op)}
    {v : Register} {p : Nat} (h : v ∈ flow.writesAt code p) :
    ∃ e, code[p]? = some e ∧ v ∈ e.2.registers :=
  (exists_of_mem_at h).imp fun _ he ↦ ⟨he.1, writes_subset he.2⟩

/-! ### Coming into a range -/

/-- A path that starts outside and ends inside has a step from outside to inside. -/
theorem exists_entry {R : Nat → Nat → Prop} {P : Nat → Prop} {n q : Nat} {rest : List Nat}
    (hpath : (n :: rest ++ [q]).IsChain R) (hn : ¬ P n) (hq : P q) :
    ∃ s t, R s t ∧ ¬ P s ∧ P t ∧ t ∈ rest ++ [q] := by
  induction rest generalizing n with
  | nil =>
    have hstep := (List.isChain_cons_cons.1 hpath).1
    exact ⟨n, q, hstep, hn, hq, by simp⟩
  | cons m rest ih =>
    obtain ⟨hstep, hrest⟩ := List.isChain_cons_cons.1 hpath
    by_cases hm : P m
    · exact ⟨n, m, hstep, hn, hm, by simp⟩
    · obtain ⟨s, t, hst, hs, ht, hmem⟩ := ih hrest hm
      exact ⟨s, t, hst, hs, ht, List.mem_cons_of_mem _ hmem⟩

variable {flow : Flow Op} {code : List (Handle × Instruction Op)} {v : Register} {p q n : Nat}
  {mid : List Nat}

/-- On the way to its read a value does not leave a set of points that contains the read and that
control comes into only where the register is written anew. -/
theorem Carries.inside (h : flow.Carries code v p mid q) {P : Nat → Prop} (hq : P q)
    (hentry : ∀ s t, flow.leads code s t → ¬ P s → P t → flow.WritesAnew code v t) (hn : n ∈ mid) :
    P n := by
  by_contra hout
  obtain ⟨front, back, rfl⟩ := List.append_of_mem hn
  have hpath : (n :: back ++ [q]).IsChain fun s t ↦ flow.leads code s t := by
    have hsplit : p :: (front ++ n :: back) ++ [q] = (p :: front) ++ (n :: back ++ [q]) := by simp
    have hall := h.path
    rw [hsplit] at hall
    exact (List.isChain_append.1 hall).2.1
  obtain ⟨s, t, hst, hs, ht, hmem⟩ := exists_entry hpath hout hq
  obtain ⟨hwrite, hread⟩ := hentry s t hst hs ht
  rcases List.mem_append.1 hmem with hmem | hmem
  · exact h.kept t (by simp [hmem]) hwrite
  · rcases List.mem_singleton.1 hmem with rfl
    exact hread h.read

/-- A path that never goes back has its points between its ends. -/
theorem between_of_forward (h : (p :: mid ++ [q]).IsChain (· < ·)) (hn : n ∈ mid) :
    p < n ∧ n < q := by
  have hpair := List.isChain_iff_pairwise.1 h
  rw [List.cons_append, List.pairwise_cons, List.pairwise_append] at hpair
  exact ⟨hpair.1 n (List.mem_append_left _ hn), hpair.2.2.2 n hn q (by simp)⟩

end Flow

/-! ### Compiled functions -/

/-- A virtual register that is named at a point is live there. -/
theorem Function.Tracked.covers_of_named {Op : Type} {f : Function Op}
    (h : f.Tracked f.code.entries) {v : Register} (hv : v.isVirtual) {p : Nat}
    (hp : ∃ e, f.code.entries[p]? = some e ∧ v ∈ e.2.registers) : f.liveness.Covers v p := by
  obtain ⟨e, he, hmem⟩ := hp
  exact h.covers p e he v hmem hv

/-- **Sharing along paths of control.** Let an instruction selector build a function on either
machine, with jumps and labels as it likes, and let it be compiled with any list of registers to
hand out. Let a path of control carry a value of `v`, and let another virtual register be written on
the way. It does not live in the physical register of `v`

* if `v` is live at that point by its range, or
* if the path never goes back, or
* if control comes into the range of `v` only where `v` is written anew. -/
theorem Session.compile_sharing (k : TargetKind) {allocatable : List Register} {name : String}
    {localBytes : Nat} {counter counter' : Counter}
    {emissions : List (Function.Emission k.Opcode)} {f : Function k.Opcode}
    (hf : Function.emitAll name localBytes counter emissions = .ok (f, counter'))
    {config : Config} {supply : Counter} {compiled : Compiled k.Opcode}
    (hcompile : (compile ⟨k.target.withAllocatable allocatable, config, supply⟩ f).result =
      .ok compiled)
    {v : Register} (hv : v.isVirtual) {p q n : Nat} {mid : List Nat}
    (hcarries : k.flow.Carries f.code.entries v p mid q) (hn : n ∈ mid)
    (hsafe : f.liveness.Covers v n ∨ (p :: mid ++ [q]).IsChain (· < ·) ∨
      ∀ s t, k.flow.leads f.code.entries s t → ¬ f.liveness.Covers v s → f.liveness.Covers v t →
        k.flow.WritesAnew f.code.entries v t)
    {w : Register} (hw : w.isVirtual) (hne : w ≠ v)
    (hwritten : w ∈ k.flow.writesAt f.code.entries n)
    {r : Register} (hr : r.isPhysical) (hplace : compiled.allocation.get? v = some r) :
    compiled.allocation.get? w ≠ some r := by
  have htracked := Function.tracked_of_emitAll hf
  have hwf := htracked.liveness.wellFormed
  obtain ⟨halloc, -⟩ := compile_eq_ok hcompile
  have hfree := Liveness.interferenceFree_of_allocate hwf (k.conventional allocatable) halloc
  have hread : f.liveness.Covers v q :=
    htracked.covers_of_named hv (Flow.exists_of_mem_readsAt hcarries.read)
  -- in each of the three cases the other register is written inside the range
  have hlive : f.liveness.Covers v n := by
    rcases hsafe with hlive | hforward | hentry
    · exact hlive
    · have hwrite : f.liveness.Covers v p :=
        htracked.covers_of_named hv (Flow.exists_of_mem_writesAt hcarries.written)
      obtain ⟨hpn, hnq⟩ := Flow.between_of_forward hforward hn
      exact hwf.covers_between hv hwrite hread (Nat.le_of_lt hpn) (Nat.le_of_lt hnq)
    · exact hcarries.inside hread hentry hn
  obtain ⟨x, hx, hxn⟩ := hlive
  obtain ⟨y, hy, hyn⟩ := htracked.covers_of_named hw (Flow.exists_of_mem_writesAt hwritten)
  rw [LiveRange.contains_iff] at hxn hyn
  exact hfree.virtual v w hv hw hne.symm x hx y hy
    (LiveRange.overlaps_iff.2 ⟨by omega, by omega⟩) r hr hplace

/-- A loop that uses its first register at the end of its body: around the loop that register is
live where the other one is written, and the two live in different places. -/
theorem Session.compile_sharing_loop :
    let t := X86.target.withAllocatable X86.registerFile.allocatable
    let emissions : List (Function.Emission X86.Opcode) := [.newVirtual, .newVirtual,
      .emit ⟨.mov, [.imm 1, .reg ⟨2147483648⟩]⟩, .emit ⟨.label, [.label "L"]⟩,
      .emit ⟨.mov, [.memory 16 X86.rbp, .reg ⟨2147483649⟩]⟩,
      .emit ⟨.cmp, [.imm 0, .reg ⟨2147483649⟩]⟩,
      .emit ⟨.mov, [.reg ⟨2147483648⟩, .memory 24 X86.rbp]⟩, .emit ⟨.jne, [.label "L"]⟩]
    ∃ f counter compiled, Function.emitAll "f" 0 {} emissions = .ok (f, counter) ∧
      (compile ⟨t, {}, {}⟩ f).result = .ok compiled ∧
      X86.flow.Carries f.code.entries ⟨2147483648⟩ 0 [1, 2, 3, 4, 5, 1, 2, 3] 4 ∧
      compiled.allocation.get? ⟨2147483648⟩ = some X86.rax ∧
      compiled.allocation.get? ⟨2147483649⟩ ≠ some X86.rax := by
  intro t emissions
  let source : List (Handle × Instruction X86.Opcode) := [
    (0, ⟨.mov, [.imm 1, .reg ⟨2147483648⟩]⟩), (1, ⟨.label, [.label "L"]⟩),
    (2, ⟨.mov, [.memory 16 X86.rbp, .reg ⟨2147483649⟩]⟩),
    (3, ⟨.cmp, [.imm 0, .reg ⟨2147483649⟩]⟩),
    (4, ⟨.mov, [.reg ⟨2147483648⟩, .memory 24 X86.rbp]⟩), (5, ⟨.jne, [.label "L"]⟩)]
  have hrun : (Function.emitAll "f" 0 {} emissions).toOption.map (fun b ↦ (b.1.code.entries,
      b.1.liveness.ranges ⟨2147483648⟩, (compile ⟨t, {}, {}⟩ b.1).result.toOption.map
        fun c ↦ c.allocation.get? ⟨2147483648⟩)) =
      some (source, [⟨0, 5, false⟩], some (some X86.rax)) := by decide
  obtain ⟨⟨f, counter⟩, hf, hrun⟩ := Option.map_eq_some_iff.1 hrun
  obtain ⟨hentries, hrun⟩ : f.code.entries = source ∧ _ := Prod.mk.inj hrun
  obtain ⟨hranges, hrun⟩ := Prod.mk.inj hrun
  obtain ⟨compiled, hcompile, hplace⟩ := Option.map_eq_some_iff.1 hrun
  rw [toOption_eq_some] at hf hcompile
  have hcarries : X86.flow.Carries f.code.entries ⟨2147483648⟩ 0 [1, 2, 3, 4, 5, 1, 2, 3] 4 := by
    rw [hentries]
    exact ⟨by decide, by decide, by decide, by decide⟩
  have hlive : f.liveness.Covers ⟨2147483648⟩ 2 :=
    ⟨_, hranges ▸ List.mem_singleton.2 rfl, by decide⟩
  have hwritten : (⟨2147483649⟩ : Register) ∈ X86.flow.writesAt f.code.entries 2 := by
    rw [hentries]
    decide
  have hapart := compile_sharing .x86 hf hcompile (by decide) hcarries (by decide) (Or.inl hlive)
    (by decide) (by decide) hwritten (show X86.rax.isPhysical by decide) hplace
  exact ⟨f, counter, compiled, hf, hcompile, hcarries, hplace, hapart⟩

/-- A loop that uses its first register at the start of its body: the other register is written
behind the range of the first one, to the same place, and after one round the value is lost. -/
theorem Session.compile_shares_around_loop :
    let emissions : List (Function.Emission X86.Opcode) := [.newVirtual, .newVirtual,
      .emit ⟨.mov, [.imm 1, .reg ⟨2147483648⟩]⟩, .emit ⟨.label, [.label "L"]⟩,
      .emit ⟨.mov, [.reg ⟨2147483648⟩, .memory 24 X86.rbp]⟩,
      .emit ⟨.mov, [.memory 16 X86.rbp, .reg ⟨2147483649⟩]⟩,
      .emit ⟨.cmp, [.imm 0, .reg ⟨2147483649⟩]⟩, .emit ⟨.jne, [.label "L"]⟩]
    ∃ f counter compiled, Function.emitAll "f" 0 {} emissions = .ok (f, counter) ∧
      (compile ⟨X86.target, {}, {}⟩ f).result = .ok compiled ∧
      X86.flow.Carries f.code.entries ⟨2147483648⟩ 0 [1, 2, 3, 4, 5, 1] 2 ∧
      ⟨2147483649⟩ ∈ X86.flow.writesAt f.code.entries 3 ∧
      compiled.allocation.get? ⟨2147483648⟩ = some X86.rax ∧
      compiled.allocation.get? ⟨2147483649⟩ = some X86.rax := by
  intro emissions
  let source : List (Handle × Instruction X86.Opcode) := [
    (0, ⟨.mov, [.imm 1, .reg ⟨2147483648⟩]⟩), (1, ⟨.label, [.label "L"]⟩),
    (2, ⟨.mov, [.reg ⟨2147483648⟩, .memory 24 X86.rbp]⟩),
    (3, ⟨.mov, [.memory 16 X86.rbp, .reg ⟨2147483649⟩]⟩),
    (4, ⟨.cmp, [.imm 0, .reg ⟨2147483649⟩]⟩), (5, ⟨.jne, [.label "L"]⟩)]
  have hrun : (Function.emitAll "f" 0 {} emissions).toOption.map (fun b ↦ (b.1.code.entries,
      (compile ⟨X86.target, {}, {}⟩ b.1).result.toOption.map fun c ↦
        (c.allocation.get? ⟨2147483648⟩, c.allocation.get? ⟨2147483649⟩))) =
      some (source, some (some X86.rax, some X86.rax)) := by decide
  obtain ⟨⟨f, counter⟩, hf, hrun⟩ := Option.map_eq_some_iff.1 hrun
  obtain ⟨hentries, hrun⟩ : f.code.entries = source ∧ _ := Prod.mk.inj hrun
  obtain ⟨compiled, hcompile, hplaces⟩ := Option.map_eq_some_iff.1 hrun
  obtain ⟨hfirst, hsecond⟩ := Prod.mk.inj hplaces
  rw [toOption_eq_some] at hf hcompile
  refine ⟨f, counter, compiled, hf, hcompile, ?_, ?_, hfirst, hsecond⟩
  · rw [hentries]
    exact ⟨by decide, by decide, by decide, by decide⟩
  · rw [hentries]
    decide

end MachineCode

import MachineCode.Proofs.CompileOutcome
import MachineCode.Proofs.Relabeling

/-!
# Compiling relabelled functions

Two functions that differ only in the labels of their virtual registers are compiled to the same
text, or neither is compiled. The allocator gives a register and its new label the same place
(`Liveness.Relabeled.allocate`), so what is left of the difference after assignment is in the
labels of the spilled registers (`Function.Relabeled.assign`). Their loans are the same
(`Relabeling.loans`), and once the lent registers are put in no label is left: from there on both
functions have the same instructions (`Function.SameText`).

The two runs need not use the same handles, so code is compared by the instructions that it stands
for.
-/

namespace MachineCode

variable {D : Register → Prop} {σ : Register → Register} {Op : Type} {t : Target Op}
  {a a' : Allocation} {f f' : Function Op}

/-! ### Building -/

/-- The two functions differ in the labels of their virtual registers. -/
structure Function.Relabeled (D : Register → Prop) (σ : Register → Register)
    (f f' : Function Op) : Prop where
  name_eq : f'.name = f.name
  localBytes_eq : f'.localBytes = f.localBytes
  code : ∃ l l', f.code.Represents l ∧ f'.code.Represents l' ∧
    List.Forall₂ (fun e e' ↦ e'.2 = e.2.mapRegisters σ) l l'
  liveness : f.liveness.Relabeled D σ f'.liveness

namespace Function

theorem relabeled_empty (name : String) (localBytes : Nat) :
    Relabeled D σ ({ name, localBytes } : Function Op) { name, localBytes } where
  name_eq := rfl
  localBytes_eq := rfl
  code := ⟨[], [], Code.represents_empty, Code.represents_empty, .nil⟩
  liveness := ⟨RegisterMap.relabeled_empty, rfl⟩

theorem Relabeled.point_eq (hf : f.Relabeled D σ f') : f'.point = f.point := by
  obtain ⟨l, l', hl, hl', hll⟩ := hf.code
  rw [point, point, hl.size, hl'.size, hll.length_eq]

/-- Appending an instruction, and the instruction with new labels. -/
theorem Relabeled.append (hf : f.Relabeled D σ f') (h : Relabeling D σ) {i : Instruction Op}
    (hi : ∀ r ∈ i.registers, D r) :
    Alike (fun x x' ↦ x.2.Relabeled D σ x'.2) (f.append i).result
      (f'.append (i.mapRegisters σ)).result := by
  obtain ⟨l, l', hl, hl', hll⟩ := hf.code
  rw [result_append, result_append, Instruction.registers_mapRegisters h.isAbsent_eq, hf.point_eq]
  refine (hf.liveness.recordUses h hi f.point).bind fun m m' hm ↦ .ok ?_
  exact ⟨hf.name_eq, hf.localBytes_eq,
    ⟨_, _, hl.pushBack i, hl'.pushBack _, List.rel_append hll (.cons rfl .nil)⟩, hm⟩

/-- A call boundary names no register. -/
theorem Relabeled.callBoundary (hf : f.Relabeled D σ f') :
    Alike (Relabeled D σ) f.callBoundary.result f'.callBoundary.result := by
  refine .ok ⟨hf.name_eq, hf.localBytes_eq, hf.code, ?_⟩
  show (f.liveness.recordCall f.point).Relabeled D σ (f'.liveness.recordCall f'.point)
  rw [hf.point_eq]
  exact hf.liveness.recordCall f.point

end Function

/-! ### Assigned registers -/

namespace Allocation.Relabeled

/-- An allocation with new labels accepts the new label of what it accepted. -/
theorem accepts (ha : a.Relabeled D σ a') (h : Relabeling D σ) (r : Register) :
    a'.accepts (σ r) = a.accepts r := by
  rw [Allocation.accepts, ha.get? h, h.isVirtual_eq]
  rfl

/-- A new label is exchanged for the place of the register, or stays. -/
theorem assigned (ha : a.Relabeled D σ a') (h : Relabeling D σ) (r : Register) :
    a'.assigned (σ r) = σ (a.assigned r) := by
  rw [Allocation.assigned, Allocation.assigned, ha.get? h, h.isVirtual_eq]
  split
  · split
    · split
      · rename_i hphys
        exact (h.fixes _ (Register.not_isVirtual_of_isPhysical hphys)).symm
      · rfl
    · rfl
  · rfl

/-- Places are assigned to an instruction with new labels just as to the one with the old labels. -/
theorem assignInstruction (ha : a.Relabeled D σ a') (h : Relabeling D σ) (t : Target Op)
    (function function' : String) (i : Instruction Op) :
    Alike (fun j j' ↦ j' = j.mapRegisters σ) (i.assign t function a)
      ((i.mapRegisters σ).assign t function' a') := by
  have haccepts : (∀ r ∈ (i.mapRegisters σ).registers, a'.accepts r) ↔
      ∀ r ∈ i.registers, a.accepts r := by
    rw [Instruction.registers_mapRegisters h.isAbsent_eq, List.forall_mem_map]
    simp only [ha.accepts h]
  refine .of_exists (fun j hj ↦ ?_) fun j' hj' ↦ ?_
  · obtain ⟨hi, rfl⟩ := Instruction.assign_eq_ok.1 hj
    refine ⟨_, Instruction.assign_eq_ok.2 ⟨haccepts.2 hi, rfl⟩, ?_⟩
    rw [Instruction.mapRegisters_mapRegisters, Instruction.mapRegisters_mapRegisters]
    congr 1
    funext r
    exact ha.assigned h r
  · obtain ⟨hi, -⟩ := Instruction.assign_eq_ok.1 hj'
    exact ⟨_, Instruction.assign_eq_ok.2 ⟨haccepts.1 hi, rfl⟩⟩

end Allocation.Relabeled

/-- After assignment the two functions still differ in labels only. -/
theorem Function.Relabeled.assign (hf : f.Relabeled D σ f') (h : Relabeling D σ)
    (ha : a.Relabeled D σ a') (t : Target Op) :
    Alike (Relabeled D σ) (f.assign t a) (f'.assign t a') := by
  obtain ⟨l, l', hl, hl', hll⟩ := hf.code
  rw [Function.assign, Function.assign, hl.entries_eq, hl'.entries_eq]
  -- what is done in one run is what is done in the other with new labels
  have hpass := alike_foldlM
    (f := fun (c : Code Op) (e : Handle × Instruction Op) ↦ do
      let i ← e.2.assign t f.name a
      return c.modify e.1 fun _ ↦ i)
    (g := fun (c : Code Op) (e : Handle × Instruction Op) ↦ do
      let i ← e.2.assign t f'.name a'
      return c.modify e.1 fun _ ↦ i)
    (fun rest rest' (c c' : Code Op) ↦ ∃ pre pre', c.Represents (pre ++ rest) ∧
      c'.Represents (pre' ++ rest') ∧
      List.Forall₂ (fun e e' ↦ e'.2 = e.2.mapRegisters σ) pre pre') ?_ hll
    ⟨[], [], hl, hl', .nil⟩
  · refine hpass.bind ?_
    rintro c c' ⟨pre, pre', hc, hc', hpre⟩
    rw [List.append_nil] at hc hc'
    exact .ok ⟨hf.name_eq, hf.localBytes_eq, ⟨pre, pre', hc, hc', hpre⟩, hf.liveness⟩
  · rintro ⟨h₁, i⟩ ⟨h₂, _⟩ rest rest' c c' rfl ⟨pre, pre', hc, hc', hpre⟩
    refine (ha.assignInstruction h t f.name f'.name i).bind fun j j' hj ↦ .ok ?_
    refine ⟨pre ++ [(h₁, j)], pre' ++ [(h₂, j')], ?_, ?_, List.rel_append hpre (.cons hj .nil)⟩
    · simpa using hc.modify fun _ ↦ j
    · simpa using hc'.modify fun _ ↦ j'

/-! ### Loans -/

/-- The loan to the new label. -/
def Loan.relabel (σ : Register → Register) (x : Loan) : Loan := { x with vreg := σ x.vreg }

/-- A new label is exchanged for the register that is lent to the register, or stays. -/
theorem Loan.substitute_relabel (h : Relabeling D σ) (loans : List Loan) (r : Register) :
    substitute (loans.map (relabel σ)) (σ r) =
      ((loans.find? (·.vreg = r)).map (·.scratch)).getD (σ r) := by
  have hfind : ((fun x : Loan ↦ decide (x.vreg = σ r)) ∘ relabel σ) =
      fun x ↦ decide (x.vreg = r) := by
    funext x
    simp only [Function.comp, relabel, h.injective.eq_iff]
  rw [substitute, List.find?_map, hfind, Option.map_map]
  rfl

namespace Relabeling

/-- The virtual registers of an instruction come in the same order under their new labels. -/
theorem spilled (h : Relabeling D σ) (i : Instruction Op) :
    (i.mapRegisters σ).spilled = i.spilled.map σ := by
  have hvirtual : (·.isVirtual) ∘ σ = (·.isVirtual) := funext h.isVirtual_eq
  rw [Instruction.spilled, Instruction.registers_mapRegisters h.isAbsent_eq, List.filter_map,
    hvirtual, h.distinct_map]
  rfl

/-- Physical registers have no new labels. -/
theorem named_physical (h : Relabeling D σ) (i : Instruction Op) :
    (i.mapRegisters σ).registers.filter (·.isPhysical) = i.registers.filter (·.isPhysical) := by
  have hphysical : (·.isPhysical) ∘ σ = (·.isPhysical) := funext h.isPhysical_eq
  rw [Instruction.registers_mapRegisters h.isAbsent_eq, List.filter_map, hphysical]
  refine (List.map_congr_left fun r hr ↦ ?_).trans (List.map_id _)
  exact h.fixes r (Register.not_isVirtual_of_isPhysical (List.mem_filter.1 hr).2)

/-- Registers are lent to new labels as they are to the registers. -/
theorem lendAll (h : Relabeling D σ) (ha : a.Relabeled D σ a') {i i' : Instruction Op}
    (hcall : t.isCall i' = t.isCall i) (function function' : String) (area area' : SpillArea)
    (inUse vs : List Register) (done : List Loan) :
    Alike (fun x x' ↦ x' = x.map (Loan.relabel σ))
      (i.lendAll t function a area inUse done vs).result
      (i'.lendAll t function' a' area' inUse (done.map (Loan.relabel σ)) (vs.map σ)).result := by
  induction vs generalizing done with
  | nil => exact .ok rfl
  | cons v rest ih =>
    have hdone : (done.map (Loan.relabel σ)).map (·.scratch) = done.map (·.scratch) := by
      rw [List.map_map]
      rfl
    have hscratch : ∀ taken, i'.scratch? t taken = i.scratch? t taken := by
      intro taken
      rw [Instruction.scratch?, Instruction.scratch?, hcall]
    simp only [List.map_cons, Instruction.lendAll, Logged.result_bind, Logged.result_orError,
      ha.slotOf? h, hdone, hscratch]
    refine ((Alike.elim _ _ _).mapError _ _).bind fun slot slot' hslot ↦ ?_
    refine ((Alike.elim _ _ _).mapError _ _).bind fun scratch scratch' hscratch ↦ ?_
    cases hslot
    cases hscratch
    have hnext := ih (done ++ [⟨v, slot, scratch⟩])
    rw [List.map_append] at hnext
    exact hnext

/-- **An instruction and the instruction with new labels are lent the same registers.** -/
theorem loans (h : Relabeling D σ) (ha : a.Relabeled D σ a')
    (hcall : ∀ ρ i, t.isCall (i.mapRegisters ρ) = t.isCall i)
    (huses : ∀ ρ i, t.implicitUses (i.mapRegisters ρ) = t.implicitUses i)
    (function function' : String) (area area' : SpillArea) (i : Instruction Op) :
    Alike (fun x x' ↦ x.map (·.vreg) = i.spilled ∧ x' = x.map (Loan.relabel σ))
      (i.loans t function a area).result
      ((i.mapRegisters σ).loans t function' a' area').result := by
  refine Alike.and_left ?_ fun x hx ↦ (Instruction.lends_of_loans hx).choose_spec.2.vregs
  rw [Instruction.loans, Instruction.loans, h.spilled, List.isEmpty_map, huses,
    h.named_physical]
  split
  · exact .ok rfl
  · split
    · exact .error _ _
    · exact h.lendAll ha (hcall σ i) function function' area area' _ _ []

/-- Once the lent registers are put in, no label is left. -/
theorem mapRegisters_substitute (h : Relabeling D σ) {i : Instruction Op} {loans : List Loan}
    (hvregs : loans.map (·.vreg) = i.spilled) :
    (i.mapRegisters σ).mapRegisters (Loan.substitute (loans.map (Loan.relabel σ))) =
      i.mapRegisters (Loan.substitute loans) := by
  rw [Instruction.mapRegisters_mapRegisters]
  refine Instruction.mapRegisters_congr (fun r hr ↦ ?_) fun r hr hv ↦ ?_
  · rw [Function.comp, Loan.substitute_relabel h, h.fixes r hr]
    rfl
  · have hspilled : r ∈ loans.map (·.vreg) := by
      rw [hvregs, Instruction.spilled, Register.mem_distinct]
      exact List.mem_filter.2 ⟨hr, hv⟩
    obtain ⟨x, hx, hxr⟩ := List.mem_map.1 hspilled
    have hfound : (loans.find? (·.vreg = r)).isSome :=
      List.find?_isSome.2 ⟨x, hx, decide_eq_true hxr⟩
    obtain ⟨y, hy⟩ := Option.isSome_iff_exists.1 hfound
    rw [Function.comp, Loan.substitute_relabel h, Loan.substitute, hy]
    rfl

end Relabeling

/-! ### Spill code -/

namespace Function

/-- The two functions have the same name and the same instructions. -/
structure SameText (f f' : Function Op) : Prop where
  name_eq : f'.name = f.name
  code : ∃ l l', f.code.Represents l ∧ f'.code.Represents l' ∧ l'.map (·.2) = l.map (·.2)

/-- Functions with the same text are written alike. -/
theorem SameText.functionText (hf : f.SameText f') (t : Target Op) :
    t.functionText f' = t.functionText f := by
  obtain ⟨l, l', hl, hl', hsame⟩ := hf.code
  rw [Target.functionText, Target.functionText, Code.instructions, Code.instructions, hf.name_eq,
    hl.entries_eq, hl'.entries_eq, hsame]

/-- **Spill code takes the labels away**: functions that differ in labels have the same
instructions after it. -/
theorem Relabeled.insertSpillCode (hf : f.Relabeled D σ f') (h : Relabeling D σ)
    (ha : a.Relabeled D σ a') (hcall : ∀ ρ i, t.isCall (i.mapRegisters ρ) = t.isCall i)
    (huses : ∀ ρ i, t.implicitUses (i.mapRegisters ρ) = t.implicitUses i) :
    Alike (fun x x' ↦ x'.1 = x.1 ∧ x.2.SameText x'.2 ∧ x'.2.localBytes = x.2.localBytes)
      (f.insertSpillCode t a).result (f'.insertSpillCode t a').result := by
  obtain ⟨l, l', hl, hl', hll⟩ := hf.code
  have harea : f'.spillArea t a' = f.spillArea t a := by
    rw [spillArea, hf.localBytes_eq, ha.spillCount_eq]
    rfl
  rw [result_insertSpillCode, result_insertSpillCode, hl.entries_eq, hl'.entries_eq]
  -- what is done has the same instructions in both runs, the rest differs in labels
  have hpass := alike_foldlM (f := f.spillStep t a) (g := f'.spillStep t a')
    (fun rest rest' s s' ↦ s'.1 = s.1 ∧ ∃ pre pre', s.2.Represents (pre ++ rest) ∧
      s'.2.Represents (pre' ++ rest') ∧ pre'.map (·.2) = pre.map (·.2)) ?_ hll
    (show (0, f'.code).1 = (0, f.code).1 ∧ _ from ⟨rfl, [], [], hl, hl', rfl⟩)
  · refine hpass.bind ?_
    rintro s s' ⟨hreserved, pre, pre', hs, hs', hpre⟩
    rw [List.append_nil] at hs hs'
    exact .ok ⟨hreserved, ⟨hf.name_eq, pre, pre', hs, hs', hpre⟩, hf.localBytes_eq⟩
  · rintro ⟨h₁, i⟩ ⟨h₂, _⟩ rest rest' ⟨n, c⟩ ⟨_, c'⟩ rfl ⟨rfl, pre, pre', hc, hc', hpre⟩
    rw [spillStep, spillStep, harea]
    refine (h.loans ha hcall huses f.name f'.name _ _ i).bind ?_
    rintro x x' ⟨hvregs, hx⟩
    obtain ⟨c₁, before, after, hwrap, hcode, hc₁, -⟩ :=
      hc.exists_wrap (Nat.zero_le _) t (f.spillArea t a) x
    obtain ⟨c₂, before', after', hwrap', hcode', hc₂, -⟩ :=
      hc'.exists_wrap (Nat.zero_le _) t (f.spillArea t a) x'
    rw [hwrap, hwrap']
    refine .ok ⟨?_, _, _, hc₁, hc₂, ?_⟩
    · rw [hx, List.length_map]
    · subst hx
      have hbefore : before'.map (·.2) = before.map (·.2) := by
        rw [hcode'.before_eq, hcode.before_eq, List.zipIdx_map, List.flatMap_map]
        rfl
      have hafter : after'.map (·.2) = after.map (·.2) := by
        rw [hcode'.after_eq, hcode.after_eq, List.zipIdx_map, List.flatMap_map]
        rfl
      simp only [List.map_append, List.map_cons, hpre, hbefore, hafter,
        h.mapRegisters_substitute hvregs]

/-! ### Final code -/

theorem name_of_enclose {frame : Frame} (h : f.enclose t frame = .ok f') : f'.name = f.name := by
  obtain ⟨is, -, h⟩ := bind_eq_ok.1 h
  obtain ⟨js, -, h⟩ := bind_eq_ok.1 h
  obtain ⟨c, -, h⟩ := bind_eq_ok.1 h
  obtain ⟨c', -, h⟩ := bind_eq_ok.1 h
  cases h
  rfl

theorem SameText.symm (hf : f.SameText f') : f'.SameText f := by
  obtain ⟨l, l', hl, hl', hsame⟩ := hf.code
  exact ⟨hf.name_eq.symm, l', l, hl', hl, hsame.symm⟩

/-- If one of two functions with the same text gets its frame, so does the other one. -/
theorem SameText.exists_enclose (hf : f.SameText f') {frame : Frame} {g : Function Op}
    (hg : f.enclose t frame = .ok g) : ∃ g', f'.enclose t frame = .ok g' ∧ g.SameText g' := by
  obtain ⟨l, l', hl, hl', hsame⟩ := hf.code
  obtain ⟨prologue, epilogue, hrep, hprologue, hepilogue⟩ := represents_enclose hl hg
  obtain ⟨g', prologue', epilogue', hg', hrep', hp, he⟩ :=
    Function.exists_enclose hl' hprologue hepilogue
  refine ⟨g', hg', ?_, _, _, hrep, hrep', ?_⟩
  · rw [name_of_enclose hg, name_of_enclose hg', hf.name_eq]
  · simp only [List.map_append, hp, he, hsame]

/-- The frame goes around two functions with the same text alike. -/
theorem SameText.enclose (hf : f.SameText f') (t : Target Op) (frame : Frame) :
    Alike SameText (f.enclose t frame) (f'.enclose t frame) := by
  refine .of_exists (fun g hg ↦ hf.exists_enclose hg) fun g' hg' ↦ ?_
  obtain ⟨g, hg, -⟩ := hf.symm.exists_enclose hg'
  exact ⟨g, hg⟩

/-- **Functions that differ in labels are lowered to the same text**, or neither is lowered. -/
theorem Relabeled.lower (hf : f.Relabeled D σ f') (h : Relabeling D σ)
    (ha : a.Relabeled D σ a') (hcall : ∀ ρ i, t.isCall (i.mapRegisters ρ) = t.isCall i)
    (huses : ∀ ρ i, t.implicitUses (i.mapRegisters ρ) = t.implicitUses i) (preserve : Bool) :
    Alike (fun x x' ↦ x.1.SameText x'.1) (f.lower t a preserve).result
      (f'.lower t a' preserve).result := by
  simp only [Function.lower, Logged.result_bind, Logged.result_say, Logged.result_orError,
    Logged.result_orFault]
  refine ((hf.assign h ha t).mapError _ _).bind fun f₁ f₁' hf₁ ↦ ?_
  refine (hf₁.insertSpillCode h ha hcall huses).bind ?_
  rintro ⟨reserved, f₂⟩ ⟨reserved', f₂'⟩ ⟨hreserved, hf₂, hlocal⟩
  cases hreserved
  have hframe : ∀ saved, t.frame f₂'.localBytes a'.spillCount reserved saved =
      t.frame f₂.localBytes a.spillCount reserved saved := by
    intro saved
    rw [hlocal, ha.spillCount_eq]
  simp only [hframe, ha.usedCalleeSaved]
  refine ((Alike.refl _).mapError _ _).bind fun _ _ _ ↦ ?_
  exact ((hf₂.enclose t _).mapError _ _).bind fun f₃ f₃' hf₃ ↦ .ok hf₃

end Function

/-- **The labels of the virtual registers do not matter.** Of two functions that differ only in
them, either both are compiled, to the same text, or neither is. -/
theorem Session.compile_relabeled {s s' : Session Op} (htarget : s'.target = s.target)
    (hconfig : s'.config = s.config) (hf : f.Relabeled D σ f') (h : Relabeling D σ)
    (hcall : ∀ ρ i, s.target.isCall (i.mapRegisters ρ) = s.target.isCall i)
    (huses : ∀ ρ i, s.target.implicitUses (i.mapRegisters ρ) = s.target.implicitUses i) :
    Alike (fun c c' ↦ s'.functionText c' = s.functionText c) (s.compile f).result
      (s'.compile f').result := by
  simp only [compile, Logged.result_bind, Logged.result_say, Logged.result_sayAll,
    Logged.result_mapError, Liveness.result_noteAllocate, htarget, hconfig, hf.name_eq]
  refine ((hf.liveness.allocate h _).mapError _ _).bind fun a a' ha ↦ ?_
  refine (hf.lower h ha hcall huses _).bind fun x x' hx ↦ .ok ?_
  rw [functionText, functionText, htarget]
  exact hx.functionText s.target

end MachineCode

import MachineCode.Instruction
import MachineCode.Proofs.Recording
import Mathlib.Data.List.Nodup

/-!
# Renaming the registers of an instruction

The lowering of a function exchanges registers in two rounds: first each virtual register with a
physical place for that place, then each remaining one for a register that is lent to it. Both are
*renamings*: they leave every register alone that is not virtual, and send a virtual register to a
virtual one or to one that may be handed out. A renaming is asked to keep apart only the registers
that one instruction touches (`RegisterRenaming.injOn`), since registers far away may well share a
place.

`RegisterRenaming.comp` says that two rounds make one; `Instruction.registers_mapRegisters` that a
renamed instruction names the renamed registers.
-/

namespace MachineCode

namespace Register

/-! ### Distinct members -/

/-- The registers that were seen, and those of the list, are in the result. -/
theorem mem_foldl_distinct {r : Register} (rs seen : List Register) :
    r ∈ rs.foldl (fun seen r ↦ if seen.contains r then seen else seen ++ [r]) seen ↔
      r ∈ seen ∨ r ∈ rs := by
  induction rs generalizing seen with
  | nil => simp
  | cons s rest ih =>
    rw [List.foldl_cons, ih, List.mem_cons, ← or_assoc]
    refine or_congr_left ?_
    split
    · rename_i hs
      refine (or_iff_left_of_imp ?_).symm
      rintro rfl
      exact List.contains_iff_mem.1 hs
    · rw [List.mem_append, List.mem_singleton]

theorem nodup_foldl_distinct (rs : List Register) {seen : List Register} (h : seen.Nodup) :
    (rs.foldl (fun seen r ↦ if seen.contains r then seen else seen ++ [r]) seen).Nodup := by
  induction rs generalizing seen with
  | nil => exact h
  | cons s rest ih =>
    rw [List.foldl_cons]
    refine ih ?_
    split
    · exact h
    · rename_i hs
      rw [List.contains_iff_mem] at hs
      rw [← List.concat_eq_append]
      exact h.concat hs

@[simp] theorem mem_distinct {r : Register} {rs : List Register} : r ∈ distinct rs ↔ r ∈ rs := by
  rw [distinct, mem_foldl_distinct]
  simp

theorem nodup_distinct (rs : List Register) : (distinct rs).Nodup :=
  nodup_foldl_distinct rs List.nodup_nil

theorem not_isAbsent_of_isPhysical {r : Register} (h : r.isPhysical) : r.isAbsent = false := by
  simp only [isPhysical, isAbsent, decide_eq_true_eq, decide_eq_false_iff_not] at h ⊢
  rw [h]
  decide

theorem not_isAbsent_of_isVirtual {r : Register} (h : r.isVirtual) : r.isAbsent = false := by
  simp only [isVirtual, isAbsent, decide_eq_true_eq, decide_eq_false_iff_not] at h ⊢
  rw [h]
  decide

end Register

/-! ### Renamings -/

/-- Virtual registers go to virtual registers or to members of `rs`, other registers stay, and the
members of `touched` are kept apart. -/
structure RegisterRenaming (rs touched : List Register) (ρ : Register → Register) : Prop where
  fixes : ∀ r, ¬ r.isVirtual → ρ r = r
  into : ∀ r, r.isVirtual → (ρ r).isVirtual ∨ ρ r ∈ rs
  injOn : ∀ r ∈ touched, ∀ s ∈ touched, ρ r = ρ s → r = s

namespace RegisterRenaming

variable {rs touched touched' : List Register} {ρ ρ' : Register → Register}

theorem id (rs touched : List Register) : RegisterRenaming rs touched id where
  fixes _ _ := rfl
  into _ h := Or.inl h
  injOn _ _ _ _ h := h

/-- A renaming that keeps registers apart does so with any part of them. -/
theorem mono (h : RegisterRenaming rs touched ρ) (hsub : ∀ r ∈ touched', r ∈ touched) :
    RegisterRenaming rs touched' ρ :=
  ⟨h.fixes, h.into, fun r hr s hs ↦ h.injOn r (hsub r hr) s (hsub s hs)⟩

/-- Two rounds of renaming make one, if the second keeps apart what the first made. -/
theorem comp (hrs : ∀ r ∈ rs, r.isPhysical) (h : RegisterRenaming rs touched ρ)
    (h' : RegisterRenaming rs (touched.map ρ) ρ') : RegisterRenaming rs touched (ρ' ∘ ρ) where
  fixes r hr := by rw [Function.comp, h.fixes r hr, h'.fixes r hr]
  into r hr := by
    rcases h.into r hr with hv | hmem
    · exact h'.into _ hv
    · right
      have hnot := Register.not_isVirtual_of_isPhysical (hrs _ hmem)
      rw [Function.comp, h'.fixes _ hnot]
      exact hmem
  injOn r hr s hs heq :=
    h.injOn r hr s hs (h'.injOn _ (List.mem_map_of_mem hr) _ (List.mem_map_of_mem hs) heq)

/-- An absent part stays absent, and only that. -/
theorem isAbsent_eq (hrs : ∀ r ∈ rs, r.isPhysical) (h : RegisterRenaming rs touched ρ)
    (r : Register) : (ρ r).isAbsent = r.isAbsent := by
  by_cases hr : r.isVirtual
  · rw [Register.not_isAbsent_of_isVirtual hr]
    rcases h.into r hr with hv | hmem
    · exact Register.not_isAbsent_of_isVirtual hv
    · exact Register.not_isAbsent_of_isPhysical (hrs _ hmem)
  · rw [h.fixes r hr]

end RegisterRenaming

/-! ### Renamed instructions -/

/-- What a changed operand names comes from what it named before. -/
theorem Operand.exists_of_mem_mapRegisters {σ : Register → Register} (hσ : σ .absent = .absent)
    {op : Operand} {x : Position × Register} (hx : x ∈ (op.mapRegisters σ).registers) :
    ∃ y ∈ op.registers, σ y.2 = x.2 := by
  -- a renaming does not turn an absent part into a register
  have hpresent : ∀ r, (σ r).isAbsent = false → r.isAbsent = false := by
    intro r hr
    by_contra habsent
    rw [Bool.not_eq_false] at habsent
    rw [Register.eq_absent_of_isAbsent habsent, hσ] at hr
    cases hr
  cases op with
  | reg r =>
    simp only [mapRegisters, registers, List.mem_filter, List.mem_singleton,
      Bool.not_eq_true'] at hx
    obtain ⟨rfl, hx⟩ := hx
    exact ⟨(.direct, r), by simp [registers, hpresent r hx], rfl⟩
  | mem a =>
    simp only [mapRegisters, registers, List.mem_filter, List.mem_cons, List.not_mem_nil, or_false,
      Bool.not_eq_true'] at hx
    obtain ⟨rfl | rfl, hx⟩ := hx
    · exact ⟨(.base, a.base), by simp [registers, hpresent _ hx], rfl⟩
    · exact ⟨(.index, a.index), by simp [registers, hpresent _ hx], rfl⟩
  | imm v => cases hx
  | label n => cases hx

namespace Instruction

variable {Op : Type} {ρ : Register → Register}

/-- The registers of an instruction are those of its operands, from left to right. -/
theorem registers_eq (i : Instruction Op) :
    i.registers = i.operands.flatMap fun op ↦ op.registers.map (·.2) := by
  have hfrom : ∀ (ops : List Operand) (k : Nat),
      (slotsFrom k ops).map (·.register) = ops.flatMap fun op ↦ op.registers.map (·.2) := by
    intro ops
    induction ops with
    | nil => exact fun _ ↦ rfl
    | cons op rest ih =>
      intro k
      rw [slotsFrom, List.map_append, ih, List.map_map, List.flatMap_cons]
      rfl
  exact hfrom i.operands 0

/-- Two renamings are applied one after the other. -/
theorem mapRegisters_mapRegisters (ρ ρ' : Register → Register) (i : Instruction Op) :
    (i.mapRegisters ρ).mapRegisters ρ' = i.mapRegisters (ρ' ∘ ρ) := by
  have hop : Operand.mapRegisters ρ' ∘ Operand.mapRegisters ρ = Operand.mapRegisters (ρ' ∘ ρ) := by
    funext op
    cases op <;> rfl
  rw [mapRegisters, mapRegisters, mapRegisters, List.map_map, hop]

@[simp] theorem mapRegisters_id (i : Instruction Op) : i.mapRegisters id = i := by
  have hop : Operand.mapRegisters id = id := by
    funext op
    cases op <;> rfl
  rw [mapRegisters, hop, List.map_id]

/-- A renaming that keeps the absent register apart from the others renames what is named. -/
theorem registers_mapRegisters (hρ : ∀ r, (ρ r).isAbsent = r.isAbsent) (i : Instruction Op) :
    (i.mapRegisters ρ).registers = i.registers.map ρ := by
  have hop : ∀ op : Operand, (op.mapRegisters ρ).registers.map (·.2) =
      (op.registers.map (·.2)).map ρ := by
    intro op
    cases op with
    | reg r => cases h : r.isAbsent <;> simp [Operand.mapRegisters, Operand.registers, hρ, h]
    | mem a =>
      cases hb : a.base.isAbsent <;> cases hi : a.index.isAbsent <;>
        simp [Operand.mapRegisters, Operand.registers, hρ, hb, hi]
    | imm v => rfl
    | label n => rfl
  rw [registers_eq, registers_eq, List.map_flatMap, mapRegisters, List.flatMap_map]
  simp only [hop]

/-- What a changed instruction names comes from what it named before. -/
theorem exists_of_mem_mapRegisters {σ : Register → Register} (hσ : σ .absent = .absent)
    {i : Instruction Op} {q : Register} (hq : q ∈ (i.mapRegisters σ).registers) :
    ∃ r ∈ i.registers, σ r = q := by
  rw [registers_eq, mapRegisters, List.flatMap_map] at hq
  obtain ⟨op, hop, hq⟩ := List.mem_flatMap.1 hq
  obtain ⟨x, hx, rfl⟩ := List.mem_map.1 hq
  obtain ⟨y, hy, heq⟩ := Operand.exists_of_mem_mapRegisters hσ hx
  refine ⟨y.2, ?_, heq⟩
  rw [registers_eq]
  exact List.mem_flatMap.2 ⟨op, hop, List.mem_map_of_mem hy⟩

/-- An instruction is renamed alike by maps that agree on the virtual registers that it names, and
on every register that is not virtual. -/
theorem mapRegisters_congr {ρ' : Register → Register} {i : Instruction Op}
    (hfixed : ∀ r, ¬ r.isVirtual → ρ r = ρ' r)
    (hnamed : ∀ r ∈ i.registers, r.isVirtual → ρ r = ρ' r) :
    i.mapRegisters ρ = i.mapRegisters ρ' := by
  -- an absent part is none of the registers of the instruction, but it is not virtual either
  have hof : ∀ op ∈ i.operands, ∀ p r, op.register? p = some r → ρ r = ρ' r := by
    intro op hop p r hr
    by_cases hv : r.isVirtual
    · refine hnamed r ?_ hv
      rw [registers_eq, List.mem_flatMap]
      refine ⟨op, hop, List.mem_map.2 ⟨(p, r), ?_, rfl⟩⟩
      have hnamed : (!r.isAbsent) = true := by rw [Register.not_isAbsent_of_isVirtual hv]; rfl
      cases op <;> cases p <;> simp_all [Operand.register?, Operand.registers]
    · exact hfixed r hv
  have hop : ∀ op ∈ i.operands, op.mapRegisters ρ = op.mapRegisters ρ' := by
    intro op hmem
    cases op with
    | reg r => rw [Operand.mapRegisters, hof _ hmem .direct r rfl, Operand.mapRegisters]
    | mem a =>
      rw [Operand.mapRegisters, hof _ hmem .base a.base rfl, hof _ hmem .index a.index rfl,
        Operand.mapRegisters]
    | imm v => rfl
    | label n => rfl
  rw [mapRegisters, mapRegisters, List.map_congr_left hop]

end Instruction

end MachineCode

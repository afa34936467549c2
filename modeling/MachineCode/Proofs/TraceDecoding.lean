import MachineCode.Proofs.ReplayNumbering
import Mathlib.Algebra.Group.Nat.Defs

/-!
# What a trace decodes to

A trace refers to opcodes and machine registers by name, and to virtual registers by number. These
are its mentions (`TraceFunction.mentions`), in the order in which they are decoded: the opcode of
a step before its operands, the operands from left to right, the base of an address before its
index. Decoding succeeds if the machine has all that is mentioned, and otherwise ends with the
error of the first mention that it does not have (`TraceFunction.decodes`).

What it gives is the trace with its names looked up and its local indices read as virtual
registers. `TraceFunction.instantiate?` does this for any numbering of the local indices, so that
renaming the registers of the outcome is the same as choosing another numbering
(`TraceFunction.map_instantiate?`), and so is renaming the local indices of the trace
(`TraceFunction.instantiate?_mapIndices`).
-/

namespace MachineCode

open Register

variable {Op α β : Type}

/-! ### Mentions -/

/-- Something that a trace refers to. -/
inductive Mention where
  | opcode (name : String)
  | register (name : String)
  | index (i : UInt32)
  deriving DecidableEq

namespace Mention

/-- The machine has what is mentioned. -/
def isKnown (t : Target Op) : Mention → Bool
  | opcode name => (t.opcode? name).isSome
  | register name => (t.register? name).isSome
  | index i => i.toNat < 2 ^ 31

/-- What is said about a mention of something that the machine does not have. -/
def error (t : Target Op) : Mention → CompileError
  | opcode name => .unknownOpcode t.kind.name name
  | register name => .unknownRegister t.kind.name name
  | index i => .virtualOutOfRange i.toNat

end Mention

/-- The mention of a register. -/
def TraceRegister.mention : TraceRegister → Mention
  | named name => .register name
  | virtual index => .index index

/-- The registers of an operand, the base of an address before its index. -/
def TraceOperand.registers : TraceOperand → List TraceRegister
  | reg r => [r]
  | mem a => a.base.toList ++ a.index.toList
  | imm _ => []
  | label _ => []

/-- The mentions of an operand. -/
def TraceOperand.mentions (x : TraceOperand) : List Mention := x.registers.map (·.mention)

/-- The mentions of a step, the opcode before the operands. -/
def TraceStep.mentions : TraceStep → List Mention
  | emit opcode operands => .opcode opcode :: operands.flatMap TraceOperand.mentions
  | callBoundary => []

/-- The mentions of a function, in the order in which they are decoded. -/
def TraceFunction.mentions (f : TraceFunction) : List Mention := f.steps.flatMap TraceStep.mentions

/-- The local index that is mentioned. -/
def Mention.index? : Mention → Option UInt32
  | index i => some i
  | _ => none

/-- The local indices of registers are those that they mention. -/
theorem TraceRegister.filterMap_mention (rs : List TraceRegister) :
    (rs.map (·.mention)).filterMap Mention.index? = rs.flatMap indices := by
  induction rs with
  | nil => rfl
  | cons r rs ih =>
    rw [List.flatMap_cons, ← ih]
    cases r <;> rfl

theorem TraceOperand.filterMap_mentions (x : TraceOperand) :
    x.mentions.filterMap Mention.index? = x.indices := by
  rw [mentions, TraceRegister.filterMap_mention]
  cases x with
  | reg r => exact List.flatMap_singleton _ _
  | _ => rfl

theorem TraceStep.filterMap_mentions (x : TraceStep) :
    x.mentions.filterMap Mention.index? = x.indices := by
  cases x with
  | callBoundary => rfl
  | emit opcode operands =>
    rw [mentions, List.filterMap_cons_none rfl, List.filterMap_flatMap]
    exact List.flatMap_congr fun y _ ↦ y.filterMap_mentions

/-- The local indices of a function are those that it mentions. -/
theorem TraceFunction.filterMap_mentions (f : TraceFunction) :
    f.mentions.filterMap Mention.index? = f.indices := by
  rw [mentions, List.filterMap_flatMap]
  exact List.flatMap_congr fun x _ ↦ x.filterMap_mentions

theorem TraceFunction.index_mem_mentions {f : TraceFunction} {i : UInt32} (hi : i ∈ f.indices) :
    .index i ∈ f.mentions := by
  rw [← filterMap_mentions, List.mem_filterMap] at hi
  obtain ⟨m, hm, hmi⟩ := hi
  cases m with
  | index j =>
    cases hmi
    exact hm
  | opcode name => cases hmi
  | register name => cases hmi

/-- Known local indices are numbers of virtual registers. -/
theorem TraceFunction.lt_of_mem_indices {t : Target Op} {f : TraceFunction}
    (hknown : ∀ m ∈ f.mentions, m.isKnown t) : ∀ i ∈ f.indices, i.toNat < firstVirtual :=
  fun _ hi ↦ of_decide_eq_true (hknown _ (index_mem_mentions hi))

/-! ### Instances of a trace -/

/-- A register of a trace, with virtual register `number i` for the local index `i`. -/
def TraceRegister.instantiate (t : Target Op) (number : UInt32 → Nat) : TraceRegister → Register
  | named name => (t.register? name).getD .absent
  | virtual index => ofNumber (firstVirtual + number index)

/-- An address of a trace, with virtual register `number i` for the local index `i`. -/
def TraceAddress.instantiate (t : Target Op) (number : UInt32 → Nat) (a : TraceAddress) :
    Address where
  disp := a.disp.toInt
  base := a.base.elim .absent (·.instantiate t number)
  index := a.index.elim .absent (·.instantiate t number)
  scale := a.scale.toNat

/-- An operand of a trace, with virtual register `number i` for the local index `i`. -/
def TraceOperand.instantiate (t : Target Op) (number : UInt32 → Nat) : TraceOperand → Operand
  | reg r => .reg (r.instantiate t number)
  | imm value => .imm value.toInt
  | label name => .label name
  | mem a => .mem (a.instantiate t number)

/-- A step of a trace, with virtual register `number i` for the local index `i`. There is none if
the machine does not have the opcode. -/
def TraceStep.instantiate? (t : Target Op) (number : UInt32 → Nat) :
    TraceStep → Option (BuildStep Op)
  | callBoundary => some .callBoundary
  | emit opcode operands =>
    (t.opcode? opcode).map fun op ↦ .append ⟨op, operands.map (·.instantiate t number)⟩

/-- The steps of a function, with virtual register `number i` for the local index `i`. -/
def TraceFunction.instantiate? (t : Target Op) (number : UInt32 → Nat) (f : TraceFunction) :
    Option (List (BuildStep Op)) :=
  f.steps.mapM (·.instantiate? t number)

/-! ### Decoding -/

/-- How decoding ends when it comes upon the mentions `ms` in this order: with a value if all of
them are known, and with the error of the first one that is not. -/
structure Decodes (t : Target Op) (ms : List Mention) (a? : Option α)
    (x : Except CompileError α) : Prop where
  ok : (∀ m ∈ ms, m.isKnown t) → ∃ a, a? = some a ∧ x = .ok a
  error : ∀ m, ms.find? (!·.isKnown t) = some m → x = .error (m.error t)

namespace Decodes

variable {t : Target Op} {ms ms' : List Mention} {a? : Option α} {x : Except CompileError α}

theorem pure (a : α) : Decodes t [] (some a) (.ok a) where
  ok _ := ⟨a, rfl, rfl⟩
  error _ h := nomatch h

/-- One mention, which is looked up. -/
theorem elim {m : Mention} (a? : Option α) (h : m.isKnown t = a?.isSome) :
    Decodes t [m] a? (a?.elim (.error (m.error t)) .ok) where
  ok hknown := by
    have hsome : a?.isSome := h ▸ hknown m List.mem_cons_self
    obtain ⟨a, rfl⟩ := Option.isSome_iff_exists.1 hsome
    exact ⟨a, rfl, rfl⟩
  error m' hm' := by
    cases a? with
    | none =>
      rw [List.find?_cons_of_pos (by simp [h])] at hm'
      cases hm'
      rfl
    | some a =>
      rw [List.find?_cons_of_neg (by simp [h])] at hm'
      cases hm'

/-- A value only comes about if all mentions are known. -/
theorem of_eq_ok (hx : Decodes t ms a? x) {a : α} (h : x = .ok a) :
    (∀ m ∈ ms, m.isKnown t) ∧ a? = some a := by
  have hknown : ∀ m ∈ ms, m.isKnown t := by
    cases hfind : ms.find? (!·.isKnown t) with
    | none => simpa using hfind
    | some m => cases h.symm.trans (hx.error m hfind)
  obtain ⟨b, hb, hok⟩ := hx.ok hknown
  cases h.symm.trans hok
  exact ⟨hknown, hb⟩

/-- Only the value of a decoding that ends well matters. -/
theorem congr (hx : Decodes t ms a? x) {b? : Option α} (h : ∀ a, a? = some a → b? = some a) :
    Decodes t ms b? x where
  ok hknown := (hx.ok hknown).imp fun a ha ↦ ⟨h a ha.1, ha.2⟩
  error := hx.error

/-- One part after another: the first error is the error of the whole. -/
theorem bind (hx : Decodes t ms a? x) {g : α → Option β} {f : α → Except CompileError β}
    (hf : ∀ a, a? = some a → Decodes t ms' (g a) (f a)) :
    Decodes t (ms ++ ms') (a? >>= g) (x >>= f) where
  ok hknown := by
    obtain ⟨hms, hms'⟩ := List.forall_mem_append.1 hknown
    obtain ⟨a, rfl, rfl⟩ := hx.ok hms
    exact (hf a rfl).ok hms'
  error m hm := by
    rw [List.find?_append] at hm
    cases hfind : ms.find? (!·.isKnown t) with
    | some m' =>
      rw [hfind] at hm
      cases hm
      rw [hx.error m hfind]
      rfl
    | none =>
      -- the first part gives a value, so the error is one of the second part
      rw [hfind] at hm
      have hms : ∀ m ∈ ms, m.isKnown t := by simpa using hfind
      obtain ⟨a, rfl, rfl⟩ := hx.ok hms
      exact (hf a rfl).error m hm

/-- A function of what is decoded mentions nothing else. -/
theorem map (hx : Decodes t ms a? x) (g : α → β) : Decodes t ms (g <$> a?) (g <$> x) := by
  have h : Decodes t (ms ++ []) (a? >>= fun a ↦ some (g a)) (x >>= fun a ↦ .ok (g a)) :=
    hx.bind fun a _ ↦ .pure (g a)
  rw [List.append_nil] at h
  have ha : g <$> a? = a? >>= fun a ↦ some (g a) := by cases a? <;> rfl
  have hx : g <$> x = x >>= fun a ↦ .ok (g a) := by cases x <;> rfl
  rwa [ha, hx]

/-- The members of a list, one after the other. -/
theorem mapM {γ : Type} {ms : γ → List Mention} {g : γ → Option β}
    {f : γ → Except CompileError β} (h : ∀ c, Decodes t (ms c) (g c) (f c)) (l : List γ) :
    Decodes t (l.flatMap ms) (l.mapM g) (l.mapM f) := by
  induction l with
  | nil => exact .pure []
  | cons c l ih =>
    rw [List.flatMap_cons, List.mapM_cons, List.mapM_cons]
    simp only [bind_pure_comp]
    exact (h c).bind fun b _ ↦ ih.map (b :: ·)

end Decodes

variable (t : Target Op)

/-- A register is decoded if it is known, and is the only one to blame otherwise. -/
theorem TraceRegister.decodes (r : TraceRegister) :
    Decodes t [r.mention] (some (r.instantiate t UInt32.toNat)) (r.decode t) := by
  cases r with
  | named name =>
    refine (Decodes.elim (t.register? name) rfl).congr fun r hr ↦ ?_
    rw [instantiate, hr]
    rfl
  | virtual index =>
    have hknown : (Mention.index index).isKnown t = (virtual? index.toNat).isSome := by
      rw [virtual?, Mention.isKnown]
      split <;> rename_i hlt <;> simpa [idBound, firstVirtual] using hlt
    refine (Decodes.elim (virtual? index.toNat) hknown).congr fun r hr ↦ ?_
    rw [virtual?] at hr
    split at hr <;> cases hr
    rfl

/-- A part of an address that is missing mentions nothing. -/
theorem TraceRegister.decodes_part (x : Option TraceRegister) :
    Decodes t (x.toList.map (·.mention))
      (some (x.elim .absent (·.instantiate t UInt32.toNat))) (decodePart t x) := by
  cases x with
  | none => exact .pure absent
  | some r => exact r.decodes t

/-- The base of an address is decoded before its index. -/
theorem TraceAddress.decodes (a : TraceAddress) :
    Decodes t ((a.base.toList ++ a.index.toList).map (·.mention))
      (some (a.instantiate t UInt32.toNat)) (a.decode t) := by
  rw [List.map_append, decode]
  simp only [bind_pure_comp]
  have hbase := TraceRegister.decodes_part t a.base
  have hindex := TraceRegister.decodes_part t a.index
  exact (hbase.bind fun base _ ↦ hindex.map fun index ↦
    ({ disp := a.disp.toInt, base, index, scale := a.scale.toNat } : Address)).congr fun _ h ↦ h

/-- An operand is decoded from its registers. -/
theorem TraceOperand.decodes (x : TraceOperand) :
    Decodes t x.mentions (some (x.instantiate t UInt32.toNat)) (x.decode t) := by
  cases x with
  | reg r => exact (r.decodes t).map Operand.reg
  | imm value => exact .pure _
  | label name => exact .pure _
  | mem a => exact (a.decodes t).map Operand.mem

/-- The opcode of a step is decoded before its operands. -/
theorem TraceStep.decodes (x : TraceStep) :
    Decodes t x.mentions (x.instantiate? t UInt32.toNat) (x.decode t) := by
  cases x with
  | callBoundary => exact Decodes.pure BuildStep.callBoundary
  | emit opcode operands =>
    have hop := Decodes.elim (t := t) (m := .opcode opcode) (t.opcode? opcode) rfl
    have hoperands := Decodes.mapM (TraceOperand.decodes t) operands
    have hpure : operands.mapM (fun y ↦ some (y.instantiate t UInt32.toNat)) =
        some (operands.map (·.instantiate t UInt32.toNat)) := List.mapM_pure
    rw [hpure] at hoperands
    rw [decode]
    simp only [bind_pure_comp]
    refine (hop.bind fun op _ ↦ hoperands.map fun ops ↦ BuildStep.append ⟨op, ops⟩).congr
      fun step h ↦ ?_
    rw [instantiate?]
    cases hop : t.opcode? opcode with
    | none => rw [hop] at h; exact h
    | some op => rw [hop] at h; exact h

/-- **Decoding ends with the first mention that is not known**, and otherwise reads the local
indices as virtual registers. -/
theorem TraceFunction.decodes (f : TraceFunction) :
    Decodes t f.mentions (f.instantiate? t UInt32.toNat) (f.decode t) :=
  Decodes.mapM (TraceStep.decodes t) f.steps

/-! ### Renaming the registers of an instance -/

/-- Renaming by `ρ` takes the numbers of the local indices `is` to other numbers, and changes
virtual registers only. -/
structure Renumbers (ρ : Register → Register) (is : List UInt32) (number number' : UInt32 → Nat) :
    Prop where
  fixes : ∀ r, ¬ r.isVirtual → ρ r = r
  virtual : ∀ i ∈ is, ρ (ofNumber (firstVirtual + number i)) = ofNumber (firstVirtual + number' i)

theorem Renumbers.mono {ρ : Register → Register} {is is' : List UInt32}
    {number number' : UInt32 → Nat} (h : Renumbers ρ is number number')
    (hsub : ∀ i ∈ is', i ∈ is) : Renumbers ρ is' number number' where
  fixes := h.fixes
  virtual i hi := h.virtual i (hsub i hi)

/-- Change every register of a step by `ρ`. -/
def BuildStep.mapRegisters (ρ : Register → Register) : BuildStep Op → BuildStep Op
  | append i => append (i.mapRegisters ρ)
  | callBoundary => callBoundary

section Instance

variable {t : Target Op} {number number' : UInt32 → Nat} {ρ : Register → Register}
  (hnamed : ∀ name r, t.register? name = some r → ¬ r.isVirtual)

include hnamed

/-- Registers with a name are not virtual. -/
theorem TraceRegister.not_isVirtual_named (number : UInt32 → Nat) (name : String) :
    ¬ ((named name).instantiate t number).isVirtual := by
  rw [instantiate]
  cases h : t.register? name with
  | none => exact (by decide : ¬ absent.isVirtual)
  | some r => exact hnamed name r h

/-- A renamed instance is an instance with other numbers. -/
theorem TraceRegister.apply_instantiate (r : TraceRegister)
    (h : Renumbers ρ r.indices number number') :
    ρ (r.instantiate t number) = r.instantiate t number' := by
  cases r with
  | virtual index => exact h.virtual index List.mem_cons_self
  | named name => exact h.fixes _ (not_isVirtual_named hnamed number name)

theorem TraceRegister.apply_part (x : Option TraceRegister)
    (h : Renumbers ρ (x.toList.flatMap indices) number number') :
    ρ (x.elim absent (·.instantiate t number)) = x.elim absent (·.instantiate t number') := by
  cases x with
  | none => exact h.fixes absent (by decide)
  | some r => exact apply_instantiate hnamed r (h.mono fun i hi ↦ by simpa using hi)

theorem TraceOperand.mapRegisters_instantiate (x : TraceOperand)
    (h : Renumbers ρ x.indices number number') :
    (x.instantiate t number).mapRegisters ρ = x.instantiate t number' := by
  cases x with
  | imm value => rfl
  | label name => rfl
  | reg r => exact congrArg Operand.reg (TraceRegister.apply_instantiate hnamed r h)
  | mem a =>
    rw [indices, List.flatMap_append] at h
    have hbase := TraceRegister.apply_part hnamed a.base
      (h.mono fun i hi ↦ List.mem_append_left _ hi)
    have hindex := TraceRegister.apply_part hnamed a.index
      (h.mono fun i hi ↦ List.mem_append_right _ hi)
    simp only [instantiate, TraceAddress.instantiate, Operand.mapRegisters, hbase, hindex]

theorem TraceStep.map_instantiate? (x : TraceStep) (h : Renumbers ρ x.indices number number') :
    (x.instantiate? t number).map (·.mapRegisters ρ) = x.instantiate? t number' := by
  cases x with
  | callBoundary => rfl
  | emit opcode operands =>
    have hoperands : (operands.map (·.instantiate t number)).map (·.mapRegisters ρ) =
        operands.map (·.instantiate t number') := by
      rw [List.map_map]
      refine List.map_congr_left fun y hy ↦ ?_
      exact y.mapRegisters_instantiate hnamed
        (h.mono fun i hi ↦ List.mem_flatMap.2 ⟨y, hy, hi⟩)
    rw [instantiate?, instantiate?, Option.map_map, ← hoperands]
    rfl

/-- **Renaming the registers of an instance is choosing other numbers.** -/
theorem TraceFunction.map_instantiate? (f : TraceFunction)
    (h : Renumbers ρ f.indices number number') :
    (f.instantiate? t number).map (List.map (·.mapRegisters ρ)) = f.instantiate? t number' := by
  obtain ⟨_, _, steps⟩ := f
  simp only [instantiate?, indices] at h ⊢
  induction steps with
  | nil => rfl
  | cons x rest ih =>
    rw [List.flatMap_cons] at h
    have hx := x.map_instantiate? hnamed (h.mono fun i hi ↦ List.mem_append_left _ hi)
    have hrest := ih (h.mono fun i hi ↦ List.mem_append_right _ hi)
    rw [List.mapM_cons, List.mapM_cons, ← hx, ← hrest]
    cases x.instantiate? t number with
    | none => rfl
    | some step => cases rest.mapM (·.instantiate? t number) <;> rfl

/-- Only the numbers of the local indices matter. -/
theorem TraceFunction.instantiate?_congr (f : TraceFunction)
    (h : ∀ i ∈ f.indices, number i = number' i) :
    f.instantiate? t number = f.instantiate? t number' := by
  have hid (step : BuildStep Op) : step.mapRegisters (fun r ↦ r) = step := by
    cases step with
    | callBoundary => rfl
    | append i => exact congrArg BuildStep.append i.mapRegisters_id
  have hmap := f.map_instantiate? hnamed
    ⟨fun r _ ↦ rfl, fun i hi ↦ congrArg (fun n ↦ ofNumber (firstVirtual + n)) (h i hi)⟩
  simpa only [hid, List.map_id_fun', Option.map_id, id_eq] using hmap

end Instance

/-! ### The virtual registers of an instance -/

/-- A virtual register is not absent. -/
theorem filter_named (l : List (Position × Register)) :
    ((l.filter (!·.2.isAbsent)).map (·.2)).filter (·.isVirtual) =
      (l.map (·.2)).filter (·.isVirtual) := by
  rw [List.filter_map, List.filter_map, List.filter_filter]
  congr 1
  refine List.filter_congr fun p _ ↦ ?_
  cases hv : p.2.isVirtual with
  | false => simp [hv]
  | true => simp [hv, not_isAbsent_of_isVirtual hv]

/-- The virtual register that a local index is read as. -/
def localRegister (i : UInt32) : Register := ofNumber (firstVirtual + i.toNat)

/-- Local indices in the range have registers of their own. -/
theorem injOn_localRegister {is : List UInt32} (h : ∀ i ∈ is, i.toNat < firstVirtual) :
    Set.InjOn localRegister {i | i ∈ is} := by
  intro i hi j hj heq
  have hnumber (k : UInt32) (hk : k ∈ is) : (localRegister k).number = firstVirtual + k.toNat := by
    have hlt := h k hk
    refine number_ofNumber ?_
    simp only [idBound, firstVirtual] at hlt ⊢
    omega
  have hsum := congrArg number heq
  rw [hnumber i hi, hnumber j hj] at hsum
  exact UInt32.toNat_inj.1 (Nat.add_left_cancel hsum)

theorem Register.length_distinct (rs : List Register) :
    (distinct rs).length = rs.toFinset.card := by
  rw [← List.toFinset_card_of_nodup (nodup_distinct rs)]
  congr 1
  ext r
  simp

/-- A function that keeps the members of a list apart keeps their number. -/
theorem card_toFinset_map [DecidableEq α] [DecidableEq β] {l : List α} {f : α → β}
    (hf : Set.InjOn f {a | a ∈ l}) : (l.map f).toFinset.card = l.toFinset.card := by
  have himage : (l.map f).toFinset = l.toFinset.image f := by
    ext b
    simp
  rw [himage]
  exact Finset.card_image_of_injOn fun a ha b hb ↦ hf (by simpa using ha) (by simpa using hb)

section Virtual

variable {t : Target Op} {number : UInt32 → Nat}
  (hnamed : ∀ name r, t.register? name = some r → ¬ r.isVirtual)

include hnamed

/-- The virtual registers of an instance are those of the local indices. -/
theorem TraceRegister.filter_instantiate (r : TraceRegister)
    (h : ∀ i ∈ r.indices, number i < firstVirtual) :
    [r.instantiate t number].filter (·.isVirtual) =
      r.indices.map fun i ↦ ofNumber (firstVirtual + number i) := by
  cases r with
  | named name => exact List.filter_cons_of_neg (not_isVirtual_named hnamed number name)
  | virtual index =>
    have hlt := h index List.mem_cons_self
    refine List.filter_cons_of_pos ?_
    rw [isVirtual_iff, instantiate, number_ofNumber]
    all_goals
      simp only [idBound, firstVirtual] at hlt ⊢
      omega

theorem TraceRegister.filter_part (x : Option TraceRegister)
    (h : ∀ i ∈ x.toList.flatMap indices, number i < firstVirtual) :
    [x.elim absent (·.instantiate t number)].filter (·.isVirtual) =
      (x.toList.flatMap indices).map fun i ↦ ofNumber (firstVirtual + number i) := by
  cases x with
  | none => rfl
  | some r =>
    rw [Option.toList_some, List.flatMap_singleton]
    exact filter_instantiate hnamed r fun i hi ↦ h i (by simpa using hi)

theorem TraceOperand.filter_registers (x : TraceOperand)
    (h : ∀ i ∈ x.indices, number i < firstVirtual) :
    ((x.instantiate t number).registers.map (·.2)).filter (·.isVirtual) =
      x.indices.map fun i ↦ ofNumber (firstVirtual + number i) := by
  cases x with
  | imm value => rfl
  | label name => rfl
  | reg r => exact (filter_named _).trans (r.filter_instantiate hnamed h)
  | mem a =>
    rw [indices, List.flatMap_append] at h ⊢
    rw [List.map_append, ← TraceRegister.filter_part hnamed a.base (List.forall_mem_append.1 h).1,
      ← TraceRegister.filter_part hnamed a.index (List.forall_mem_append.1 h).2,
      ← List.filter_append]
    exact filter_named _

theorem TraceStep.filter_registers {x : TraceStep} {step : BuildStep Op}
    (hx : x.instantiate? t number = some step) (h : ∀ i ∈ x.indices, number i < firstVirtual) :
    step.registers.filter (·.isVirtual) =
      x.indices.map fun i ↦ ofNumber (firstVirtual + number i) := by
  cases x with
  | callBoundary =>
    cases hx
    rfl
  | emit opcode operands =>
    obtain ⟨op, -, rfl⟩ := Option.map_eq_some_iff.1 hx
    rw [BuildStep.registers, Instruction.registers_eq, List.flatMap_map, List.filter_flatMap,
      indices, List.map_flatMap]
    refine List.flatMap_congr fun y hy ↦ ?_
    exact y.filter_registers hnamed fun i hi ↦ h i (List.mem_flatMap.2 ⟨y, hy, hi⟩)

/-- **The virtual registers of an instance are its local indices**, occurrence by occurrence. -/
theorem TraceFunction.filter_registers {f : TraceFunction} {steps : List (BuildStep Op)}
    (hf : f.instantiate? t number = some steps) (h : ∀ i ∈ f.indices, number i < firstVirtual) :
    (steps.flatMap (·.registers)).filter (·.isVirtual) =
      f.indices.map fun i ↦ ofNumber (firstVirtual + number i) := by
  obtain ⟨_, _, xs⟩ := f
  simp only [instantiate?, indices] at hf h ⊢
  induction xs generalizing steps with
  | nil =>
    cases hf
    rfl
  | cons x xs ih =>
    rw [List.mapM_cons] at hf
    obtain ⟨step, hstep, hf⟩ := Option.bind_eq_some_iff.1 hf
    obtain ⟨rest, hrest, hf⟩ := Option.bind_eq_some_iff.1 hf
    cases hf
    rw [List.flatMap_cons] at h ⊢
    rw [List.filter_append, List.flatMap_cons, List.map_append,
      TraceStep.filter_registers hnamed hstep (List.forall_mem_append.1 h).1,
      ih hrest (List.forall_mem_append.1 h).2]

/-- The virtual registers of a function are those that its local indices are read as. -/
theorem TraceFunction.virtuals_eq {f : TraceFunction} {steps : List (BuildStep Op)}
    (hf : f.decode t = .ok steps) :
    virtuals (steps.flatMap (·.registers)) = distinct (f.indices.map localRegister) := by
  obtain ⟨hknown, hsteps⟩ := (f.decodes t).of_eq_ok hf
  exact congrArg distinct (filter_registers hnamed hsteps (lt_of_mem_indices hknown))

/-- **A function takes one number for each of its local indices.** -/
theorem TraceFunction.length_virtuals {f : TraceFunction} {steps : List (BuildStep Op)}
    (hf : f.decode t = .ok steps) :
    (virtuals (steps.flatMap (·.registers))).length = f.virtualCount := by
  have hlt := lt_of_mem_indices ((f.decodes t).of_eq_ok hf).1
  rw [virtuals_eq hnamed hf, length_distinct, card_toFinset_map (injOn_localRegister hlt)]
  rfl

end Virtual

/-! ### Renaming the local indices of a trace -/

/-- The register with another local index. -/
def TraceRegister.mapIndices (σ : UInt32 → UInt32) : TraceRegister → TraceRegister
  | named name => named name
  | virtual index => virtual (σ index)

/-- The operand with other local indices. -/
def TraceOperand.mapIndices (σ : UInt32 → UInt32) : TraceOperand → TraceOperand
  | reg r => reg (r.mapIndices σ)
  | imm value => imm value
  | label name => label name
  | mem a => mem { a with
      base := a.base.map (·.mapIndices σ), index := a.index.map (·.mapIndices σ) }

/-- The step with other local indices. -/
def TraceStep.mapIndices (σ : UInt32 → UInt32) : TraceStep → TraceStep
  | emit opcode operands => emit opcode (operands.map (·.mapIndices σ))
  | callBoundary => callBoundary

/-- The function with other local indices. -/
def TraceFunction.mapIndices (σ : UInt32 → UInt32) (f : TraceFunction) : TraceFunction :=
  { f with steps := f.steps.map (·.mapIndices σ) }

/-- The mention with another local index. -/
def Mention.mapIndices (σ : UInt32 → UInt32) : Mention → Mention
  | opcode name => opcode name
  | register name => register name
  | index i => index (σ i)

section MapIndices

variable (σ : UInt32 → UInt32) {t : Target Op} {number : UInt32 → Nat}

theorem TraceOperand.registers_mapIndices (x : TraceOperand) :
    (x.mapIndices σ).registers = x.registers.map (·.mapIndices σ) := by
  cases x with
  | mem a =>
    rw [mapIndices, registers, registers, List.map_append]
    cases a.base <;> cases a.index <;> rfl
  | _ => rfl

/-- Other local indices are mentioned at the same places. -/
theorem TraceOperand.mentions_mapIndices (x : TraceOperand) :
    (x.mapIndices σ).mentions = x.mentions.map (·.mapIndices σ) := by
  rw [mentions, mentions, registers_mapIndices, List.map_map, List.map_map]
  refine List.map_congr_left fun r _ ↦ ?_
  cases r <;> rfl

theorem TraceStep.mentions_mapIndices (x : TraceStep) :
    (x.mapIndices σ).mentions = x.mentions.map (·.mapIndices σ) := by
  cases x with
  | callBoundary => rfl
  | emit opcode operands =>
    rw [mapIndices, mentions, mentions, List.map_cons, List.flatMap_map, List.map_flatMap]
    refine congrArg (_ :: ·) (List.flatMap_congr fun y _ ↦ ?_)
    exact y.mentions_mapIndices σ

theorem TraceFunction.mentions_mapIndices (f : TraceFunction) :
    (f.mapIndices σ).mentions = f.mentions.map (·.mapIndices σ) := by
  rw [mapIndices, mentions, mentions, List.flatMap_map, List.map_flatMap]
  exact List.flatMap_congr fun x _ ↦ x.mentions_mapIndices σ

/-- A function with other local indices has these in the same order. -/
theorem TraceFunction.indices_mapIndices (f : TraceFunction) :
    (f.mapIndices σ).indices = f.indices.map σ := by
  rw [← filterMap_mentions, ← filterMap_mentions, mentions_mapIndices, List.filterMap_map,
    List.map_filterMap]
  refine List.filterMap_congr fun m _ ↦ ?_
  cases m <;> rfl

/-- Other local indices are known if they are numbers of virtual registers. -/
theorem TraceFunction.isKnown_mapIndices {f : TraceFunction}
    (hf : ∀ m ∈ f.mentions, m.isKnown t) (hσ : ∀ i ∈ f.indices, (σ i).toNat < 2 ^ 31) :
    ∀ m ∈ (f.mapIndices σ).mentions, m.isKnown t := by
  rw [mentions_mapIndices]
  intro m hm
  obtain ⟨m, hmem, rfl⟩ := List.mem_map.1 hm
  cases m with
  | opcode name => exact hf _ hmem
  | register name => exact hf _ hmem
  | index i =>
    have hi : i ∈ f.indices := by
      rw [← filterMap_mentions]
      exact List.mem_filterMap.2 ⟨_, hmem, rfl⟩
    exact decide_eq_true (hσ i hi)

/-- Other local indices are other numbers. -/
theorem TraceOperand.instantiate_mapIndices (x : TraceOperand) :
    (x.mapIndices σ).instantiate t number = x.instantiate t (number ∘ σ) := by
  have hregister (r : TraceRegister) :
      (r.mapIndices σ).instantiate t number = r.instantiate t (number ∘ σ) := by
    cases r <;> rfl
  have hpart (y : Option TraceRegister) :
      (y.map (·.mapIndices σ)).elim absent (·.instantiate t number) =
        y.elim absent (·.instantiate t (number ∘ σ)) := by
    cases y with
    | none => rfl
    | some r => exact hregister r
  cases x with
  | reg r => exact congrArg Operand.reg (hregister r)
  | mem a => simp only [mapIndices, instantiate, TraceAddress.instantiate, hpart]
  | imm value => rfl
  | label name => rfl

theorem TraceStep.instantiate?_mapIndices (x : TraceStep) :
    (x.mapIndices σ).instantiate? t number = x.instantiate? t (number ∘ σ) := by
  cases x with
  | callBoundary => rfl
  | emit opcode operands =>
    simp only [mapIndices, instantiate?, List.map_map, Function.comp_def,
      TraceOperand.instantiate_mapIndices]

/-- **Renaming the local indices of a trace is choosing other numbers.** -/
theorem TraceFunction.instantiate?_mapIndices (f : TraceFunction) :
    (f.mapIndices σ).instantiate? t number = f.instantiate? t (number ∘ σ) := by
  simp only [mapIndices, instantiate?, List.mapM_map, Function.comp_def,
    TraceStep.instantiate?_mapIndices]

end MapIndices

end MachineCode

import MachineCode.Proofs.Building
import MachineCode.Proofs.Renaming
import MachineCode.Proofs.TwoRuns

/-!
# How a replay numbers virtual registers

A replay gives the virtual registers of a trace fresh ones of the session where they occur first.
So from a session that has issued `n` of them, the virtual registers of a function become the
numbers `n`, `n + 1`, … in the order of their first occurrence. `Renaming.Numbers` states this of
the registers met so far. One more register keeps it (`Renaming.Numbers.meet`), and so do all the
registers of a step (`Renaming.Numbers.meetAll`), as long as there are numbers left.

How many virtual registers a function has can be read off the trace: one for each of its local
indices (`TraceFunction.virtualCount`).
-/

namespace MachineCode

namespace Register

/-- The virtual registers of a list, each once, in the order of their first occurrence. -/
def virtuals (rs : List Register) : List Register := distinct (rs.filter (·.isVirtual))

theorem mem_virtuals {rs : List Register} {r : Register} :
    r ∈ virtuals rs ↔ r ∈ rs ∧ r.isVirtual := by
  rw [virtuals, mem_distinct, List.mem_filter]

/-- A register that was met before, or is not virtual, adds nothing. -/
theorem virtuals_concat (rs : List Register) (r : Register) :
    virtuals (rs ++ [r]) =
      if r.isVirtual ∧ r ∉ virtuals rs then virtuals rs ++ [r] else virtuals rs := by
  by_cases hv : r.isVirtual
  · rw [virtuals, List.filter_append, List.filter_cons_of_pos hv, List.filter_nil, distinct,
      List.foldl_append]
    show (if (virtuals rs).contains r then virtuals rs else virtuals rs ++ [r]) = _
    simp [hv]
  · rw [if_neg fun h ↦ hv h.1, virtuals, List.filter_append, List.filter_cons_of_neg hv]
    simp [virtuals]

/-- What was seen stays in front. -/
theorem prefix_foldl_distinct (rs seen : List Register) :
    seen <+: rs.foldl (fun seen r ↦ if seen.contains r then seen else seen ++ [r]) seen := by
  induction rs generalizing seen with
  | nil => exact List.prefix_rfl
  | cons r rs ih =>
    rw [List.foldl_cons]
    split
    · exact ih seen
    · exact (List.prefix_append seen [r]).trans (ih _)

/-- What comes later changes nothing in the order of first occurrence. -/
theorem distinct_prefix_append (rs qs : List Register) : distinct rs <+: distinct (rs ++ qs) := by
  rw [distinct, distinct, List.foldl_append]
  exact prefix_foldl_distinct qs _

/-- Registers that come later are numbered behind those that came first. -/
theorem virtuals_prefix_append (rs qs : List Register) : virtuals rs <+: virtuals (rs ++ qs) := by
  rw [virtuals, virtuals, List.filter_append]
  exact distinct_prefix_append _ _

theorem length_virtuals_le_append (rs qs : List Register) :
    (virtuals rs).length ≤ (virtuals (rs ++ qs)).length :=
  (virtuals_prefix_append rs qs).length_le

/-- There are as many virtual registers as there are numbers of them. -/
theorem virtual_eq_ok {n : Nat} (hn : n < firstVirtual) :
    virtual n = .ok (ofNumber (firstVirtual + n)) := by
  have hn' : n < idBound - firstVirtual := hn
  rw [virtual, virtual?, if_pos hn']
  rfl

end Register

open Register

/-! ### Meeting registers -/

/-- In a session that had issued `n` virtual registers, those of `met` have become the next ones, in
the order of their first occurrence. -/
structure Renaming.Numbers (n : Nat) (met : List Register) (m : Renaming) : Prop where
  issued : m.counter.issued = n + (virtuals met).length
  lookup : ∀ r, m.names.lookup r =
    if r ∈ virtuals met then some (ofNumber (firstVirtual + (n + (virtuals met).idxOf r)))
    else none

namespace Renaming

variable {m : Renaming} {n : Nat} {met : List Register}

theorem numbers_nil (n : Nat) : Numbers n [] { counter := ⟨n⟩ } where
  issued := rfl
  lookup _ := rfl

namespace Numbers

/-- Virtual registers have no new name until they are met. -/
theorem lookup_eq_none (h : m.Numbers n met) {r : Register} :
    m.names.lookup r = none ↔ r ∉ virtuals met := by
  rw [h.lookup]
  split <;> simp_all

/-- **One more register**, which gets the next number if it is a new virtual one. -/
theorem meet (h : m.Numbers n met) {r : Register}
    (hfit : n + (virtuals (met ++ [r])).length ≤ firstVirtual) :
    ∃ m', m.meet r = .ok m' ∧ m'.Numbers n (met ++ [r]) := by
  rw [Renaming.meet]
  by_cases hnew : r.isVirtual ∧ r ∉ virtuals met
  -- a new register gets the next number, and the numbers of the others do not move
  · have hvirtuals : virtuals (met ++ [r]) = virtuals met ++ [r] := by
      rw [virtuals_concat, if_pos hnew]
    have hcond : (r.isVirtual && (m.names.lookup r).isNone) = true := by
      rw [hnew.1, h.lookup_eq_none.2 hnew.2]
      rfl
    rw [hvirtuals, List.length_append, List.length_singleton] at hfit
    rw [if_pos hcond, Counter.fresh, h.issued, virtual_eq_ok (by omega)]
    refine ⟨_, rfl, ?_, fun s ↦ ?_⟩
    · rw [hvirtuals, List.length_append, List.length_singleton]
      rfl
    · rw [hvirtuals, List.lookup_cons, h.lookup]
      by_cases hs : s = r
      · subst hs
        simp [List.idxOf_append_of_notMem hnew.2]
      · have hne : (s == r) = false := beq_eq_false_iff_ne.2 hs
        rw [hne]
        by_cases hmem : s ∈ virtuals met
        · simp [hmem, List.idxOf_append_of_mem hmem]
        · simp [hmem, hs]
  · have hcond : ¬ (r.isVirtual && (m.names.lookup r).isNone) = true := by
      rw [Bool.and_eq_true, Option.isNone_iff_eq_none, h.lookup_eq_none]
      exact hnew
    rw [if_neg hcond]
    refine ⟨m, rfl, ?_, ?_⟩
    · rw [virtuals_concat, if_neg hnew]
      exact h.issued
    · rw [virtuals_concat, if_neg hnew]
      exact h.lookup

/-- All the registers of a list, one after the other. -/
theorem meetAll (h : m.Numbers n met) {rs : List Register}
    (hfit : n + (virtuals (met ++ rs)).length ≤ firstVirtual) :
    ∃ m', rs.foldlM Renaming.meet m = .ok m' ∧ m'.Numbers n (met ++ rs) := by
  refine exists_foldlM (fun done (m : Renaming) ↦ m.Numbers n (met ++ done)) ?_
    (by rwa [List.append_nil])
  intro done r rest m' hrs hm'
  have hle := length_virtuals_le_append (met ++ (done ++ [r])) rest
  rw [List.append_assoc, List.append_assoc, List.singleton_append, ← hrs] at hle
  rw [← List.append_assoc]
  refine hm'.meet ?_
  rw [List.append_assoc]
  omega

theorem apply_of_not_isVirtual (h : m.Numbers n met) {r : Register} (hr : ¬ r.isVirtual) :
    m.apply r = r := by
  have hnot : r ∉ virtuals met := fun hmem ↦ hr (mem_virtuals.1 hmem).2
  rw [Renaming.apply, h.lookup_eq_none.2 hnot]
  rfl

/-- A virtual register that was met has its number. -/
theorem apply_of_mem (h : m.Numbers n met) {r : Register} (hr : r ∈ virtuals met) :
    m.apply r = ofNumber (firstVirtual + (n + (virtuals met).idxOf r)) := by
  rw [Renaming.apply, h.lookup, if_pos hr]
  rfl

end Numbers

end Renaming

/-! ### Local indices -/

/-- The registers that a step names. -/
def BuildStep.registers {Op : Type} : BuildStep Op → List Register
  | append i => i.registers
  | callBoundary => []

/-- The local index of a virtual register. -/
def TraceRegister.indices : TraceRegister → List UInt32
  | named _ => []
  | virtual index => [index]

/-- The local indices of an operand. -/
def TraceOperand.indices : TraceOperand → List UInt32
  | reg r => r.indices
  | mem a => (a.base.toList ++ a.index.toList).flatMap TraceRegister.indices
  | imm _ => []
  | label _ => []

/-- The local indices of a step. -/
def TraceStep.indices : TraceStep → List UInt32
  | emit _ operands => operands.flatMap TraceOperand.indices
  | callBoundary => []

/-- The local indices of a function, one for each occurrence. -/
def TraceFunction.indices (f : TraceFunction) : List UInt32 := f.steps.flatMap TraceStep.indices

/-- How many virtual registers a function of a trace has. -/
def TraceFunction.virtualCount (f : TraceFunction) : Nat := f.indices.toFinset.card

end MachineCode

import MachineCode.Allocation.LinearScan
import MachineCode.Proofs.Recording

/-!
# The intervals of a function

The allocator works on a list of intervals that is made from a liveness record. The list holds
exactly the ranges of the virtual registers (`Liveness.mem_virtualIntervals`), ordered by their
start (`Liveness.pairwise_virtualIntervals`), and no virtual register occurs in it twice
(`Liveness.nodup_virtualIntervals`), because a virtual register has one range.
-/

namespace MachineCode

namespace Interval

/-! ### Sorting -/

/-- Intervals come in the order of their starts, then of their ends, then of their registers. -/
theorem precedes_iff {i j : Interval} :
    i.precedes j ↔ i.range.start < j.range.start ∨ i.range.start = j.range.start ∧
      (i.range.stop < j.range.stop ∨
        i.range.stop = j.range.stop ∧ i.reg.number ≤ j.reg.number) := by
  simp [precedes]

/-- Of the order only the starts matter to the scan. -/
theorem start_le_of_precedes {i j : Interval} (h : i.precedes j) :
    i.range.start ≤ j.range.start := by
  rw [precedes_iff] at h
  omega

/-- Two intervals are always in order one way or the other. -/
theorem start_le_of_not_precedes {i j : Interval} (h : ¬ i.precedes j) :
    j.range.start ≤ i.range.start := by
  rw [precedes_iff] at h
  omega

/-- Insertion adds the interval and loses none. -/
theorem insertSorted_perm (i : Interval) (l : List Interval) :
    (insertSorted i l).Perm (i :: l) := by
  induction l with
  | nil => exact List.Perm.refl _
  | cons j rest ih =>
    rw [insertSorted]
    split
    · exact List.Perm.refl _
    · exact (ih.cons j).trans (List.Perm.swap i j rest)

/-- Sorting changes the order only. -/
theorem sort_perm (l : List Interval) : (sort l).Perm l := by
  induction l with
  | nil => exact List.Perm.refl _
  | cons i rest ih => exact (insertSorted_perm i (sort rest)).trans (ih.cons i)

/-- Insertion keeps a list sorted by starts: the interval goes before the first one that it
precedes. -/
theorem pairwise_insertSorted {i : Interval} {l : List Interval}
    (h : l.Pairwise fun a b ↦ a.range.start ≤ b.range.start) :
    (insertSorted i l).Pairwise fun a b ↦ a.range.start ≤ b.range.start := by
  induction l with
  | nil => exact List.pairwise_singleton _ _
  | cons j rest ih =>
    obtain ⟨hj, hrest⟩ := List.pairwise_cons.1 h
    rw [insertSorted]
    split
    · rename_i hij
      have hle := start_le_of_precedes hij
      refine List.pairwise_cons.2 ⟨fun b hb ↦ ?_, h⟩
      rcases List.mem_cons.1 hb with rfl | hb
      · exact hle
      · exact Nat.le_trans hle (hj b hb)
    · rename_i hij
      refine List.pairwise_cons.2 ⟨fun b hb ↦ ?_, ih hrest⟩
      rcases List.mem_cons.1 ((insertSorted_perm i rest).subset hb) with rfl | hb
      · exact start_le_of_not_precedes hij
      · exact hj b hb

/-- **A sorted list goes by starts.** -/
theorem pairwise_sort (l : List Interval) :
    (sort l).Pairwise fun a b ↦ a.range.start ≤ b.range.start := by
  induction l with
  | nil => exact List.Pairwise.nil
  | cons i rest ih => exact pairwise_insertSorted ih

/-! ### Tables -/

/-- The intervals of a table are its ranges, each with its register. -/
theorem mem_ofTable {l : List (Register × List LiveRange)} {i : Interval} :
    i ∈ ofTable l ↔ ∃ rs, (i.reg, rs) ∈ l ∧ i.range ∈ rs := by
  simp only [ofTable, List.mem_flatMap, List.mem_map]
  constructor
  · rintro ⟨⟨r, rs⟩, he, x, hx, rfl⟩
    exact ⟨rs, he, hx⟩
  · rintro ⟨rs, he, hx⟩
    exact ⟨(i.reg, rs), he, i.range, hx, rfl⟩

/-- In a table with one range for each register, the intervals are as many as the entries, and
in the same order. -/
theorem map_reg_ofTable {l : List (Register × List LiveRange)}
    (h : ∀ e ∈ l, ∃ x, e.2 = [x]) : (ofTable l).map (·.reg) = l.map (·.1) := by
  induction l with
  | nil => rfl
  | cons e rest ih =>
    obtain ⟨x, hx⟩ := h e (by simp)
    have hrest := ih fun e' he' ↦ h e' (by simp [he'])
    rw [ofTable, List.flatMap_cons, hx, List.map_append, List.map_cons]
    exact congrArg (e.1 :: ·) hrest

end Interval

namespace Liveness

/-- The virtual registers that are listed are those with an entry in the table. -/
theorem mem_virtualRegisters {l : Liveness} {r : Register} {rs : List LiveRange} :
    (r, rs) ∈ l.virtualRegisters ↔ r.isVirtual ∧ l.get? r = some rs := by
  rw [virtualRegisters, List.mem_filter, RegisterMap.mem_entries_iff]
  exact and_comm

theorem mem_physicalRegisters {l : Liveness} {r : Register} {rs : List LiveRange} :
    (r, rs) ∈ l.physicalRegisters ↔ r.isPhysical ∧ l.get? r = some rs := by
  rw [physicalRegisters, List.mem_filter, RegisterMap.mem_entries_iff]
  exact and_comm

/-- The intervals to allocate are the ranges of virtual registers. -/
theorem mem_virtualIntervals {l : Liveness} {i : Interval} :
    i ∈ l.virtualIntervals ↔ i.reg.isVirtual ∧ i.range ∈ l.ranges i.reg := by
  rw [virtualIntervals, (Interval.sort_perm _).mem_iff, Interval.mem_ofTable, mem_ranges_iff]
  constructor
  · rintro ⟨rs, he, hx⟩
    obtain ⟨hv, hget⟩ := mem_virtualRegisters.1 he
    exact ⟨hv, rs, hget, hx⟩
  · rintro ⟨hv, rs, hget, hx⟩
    exact ⟨rs, mem_virtualRegisters.2 ⟨hv, hget⟩, hx⟩

/-- The fixed intervals are the ranges of physical registers. -/
theorem mem_fixedIntervals {l : Liveness} {i : Interval} :
    i ∈ l.fixedIntervals ↔ i.reg.isPhysical ∧ i.range ∈ l.ranges i.reg := by
  rw [fixedIntervals, Interval.mem_ofTable, mem_ranges_iff]
  constructor
  · rintro ⟨rs, he, hx⟩
    obtain ⟨hr, hget⟩ := mem_physicalRegisters.1 he
    exact ⟨hr, rs, hget, hx⟩
  · rintro ⟨hr, rs, hget, hx⟩
    exact ⟨rs, mem_physicalRegisters.2 ⟨hr, hget⟩, hx⟩

theorem pairwise_virtualIntervals (l : Liveness) :
    l.virtualIntervals.Pairwise fun a b ↦ a.range.start ≤ b.range.start :=
  Interval.pairwise_sort _

/-- A virtual register has one range, so the table gives each of them one interval. -/
theorem WellFormed.map_reg_ofTable {l : Liveness} (hl : l.WellFormed) :
    (Interval.ofTable l.virtualRegisters).map (·.reg) = l.virtualRegisters.map (·.1) := by
  refine Interval.map_reg_ofTable ?_
  rintro ⟨r, rs⟩ he
  obtain ⟨hv, hget⟩ := mem_virtualRegisters.1 he
  obtain ⟨x, hx, -⟩ := hl.single r rs hv hget
  exact ⟨x, hx⟩

theorem WellFormed.length_virtualIntervals {l : Liveness} (hl : l.WellFormed) :
    l.virtualIntervals.length = l.virtualRegisters.length := by
  have h := congrArg List.length hl.map_reg_ofTable
  rw [List.length_map, List.length_map] at h
  rw [virtualIntervals, (Interval.sort_perm _).length_eq, h]

/-- No virtual register is allocated twice. -/
theorem WellFormed.nodup_virtualIntervals {l : Liveness} (hl : l.WellFormed) :
    (l.virtualIntervals.map (·.reg)).Nodup := by
  have hperm := (Interval.sort_perm (Interval.ofTable l.virtualRegisters)).map (·.reg)
  rw [hl.map_reg_ofTable] at hperm
  refine hperm.nodup_iff.2 ?_
  have hsorted : l.virtualRegisters.Pairwise fun a b ↦ a.1.number < b.1.number :=
    l.table.sorted.filter _
  refine List.pairwise_map.2 (hsorted.imp ?_)
  rintro a b hlt heq
  rw [heq] at hlt
  exact Nat.lt_irrefl _ hlt

end Liveness

end MachineCode

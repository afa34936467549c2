import MachineCode.Proofs.Intervals
import MachineCode.Proofs.Renaming
import MachineCode.Proofs.ScanInvariant
import MachineCode.Proofs.TwoRuns

/-!
# Relabelled virtual registers

The number of a virtual register means nothing by itself. The allocator looks at it in two ways
only: it asks whether two registers are the same, and it lets the order of the numbers decide
between intervals that are equal otherwise. So a map of the registers that moves virtual registers
alone, keeps them apart and keeps their order is not seen by the allocator (`Relabeling`).

Each kind of data that an allocation goes through has its relation between two runs: tables
(`RegisterMap.Relabeled`), records of liveness, scans and allocations. The operations keep these
relations, from a single use of a register (`Liveness.Relabeled.recordUse`) and a single step of
the scan (`Scan.Relabeled.step`) up to the allocation of a whole function
(`Liveness.Relabeled.allocate`): both runs find places for the registers or neither does, and a
register and its new label have the same place.
-/

namespace MachineCode

/-- Virtual registers go to virtual registers, no two of them to one, and other registers stay. The
registers of `D` keep their order. -/
structure Relabeling (D : Register → Prop) (σ : Register → Register) : Prop where
  fixes : ∀ r, ¬ r.isVirtual → σ r = r
  isVirtual : ∀ r, r.isVirtual → (σ r).isVirtual
  injective : Function.Injective σ
  number_lt : ∀ r s, D r → D s → r.number < s.number → (σ r).number < (σ s).number

variable {D : Register → Prop} {σ : Register → Register} {α : Type}

namespace Relabeling

variable {r s : Register}

theorem isVirtual_eq (h : Relabeling D σ) (r : Register) : (σ r).isVirtual = r.isVirtual := by
  by_cases hr : r.isVirtual
  · rw [hr, h.isVirtual r hr]
  · rw [h.fixes r hr]

theorem isAbsent_eq (h : Relabeling D σ) (r : Register) : (σ r).isAbsent = r.isAbsent := by
  by_cases hr : r.isVirtual
  · rw [Register.not_isAbsent_of_isVirtual hr,
      Register.not_isAbsent_of_isVirtual (h.isVirtual r hr)]
  · rw [h.fixes r hr]

/-- A new label is physical if the old one is, and it is the same register then. -/
theorem isPhysical_eq (h : Relabeling D σ) (r : Register) : (σ r).isPhysical = r.isPhysical := by
  by_cases hr : r.isVirtual
  · have hnot : ∀ s : Register, s.isVirtual → s.isPhysical = false := fun s hs ↦
      Bool.eq_false_iff.2 fun hphys ↦ Register.not_isVirtual_of_isPhysical hphys hs
    rw [hnot r hr, hnot _ (h.isVirtual r hr)]
  · rw [h.fixes r hr]

/-- The order of two registers of `D` can be read off their new labels. -/
theorem number_lt_iff (h : Relabeling D σ) (hr : D r) (hs : D s) :
    (σ r).number < (σ s).number ↔ r.number < s.number := by
  refine ⟨fun hlt ↦ ?_, h.number_lt r s hr hs⟩
  rcases Nat.lt_trichotomy r.number s.number with hrs | hrs | hrs
  · exact hrs
  · rw [Register.ext_number hrs] at hlt
    exact absurd hlt (Nat.lt_irrefl _)
  · exact absurd hlt (Nat.lt_asymm (h.number_lt s r hs hr hrs))

theorem number_le_iff (h : Relabeling D σ) (hr : D r) (hs : D s) :
    (σ r).number ≤ (σ s).number ↔ r.number ≤ s.number := by
  rw [← Nat.not_lt, ← Nat.not_lt, h.number_lt_iff hs hr]

/-- Relabelled members are distinct if the members are. -/
theorem distinct_map (h : Relabeling D σ) (rs : List Register) :
    Register.distinct (rs.map σ) = (Register.distinct rs).map σ := by
  suffices hfrom : ∀ (rs seen : List Register),
      (rs.map σ).foldl (fun seen r ↦ if seen.contains r then seen else seen ++ [r]) (seen.map σ) =
        (rs.foldl (fun seen r ↦ if seen.contains r then seen else seen ++ [r]) seen).map σ from
    hfrom rs []
  intro rs
  induction rs with
  | nil => exact fun _ ↦ rfl
  | cons r rest ih =>
    intro seen
    have hseen : (seen.map σ).contains (σ r) = seen.contains r := by
      rw [Bool.eq_iff_iff, List.contains_iff_mem, List.contains_iff_mem,
        List.mem_map_of_injective h.injective]
    rw [List.map_cons, List.foldl_cons, List.foldl_cons, hseen, ← ih]
    split
    · rfl
    · rw [List.map_append, List.map_singleton]

end Relabeling

/-! ### Tables -/

namespace RegisterMap

/-- The keys of one table are those of the other with new labels, and the values are the same. -/
structure Relabeled (D : Register → Prop) (σ : Register → Register) (m m' : RegisterMap α) :
    Prop where
  keys : ∀ e ∈ m.entries, D e.1
  entries_eq : m'.entries = m.entries.map (Prod.map σ id)

theorem lookup_map (h : Relabeling D σ) (r : Register) (l : List (Register × α)) :
    lookup (σ r) (l.map (Prod.map σ id)) = lookup r l := by
  induction l with
  | nil => rfl
  | cons e rest ih =>
    obtain ⟨k, x⟩ := e
    simp only [List.map_cons, Prod.map, lookup, h.injective.eq_iff, ih, id]

/-- The new label is inserted at the same position, since the keys keep their order. -/
theorem insertEntry_map (h : Relabeling D σ) {r : Register} (hr : D r) (x : α)
    {l : List (Register × α)} (hl : ∀ e ∈ l, D e.1) :
    insertEntry (σ r) x (l.map (Prod.map σ id)) = (insertEntry r x l).map (Prod.map σ id) := by
  induction l with
  | nil => rfl
  | cons e rest ih =>
    obtain ⟨k, y⟩ := e
    obtain ⟨hk, hrest⟩ := List.forall_mem_cons.1 hl
    simp only [List.map_cons, Prod.map, insertEntry, h.number_lt_iff hr hk, h.injective.eq_iff,
      id]
    split
    · rfl
    · split
      · rfl
      · exact congrArg _ (ih hrest)

theorem relabeled_empty : Relabeled D σ (empty : RegisterMap α) empty where
  keys _ h := nomatch h
  entries_eq := rfl

variable {m m' : RegisterMap α}

/-- A table with new labels has the same values under them. -/
theorem Relabeled.get? (hm : m.Relabeled D σ m') (h : Relabeling D σ) (r : Register) :
    m'.get? (σ r) = m.get? r := by
  rw [RegisterMap.get?, hm.entries_eq, lookup_map h]
  rfl

/-- A value is inserted under the old label here and under the new one there. -/
theorem Relabeled.insert (hm : m.Relabeled D σ m') (h : Relabeling D σ) {r : Register} (hr : D r)
    (x : α) : (m.insert r x).Relabeled D σ (m'.insert (σ r) x) where
  keys e he := by
    rcases mem_insertEntry he with rfl | he
    · exact hr
    · exact hm.keys e he
  entries_eq := by
    show insertEntry (σ r) x m'.entries = _
    rw [hm.entries_eq, insertEntry_map h hr x hm.keys]
    rfl

end RegisterMap

/-! ### Liveness -/

namespace Liveness

/-- The two records differ in the labels of the virtual registers. -/
structure Relabeled (D : Register → Prop) (σ : Register → Register) (l l' : Liveness) : Prop where
  table : l.table.Relabeled D σ l'.table
  calls_eq : l'.calls = l.calls

variable {l l' : Liveness}

/-- A use of a register and of its new label. -/
theorem Relabeled.recordUse (hl : l.Relabeled D σ l') (h : Relabeling D σ) {r : Register}
    (hr : D r) (p : Nat) : Alike (Relabeled D σ) (l.recordUse r p) (l'.recordUse (σ r) p) := by
  have htracks : tracks (σ r) = tracks r := by
    rw [tracks, tracks, h.isVirtual_eq, h.isPhysical_eq]
  have hranges : (l'.get? (σ r)).getD [] = (l.get? r).getD [] := by
    rw [get?, hl.table.get? h]
    rfl
  have hinsert : ∀ rs rs', rs = rs' → Relabeled D σ { l with table := l.table.insert r rs }
      { l' with table := l'.table.insert (σ r) rs' } := by
    rintro rs _ rfl
    exact ⟨hl.table.insert h hr rs, hl.calls_eq⟩
  -- both records take the same branch and compute the same ranges
  rw [Liveness.recordUse, Liveness.recordUse, htracks, hranges, h.isVirtual_eq, hl.calls_eq]
  rw [hl.calls_eq] at hinsert
  split
  · dsimp only
    split
    all_goals exact (Alike.refl _).bind fun rs rs' hrs ↦ .ok (hinsert rs rs' hrs)
  · exact .ok hl

/-- The registers of an instruction are recorded one after the other. -/
theorem Relabeled.recordUses (hl : l.Relabeled D σ l') (h : Relabeling D σ) {rs : List Register}
    (hrs : ∀ r ∈ rs, D r) (p : Nat) :
    Alike (Relabeled D σ) (rs.foldlM (fun l r ↦ l.recordUse r p) l)
      ((rs.map σ).foldlM (fun l r ↦ l.recordUse r p) l') := by
  refine alike_foldlM (T := fun r r' ↦ D r ∧ r' = σ r) (fun _ _ ↦ Relabeled D σ) ?_ ?_ hl
  · rintro r _ - - m m' ⟨hr, rfl⟩ hm
    exact hm.recordUse h hr p
  · exact List.forall₂_map_right_iff.2 (List.forall₂_same.2 fun r hr ↦ ⟨hrs r hr, rfl⟩)

/-- A call is recorded by its point alone. -/
theorem Relabeled.recordCall (hl : l.Relabeled D σ l') (p : Nat) :
    (l.recordCall p).Relabeled D σ (l'.recordCall p) where
  table := hl.table
  calls_eq := by
    show l'.calls ++ [p] = _
    rw [hl.calls_eq]
    rfl

end Liveness

/-! ### Intervals -/

namespace Interval

/-- The interval of the new label. -/
def relabel (σ : Register → Register) (i : Interval) : Interval := { i with reg := σ i.reg }

theorem relabel_injective (h : Relabeling D σ) : Function.Injective (relabel σ) := by
  rintro ⟨r, x⟩ ⟨s, y⟩ heq
  simp only [relabel, mk.injEq, h.injective.eq_iff] at heq
  rw [heq.1, heq.2]

/-- New labels keep the order of intervals, which looks at labels last. -/
theorem precedes_relabel (h : Relabeling D σ) {i j : Interval} (hi : D i.reg) (hj : D j.reg) :
    (i.relabel σ).precedes (j.relabel σ) = i.precedes j := by
  simp only [precedes, relabel, h.number_le_iff hi hj]

theorem insertSorted_relabel (h : Relabeling D σ) {i : Interval} (hi : D i.reg)
    {l : List Interval} (hl : ∀ j ∈ l, D j.reg) :
    insertSorted (i.relabel σ) (l.map (relabel σ)) = (insertSorted i l).map (relabel σ) := by
  induction l with
  | nil => rfl
  | cons j rest ih =>
    obtain ⟨hj, hrest⟩ := List.forall_mem_cons.1 hl
    rw [List.map_cons, insertSorted, insertSorted, precedes_relabel h hi hj, ih hrest]
    split <;> rfl

/-- The intervals of the new labels are sorted in the same way. -/
theorem sort_relabel (h : Relabeling D σ) {l : List Interval} (hl : ∀ j ∈ l, D j.reg) :
    sort (l.map (relabel σ)) = (sort l).map (relabel σ) := by
  induction l with
  | nil => rfl
  | cons i rest ih =>
    obtain ⟨hi, hrest⟩ := List.forall_mem_cons.1 hl
    have hsorted : ∀ j ∈ sort rest, D j.reg := fun j hj ↦ hrest j ((sort_perm rest).mem_iff.1 hj)
    show insertSorted _ (sort (rest.map (relabel σ))) = _
    rw [ih hrest, insertSorted_relabel h hi hsorted]
    rfl

/-- The intervals of a table with new labels are those of the table with new labels. -/
theorem ofTable_map (l : List (Register × List LiveRange)) :
    ofTable (l.map (Prod.map σ id)) = (ofTable l).map (relabel σ) := by
  simp only [ofTable, List.flatMap_map, List.map_flatMap, List.map_map]
  rfl

end Interval

namespace Liveness

variable {l l' : Liveness}

/-- The intervals of the record have registers of `D`. -/
theorem Relabeled.mem_virtualIntervals (hl : l.Relabeled D σ l') {i : Interval}
    (hi : i ∈ l.virtualIntervals) : D i.reg := by
  obtain ⟨e, he, x, -, rfl⟩ : ∃ e ∈ l.virtualRegisters, ∃ x ∈ e.2, (⟨e.1, x⟩ : Interval) = i := by
    simpa [virtualIntervals, Interval.ofTable] using (Interval.sort_perm _).mem_iff.1 hi
  exact hl.table.keys e (List.mem_filter.1 he).1

/-- The intervals of the virtual registers come in the same order. -/
theorem Relabeled.virtualIntervals (hl : l.Relabeled D σ l') (h : Relabeling D σ) :
    l'.virtualIntervals = l.virtualIntervals.map (Interval.relabel σ) := by
  have hvirtual : l'.virtualRegisters = l.virtualRegisters.map (Prod.map σ id) := by
    rw [virtualRegisters, hl.table.entries_eq, List.filter_map]
    congr 2
    funext e
    exact h.isVirtual_eq e.1
  rw [Liveness.virtualIntervals, hvirtual, Interval.ofTable_map, Interval.sort_relabel h]
  · rfl
  · exact fun i hi ↦ hl.mem_virtualIntervals ((Interval.sort_perm _).mem_iff.2 hi)

/-- The intervals of the physical registers are the same. -/
theorem Relabeled.fixedIntervals (hl : l.Relabeled D σ l') (h : Relabeling D σ) :
    l'.fixedIntervals = l.fixedIntervals := by
  have hphysical : l'.physicalRegisters = l.physicalRegisters.map (Prod.map σ id) := by
    rw [physicalRegisters, hl.table.entries_eq, List.filter_map]
    congr 2
    funext e
    exact h.isPhysical_eq e.1
  have hsame : l.physicalRegisters.map (Prod.map σ id) = l.physicalRegisters := by
    refine (List.map_congr_left fun e he ↦ ?_).trans (List.map_id _)
    have hphys : e.1.isPhysical := (List.mem_filter.1 he).2
    rw [Prod.map, h.fixes e.1 (Register.not_isVirtual_of_isPhysical hphys)]
    rfl
  rw [Liveness.fixedIntervals, hphysical, hsame]
  rfl

end Liveness

/-! ### The scan -/

/-- The active interval of the new label. -/
def Active.relabel (σ : Register → Register) (a : Active) : Active :=
  { a with interval := a.interval.relabel σ }

theorem Active.relabel_injective (h : Relabeling D σ) : Function.Injective (relabel σ) := by
  rintro ⟨i, r⟩ ⟨j, s⟩ heq
  simp only [relabel, mk.injEq, (Interval.relabel_injective h).eq_iff] at heq
  rw [heq.1, heq.2]

namespace Scan

/-- The two scans differ in the labels of the virtual registers, and in their histories. -/
structure Relabeled (D : Register → Prop) (σ : Register → Register) (s s' : Scan) : Prop where
  labels : ∀ a ∈ s.active, D a.interval.reg
  active_eq : s'.active = s.active.map (Active.relabel σ)
  places : s.places.Relabeled D σ s'.places
  slots_eq : s'.slots = s.slots

theorem relabeled_empty : Relabeled D σ {} {} where
  labels _ h := nomatch h
  active_eq := rfl
  places := RegisterMap.relabeled_empty
  slots_eq := rfl

variable {s s' : Scan} {rf : RegisterFile} {fixed : List Interval} {i : Interval}

namespace Relabeled

theorem note (hs : s.Relabeled D σ s') (d d' : Decision) :
    (s.note d).Relabeled D σ (s'.note d') :=
  ⟨hs.labels, hs.active_eq, hs.places, hs.slots_eq⟩

theorem expire (hs : s.Relabeled D σ s') (p : Nat) : (s.expire p).Relabeled D σ (s'.expire p) where
  labels a ha := hs.labels a (List.mem_filter.1 ha).1
  active_eq := by
    show s'.active.filter _ = _
    rw [hs.active_eq, List.filter_map]
    rfl
  places := hs.places
  slots_eq := hs.slots_eq

theorem isHeld (hs : s.Relabeled D σ s') (r : Register) : s'.isHeld r = s.isHeld r := by
  rw [Scan.isHeld, hs.active_eq, List.any_map]
  rfl

theorem freeRegister? (hs : s.Relabeled D σ s') (rf : RegisterFile) (fixed : List Interval)
    (i : Interval) : freeRegister? rf fixed s' (i.relabel σ) = freeRegister? rf fixed s i := by
  simp only [Scan.freeRegister?, hs.isHeld]
  rfl

end Relabeled

/-- Which interval lasts longer does not depend on the labels, and a tie is broken alike. -/
theorem outlives_relabel (h : Relabeling D σ) {a b : Active} (ha : D a.interval.reg)
    (hb : D b.interval.reg) : outlives (a.relabel σ) (b.relabel σ) = outlives a b := by
  simp only [outlives, Active.relabel, Interval.relabel, h.number_le_iff hb ha]

/-- A choice along a list that does not look at labels is the same under new ones. -/
theorem foldl_relabel {choose : Option Active → Active → Option Active}
    (hchoose : ∀ best a, (∀ b ∈ best, D b.interval.reg) → D a.interval.reg →
      choose (best.map (Active.relabel σ)) (a.relabel σ) = (choose best a).map (Active.relabel σ) ∧
        ∀ b ∈ choose best a, D b.interval.reg)
    {l : List Active} (hl : ∀ a ∈ l, D a.interval.reg) {best : Option Active}
    (hbest : ∀ b ∈ best, D b.interval.reg) :
    (l.map (Active.relabel σ)).foldl choose (best.map (Active.relabel σ)) =
      (l.foldl choose best).map (Active.relabel σ) := by
  induction l generalizing best with
  | nil => rfl
  | cons a rest ih =>
    obtain ⟨ha, hrest⟩ := List.forall_mem_cons.1 hl
    obtain ⟨hsame, hnext⟩ := hchoose best a hbest ha
    rw [List.map_cons, List.foldl_cons, List.foldl_cons, hsame]
    exact ih hrest hnext

/-- The interval that outlives the others is the same. -/
theorem longest?_relabel (h : Relabeling D σ) {l : List Active}
    (hl : ∀ a ∈ l, D a.interval.reg) :
    longest? (l.map (Active.relabel σ)) = (longest? l).map (Active.relabel σ) := by
  have hnone : ∀ b ∈ (none : Option Active), D b.interval.reg := by simp
  refine foldl_relabel (fun best a hbest ha ↦ ?_) hl hnone
  cases best with
  | none => simpa using ha
  | some b =>
    have hb : D b.interval.reg := hbest b rfl
    simp only [Option.map_some, outlives_relabel h ha hb]
    split
    · simpa using ha
    · simpa using hb

namespace Relabeled

/-- The interval to evict is the same up to its label. -/
theorem victim? (hs : s.Relabeled D σ s') (h : Relabeling D σ) (rf : RegisterFile)
    (fixed : List Interval) (i : Interval) :
    victim? rf fixed s' (i.relabel σ) = (victim? rf fixed s i).map (Active.relabel σ) := by
  rw [Scan.victim?, hs.active_eq, List.filter_map, longest?_relabel h]
  · rfl
  · exact fun a ha ↦ hs.labels a (List.mem_filter.1 ha).1

/-- The new active interval is the same up to its label. -/
theorem activate (hs : s.Relabeled D σ s') (h : Relabeling D σ) (hi : D i.reg) (r : Register) :
    Alike (Relabeled D σ) (s.activate i r) (s'.activate (i.relabel σ) r) := by
  rw [Scan.activate, Scan.activate, hs.isHeld]
  split
  · exact .error _ _
  · refine .ok ⟨?_, ?_, hs.places.insert h hi r, hs.slots_eq⟩
    · exact List.forall_mem_append.2 ⟨hs.labels, by simpa using hi⟩
    · show s'.active ++ _ = _
      rw [hs.active_eq, List.map_append]
      rfl

theorem newSlot (hs : s.Relabeled D σ s') :
    Alike (fun x x' ↦ x.1 = x'.1 ∧ x.2.Relabeled D σ x'.2) s.newSlot s'.newSlot := by
  rw [Scan.newSlot, Scan.newSlot, hs.slots_eq]
  exact (Alike.refl _).bind fun slot slot' hslot ↦
    .ok ⟨hslot, hs.labels, hs.active_eq, hs.places, rfl⟩

/-- The eviction of an interval puts the same register into the hands of the next one. -/
theorem evict (hs : s.Relabeled D σ s') (h : Relabeling D σ) {a : Active} (ha : a ∈ s.active)
    (hi : D i.reg) :
    Alike (Relabeled D σ) (s.evict a i) (s'.evict (a.relabel σ) (i.relabel σ)) := by
  refine hs.newSlot.bind fun ⟨slot, t⟩ ⟨slot', t'⟩ ⟨hslot, ht⟩ ↦ ?_
  cases hslot
  have hdemoted : Relabeled D σ
      { t with active := t.active.erase a, places := t.places.insert a.interval.reg slot }
      { t' with
        active := t'.active.erase (a.relabel σ)
        places := t'.places.insert (σ a.interval.reg) slot } := by
    refine ⟨fun b hb ↦ ht.labels b (List.mem_of_mem_erase hb), ?_,
      ht.places.insert h (hs.labels a ha) slot, ht.slots_eq⟩
    rw [ht.active_eq, ← List.map_erase (Active.relabel_injective h)]
  exact (hdemoted.note _ _).activate h hi a.reg

/-- A spilled interval gets the same stack slot. -/
theorem spill (hs : s.Relabeled D σ s') (h : Relabeling D σ) (hi : D i.reg) :
    Alike (Relabeled D σ) (s.spill i) (s'.spill (i.relabel σ)) := by
  refine hs.newSlot.bind fun ⟨slot, t⟩ ⟨slot', t'⟩ ⟨hslot, ht⟩ ↦ ?_
  cases hslot
  have hspilled : Relabeled D σ { t with places := t.places.insert i.reg slot }
      { t' with places := t'.places.insert (σ i.reg) slot } :=
    ⟨ht.labels, ht.active_eq, ht.places.insert h hi slot, ht.slots_eq⟩
  exact .ok (hspilled.note _ _)

/-- **One step of the scan does not see the labels.** -/
theorem step (hs : s.Relabeled D σ s') (h : Relabeling D σ) (rf : RegisterFile)
    (fixed : List Interval) (hi : D i.reg) :
    Alike (Relabeled D σ) (s.step rf fixed i) (s'.step rf fixed (i.relabel σ)) := by
  have hs := hs.expire i.range.start
  have hfree := hs.freeRegister? rf fixed i
  have hvictim := hs.victim? h rf fixed i
  rw [Scan.step, Scan.step]
  dsimp only [Interval.relabel] at hfree hvictim ⊢
  rw [hfree, hvictim]
  cases Scan.freeRegister? rf fixed (s.expire i.range.start) i with
  | some r => exact (hs.note _ _).activate h hi r
  | none =>
    cases hv : Scan.victim? rf fixed (s.expire i.range.start) i with
    | some a => exact hs.evict h (mem_of_victim? hv).1 hi
    | none => exact hs.spill h hi

end Relabeled

/-- **Nor does a whole scan.** -/
theorem alike_run (h : Relabeling D σ) (rf : RegisterFile) (fixed : List Interval)
    {l : List Interval} (hl : ∀ i ∈ l, D i.reg) :
    Alike (Relabeled D σ) (run rf fixed l) (run rf fixed (l.map (Interval.relabel σ))) := by
  refine alike_foldlM (T := fun i i' ↦ D i.reg ∧ i' = i.relabel σ) (fun _ _ ↦ Relabeled D σ) ?_ ?_
    relabeled_empty
  · rintro i _ - - s s' ⟨hi, rfl⟩ hs
    exact hs.step h rf fixed hi
  · exact List.forall₂_map_right_iff.2 (List.forall₂_same.2 fun i hi ↦ ⟨hl i hi, rfl⟩)

end Scan

/-! ### Allocations -/

namespace Allocation

/-- The two allocations differ in the labels of the virtual registers. -/
structure Relabeled (D : Register → Prop) (σ : Register → Register) (a a' : Allocation) :
    Prop where
  places : a.places.Relabeled D σ a'.places
  spillCount_eq : a'.spillCount = a.spillCount

variable {a a' : Allocation}

namespace Relabeled

/-- A register has the same place under its new label. -/
theorem get? (ha : a.Relabeled D σ a') (h : Relabeling D σ) (r : Register) :
    a'.get? (σ r) = a.get? r := ha.places.get? h r

theorem slotOf? (ha : a.Relabeled D σ a') (h : Relabeling D σ) (r : Register) :
    a'.slotOf? (σ r) = a.slotOf? r := by
  rw [Allocation.slotOf?, ha.get? h]
  rfl

theorem usedCalleeSaved (ha : a.Relabeled D σ a') (rf : RegisterFile) :
    a'.usedCalleeSaved rf = a.usedCalleeSaved rf := by
  rw [Allocation.usedCalleeSaved, ha.places.entries_eq, List.map_map]
  rfl

end Relabeled

end Allocation

/-- **The allocator does not see the labels**: it finds places for the registers of both records or
of neither, and a register and its new label get the same place. -/
theorem Liveness.Relabeled.allocate {l l' : Liveness} (hl : l.Relabeled D σ l')
    (h : Relabeling D σ) (rf : RegisterFile) :
    Alike (Allocation.Relabeled D σ) (l.allocate rf) (l'.allocate rf) := by
  rw [Liveness.allocate, Liveness.allocate, scan, scan, hl.fixedIntervals h, hl.virtualIntervals h]
  refine (Scan.alike_run h rf l.fixedIntervals fun i hi ↦ hl.mem_virtualIntervals hi).map ?_
  exact fun s s' hs ↦ ⟨hs.places, hs.slots_eq⟩

end MachineCode

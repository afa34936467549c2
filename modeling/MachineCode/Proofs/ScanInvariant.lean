import MachineCode.Proofs.Intervals
import Mathlib.Data.List.Nodup

/-!
# The invariant of a scan

`Scan.Sound rf fixed done p s` says what is true of a scan that has found places for the intervals
`done` and stands at the point `p`. Every place is a stack slot of its own, or an eligible
register; a register is given up only when its interval is over; and a register is never given to
two intervals that overlap.

The scan moves in three ways, and each keeps the invariant: intervals expire (`Sound.expire`), an
active interval goes to a stack slot (`Sound.demote`), and the next interval gets a place
(`Sound.activate`, `Sound.spill`). An eviction is a demotion followed by an activation, so it needs
no argument of its own. `Sound.step_cases` puts the three together. The induction over the scan is
made once (`run_cases`); it says what is true of a scan that is known to succeed
(`soundUpTo_of_run`), and of one that has stack slots enough to succeed (`exists_run`).
-/

namespace MachineCode

/-- What the allocator relies on in a calling convention: registers with a saving class are
physical, and no register has both classes. -/
structure RegisterFile.Conventional (rf : RegisterFile) : Prop where
  physical_of_caller : ∀ {r}, rf.isCallerSaved r → r.isPhysical
  physical_of_callee : ∀ {r}, rf.isCalleeSaved r → r.isPhysical
  disjoint : ∀ {r}, rf.isCallerSaved r → ¬ rf.isCalleeSaved r

namespace Register

theorem isStackSlot_slot? {n : Nat} {r : Register} (h : slot? n = some r) : r.isStackSlot := by
  rw [slot?] at h
  split at h
  · rename_i hn
    cases h
    simp only [firstVirtual, firstSlot] at hn
    rw [isStackSlot_iff, number_ofNumber (by simp only [idBound, firstSlot]; omega)]
    simp only [firstVirtual, firstSlot]
    omega
  · cases h

/-- A stack slot can be read off its register. -/
theorem slotIndex?_slot? {n : Nat} {r : Register} (h : slot? n = some r) :
    r.slotIndex? = some n := by
  rw [slotIndex?, if_pos (isStackSlot_slot? h)]
  rw [slot?] at h
  split at h
  · rename_i hn
    cases h
    simp only [firstVirtual, firstSlot] at hn
    rw [number_ofNumber (by simp only [idBound, firstSlot]; omega)]
    simp
  · cases h

/-- Different stack slots have different registers. -/
theorem slot?_injective {m n : Nat} {r : Register} (hm : slot? m = some r)
    (hn : slot? n = some r) : m = n := by
  have h := slotIndex?_slot? hm
  rw [slotIndex?_slot? hn] at h
  exact (Option.some.inj h).symm

theorem isStackSlot_of_slotIndex? {n : Nat} {r : Register} (h : r.slotIndex? = some n) :
    r.isStackSlot ∧ r.number = firstSlot + n := by
  rw [slotIndex?] at h
  split at h
  · rename_i hr
    have hn := Option.some.inj h
    have hle := (isStackSlot_iff.1 hr).1
    exact ⟨hr, by omega⟩
  · cases h

theorem not_isStackSlot_of_isPhysical {r : Register} (h : r.isPhysical) : ¬ r.isStackSlot := by
  rw [isPhysical_iff] at h
  rw [isStackSlot_iff]
  omega

/-- Slots do not run out before `2 ^ 30` are taken. -/
theorem le_of_slot?_eq_none {n : Nat} (h : slot? n = none) : Nat.pow 2 30 ≤ n := by
  rw [slot?] at h
  split at h
  · cases h
  · rename_i hlt
    exact Nat.not_lt.1 hlt

end Register

namespace Scan

variable {rf : RegisterFile} {fixed done : List Interval} {p : Nat} {s : Scan}

/-- The invariant of a scan that is done with the intervals `done` and stands at the point `p`. -/
structure Sound (rf : RegisterFile) (fixed done : List Interval) (p : Nat) (s : Scan) : Prop where
  /-- An active interval holds the place that it was given. -/
  active : ∀ a ∈ s.active, a.interval ∈ done ∧ s.places.get? a.interval.reg = some a.reg ∧
    eligible rf fixed a.reg a.interval
  /-- No register is held by two active intervals. -/
  nodup : (s.active.map (·.reg)).Nodup
  /-- The intervals that are done have places, and nothing else has. -/
  placed : ∀ v, (s.places.get? v).isSome ↔ ∃ i ∈ done, i.reg = v
  /-- A place is a stack slot that was handed out, or an eligible register that is held until the
  interval is over. -/
  place : ∀ i ∈ done, ∀ r, s.places.get? i.reg = some r →
    (∃ n < s.slots, Register.slot? n = some r) ∨
      r ∈ rf.allocatable ∧ eligible rf fixed r i ∧ (⟨i, r⟩ ∈ s.active ∨ i.range.stop ≤ p)
  /-- A stack slot is the place of one register. -/
  slot_inj : ∀ v w r, r.isStackSlot → s.places.get? v = some r → s.places.get? w = some r → v = w
  /-- A register is the place of intervals that do not overlap. -/
  disjoint : ∀ i ∈ done, ∀ j ∈ done, i.reg ≠ j.reg → ∀ r, r.isPhysical →
    s.places.get? i.reg = some r → s.places.get? j.reg = some r → ¬ i.overlaps j

theorem sound_empty : Sound rf fixed [] 0 {} where
  active := by simp
  nodup := by simp
  placed v := by
    show ((RegisterMap.empty : RegisterMap Register).get? v).isSome ↔ _
    simp
  place := by simp
  slot_inj v w r _ h _ := nomatch h
  disjoint := by simp

/-- A register is eligible for an interval if it has the right class and the code does not use it
meanwhile. -/
theorem eligible_iff {r : Register} {i : Interval} :
    eligible rf fixed r i ↔
      (if i.range.acrossCall then rf.isCalleeSaved r else rf.isCallerSaved r) ∧
        ∀ f ∈ fixed, f.reg = r → ¬ f.overlaps i := by
  simp [eligible]

theorem isPhysical_of_eligible (hrf : rf.Conventional) {r : Register} {i : Interval}
    (h : eligible rf fixed r i) : r.isPhysical := by
  have hclass := (eligible_iff.1 h).1
  split at hclass
  · exact hrf.physical_of_callee hclass
  · exact hrf.physical_of_caller hclass

theorem isHeld_iff {r : Register} : s.isHeld r ↔ r ∈ s.active.map (·.reg) := by
  simp [isHeld]

/-! ### Expiry -/

/-- At a point the intervals that stop there or before expire. -/
theorem mem_active_expire {q : Nat} {a : Active} :
    a ∈ (s.expire q).active ↔ a ∈ s.active ∧ q < a.interval.range.stop := by
  simp [expire]

/-- Moving on to a later point frees exactly the intervals that are over there. -/
theorem Sound.expire (h : Sound rf fixed done p s) {q : Nat} (hpq : p ≤ q) :
    Sound rf fixed done q (s.expire q) where
  active a ha := h.active a (mem_active_expire.1 ha).1
  nodup := h.nodup.sublist (List.filter_sublist.map _)
  placed := h.placed
  place := by
    intro i hi r hr
    rcases h.place i hi r hr with hslot | ⟨halloc, hel, hheld⟩
    · exact Or.inl hslot
    · refine Or.inr ⟨halloc, hel, ?_⟩
      rcases Nat.lt_or_ge q i.range.stop with hlt | hge
      · rcases hheld with hact | hover
        · exact Or.inl (mem_active_expire.2 ⟨hact, hlt⟩)
        · omega
      · exact Or.inr hge
  slot_inj := h.slot_inj
  disjoint := h.disjoint

theorem Sound.note (h : Sound rf fixed done p s) (d : Decision) :
    Sound rf fixed done p (s.note d) :=
  ⟨h.active, h.nodup, h.placed, h.place, h.slot_inj, h.disjoint⟩

/-! ### Giving up a register -/

/-- The next stack slot is nobody's place. -/
theorem Sound.slot_fresh (h : Sound rf fixed done p s) (hrf : rf.Conventional) {slot : Register}
    (hslot : Register.slot? s.slots = some slot) (v : Register) :
    s.places.get? v ≠ some slot := by
  intro hv
  obtain ⟨i, hi, rfl⟩ := (h.placed v).1 (by rw [hv]; rfl)
  rcases h.place i hi slot hv with ⟨n, hn, hn'⟩ | ⟨-, hel, -⟩
  · have := Register.slot?_injective hn' hslot
    omega
  · exact Register.not_isStackSlot_of_isPhysical (isPhysical_of_eligible hrf hel)
      (Register.isStackSlot_slot? hslot)

/-- Stack slots stay apart when the next one is given to a register. -/
theorem Sound.slot_inj_insert (h : Sound rf fixed done p s) (hrf : rf.Conventional)
    {slot : Register} (hslot : Register.slot? s.slots = some slot) (k : Register) :
    ∀ v w r, r.isStackSlot → (s.places.insert k slot).get? v = some r →
      (s.places.insert k slot).get? w = some r → v = w := by
  intro v w r hr hv hw
  rw [RegisterMap.get?_insert] at hv hw
  by_cases hkv : k = v
  · rw [if_pos hkv] at hv
    cases hv
    by_cases hkw : k = w
    · exact hkv.symm.trans hkw
    · rw [if_neg hkw] at hw
      exact absurd hw (h.slot_fresh hrf hslot w)
  · rw [if_neg hkv] at hv
    by_cases hkw : k = w
    · rw [if_pos hkw] at hw
      cases hw
      exact absurd hv (h.slot_fresh hrf hslot v)
    · rw [if_neg hkw] at hw
      exact h.slot_inj v w r hr hv hw

/-- A register that is a place after a stack slot was given out was that place before. -/
theorem get?_of_insert_slot {places : RegisterMap Register} {n : Nat} {slot k v r : Register}
    (hslot : Register.slot? n = some slot) (hr : r.isPhysical)
    (hv : (places.insert k slot).get? v = some r) : k ≠ v ∧ places.get? v = some r := by
  rw [RegisterMap.get?_insert] at hv
  split at hv
  · cases hv
    exact absurd (Register.isStackSlot_slot? hslot) (Register.not_isStackSlot_of_isPhysical hr)
  · rename_i hne
    exact ⟨hne, hv⟩

/-- The active interval `a` goes to the stack slot `slot`. -/
def demote (s : Scan) (a : Active) (slot : Register) : Scan :=
  { s with
    active := s.active.erase a
    places := s.places.insert a.interval.reg slot
    slots := s.slots + 1 }

/-- A held register tells which interval holds it. -/
theorem Sound.active_ext (h : Sound rf fixed done p s) {a b : Active} (ha : a ∈ s.active)
    (hb : b ∈ s.active) (hreg : a.reg = b.reg) : a = b :=
  List.inj_on_of_nodup_map h.nodup ha hb hreg

/-- An interval that moves to a fresh slot leaves its register to others. -/
theorem Sound.demote (h : Sound rf fixed done p s) (hrf : rf.Conventional) {a : Active}
    (ha : a ∈ s.active) {slot : Register} (hslot : Register.slot? s.slots = some slot) :
    Sound rf fixed done p (s.demote a slot) := by
  have hget : ∀ v, (s.demote a slot).places.get? v =
      if a.interval.reg = v then some slot else s.places.get? v :=
    fun v ↦ RegisterMap.get?_insert s.places a.interval.reg v slot
  have hnodup : s.active.Nodup := h.nodup.of_map _
  -- the interval of `a` is the only active one of its register
  have hother : ∀ b ∈ (s.demote a slot).active, a.interval.reg ≠ b.interval.reg := by
    intro b hb heq
    obtain ⟨hne, hb⟩ := hnodup.mem_erase_iff.1 hb
    obtain ⟨-, hplace, -⟩ := h.active b hb
    rw [← heq, (h.active a ha).2.1] at hplace
    exact hne (h.active_ext hb ha (Option.some.inj hplace).symm)
  constructor
  · intro b hb
    rw [hget, if_neg (hother b hb)]
    exact h.active b (List.mem_of_mem_erase hb)
  · exact h.nodup.sublist (List.erase_sublist.map _)
  · intro v
    rw [hget]
    split
    · rename_i hv
      exact iff_of_true rfl ⟨a.interval, (h.active a ha).1, hv⟩
    · exact h.placed v
  · intro i hi r hr
    rw [hget] at hr
    split at hr
    · cases hr
      exact Or.inl ⟨s.slots, Nat.lt_succ_self _, hslot⟩
    · rename_i hne
      rcases h.place i hi r hr with ⟨n, hn, hn'⟩ | ⟨halloc, hel, hheld⟩
      · exact Or.inl ⟨n, Nat.lt_succ_of_lt hn, hn'⟩
      · refine Or.inr ⟨halloc, hel, hheld.imp_left fun hact ↦ ?_⟩
        refine (List.mem_erase_of_ne ?_).2 hact
        rintro rfl
        exact hne rfl
  · exact h.slot_inj_insert hrf hslot a.interval.reg
  · intro i hi j hj hne r hr hri hrj
    exact h.disjoint i hi j hj hne r hr (get?_of_insert_slot hslot hr hri).2
      (get?_of_insert_slot hslot hr hrj).2

/-! ### A place for the next interval -/

/-- With a place for the next interval, the intervals that are then done have places. -/
theorem Sound.placed_insert (h : Sound rf fixed done p s) (i : Interval) (r v : Register) :
    ((s.places.insert i.reg r).get? v).isSome ↔ ∃ j ∈ done ++ [i], j.reg = v := by
  rw [RegisterMap.get?_insert]
  split
  · rename_i hv
    exact iff_of_true rfl ⟨i, by simp, hv⟩
  · rename_i hv
    rw [h.placed v]
    simp [hv]

/-- Whoever had a register that nobody holds is over where the next interval starts. -/
theorem Sound.not_overlaps_of_not_isHeld (h : Sound rf fixed done p s) {i j : Interval}
    {r : Register} (hr : r.isPhysical) (hheld : ¬ s.isHeld r) (hstart : i.range.start = p)
    (hj : j ∈ done) (hjr : s.places.get? j.reg = some r) : ¬ j.overlaps i := by
  intro hov
  rcases h.place j hj r hjr with ⟨n, -, hn⟩ | ⟨-, -, hact | hstop⟩
  · exact Register.not_isStackSlot_of_isPhysical hr (Register.isStackSlot_slot? hn)
  · exact hheld (isHeld_iff.2 (List.mem_map.2 ⟨_, hact, rfl⟩))
  · have := (LiveRange.overlaps_iff.1 hov).2
    omega

section Next

variable {i : Interval} (hfresh : ∀ j ∈ done, j.reg ≠ i.reg)

include hfresh

/-- A place for the next interval leaves the places of the intervals before it alone. -/
theorem get?_insert_of_mem (places : RegisterMap Register) (r : Register) {j : Interval}
    (hj : j ∈ done) : (places.insert i.reg r).get? j.reg = places.get? j.reg := by
  rw [RegisterMap.get?_insert, if_neg fun heq ↦ hfresh j hj heq.symm]

/-- An interval that goes to a fresh slot takes no register. -/
theorem Sound.spill (h : Sound rf fixed done p s) (hrf : rf.Conventional) {slot : Register}
    (hslot : Register.slot? s.slots = some slot) :
    Sound rf fixed (done ++ [i]) p
      { s with places := s.places.insert i.reg slot, slots := s.slots + 1 } := by
  have hold : ∀ j ∈ done, (s.places.insert i.reg slot).get? j.reg = s.places.get? j.reg :=
    fun j hj ↦ get?_insert_of_mem hfresh s.places slot hj
  constructor
  · intro a ha
    obtain ⟨hdone, hplace, hel⟩ := h.active a ha
    exact ⟨List.mem_append_left _ hdone, (hold _ hdone).trans hplace, hel⟩
  · exact h.nodup
  · exact h.placed_insert i slot
  · intro j hj r hr
    rcases List.mem_append.1 hj with hj | hj
    · replace hr : s.places.get? j.reg = some r := (hold j hj).symm.trans hr
      refine (h.place j hj r hr).imp_left ?_
      rintro ⟨n, hn, hn'⟩
      exact ⟨n, Nat.lt_succ_of_lt hn, hn'⟩
    · rcases List.mem_singleton.1 hj with rfl
      rw [RegisterMap.get?_insert, if_pos rfl] at hr
      cases hr
      exact Or.inl ⟨s.slots, Nat.lt_succ_self _, hslot⟩
  · exact h.slot_inj_insert hrf hslot i.reg
  · intro j hj k hk hne r hr hrj hrk
    -- the next interval has no register, so both are intervals from before
    have hmem : ∀ m ∈ done ++ [i], i.reg ≠ m.reg → m ∈ done := by
      intro m hm hmi
      rcases List.mem_append.1 hm with hm | hm
      · exact hm
      · exact absurd (congrArg Interval.reg (List.mem_singleton.1 hm)).symm hmi
    obtain ⟨hij, hrj⟩ := get?_of_insert_slot hslot hr hrj
    obtain ⟨hik, hrk⟩ := get?_of_insert_slot hslot hr hrk
    exact h.disjoint j (hmem j hj hij) k (hmem k hk hik) hne r hr hrj hrk

/-- The next interval may have any eligible register that nobody holds: whoever had it before is
over where the interval starts. -/
theorem Sound.activate (h : Sound rf fixed done p s) (hrf : rf.Conventional) {r : Register}
    (halloc : r ∈ rf.allocatable) (hel : eligible rf fixed r i) (hheld : ¬ s.isHeld r)
    (hstart : i.range.start = p) :
    Sound rf fixed (done ++ [i]) p
      { s with active := s.active ++ [⟨i, r⟩], places := s.places.insert i.reg r } := by
  have hphys := isPhysical_of_eligible hrf hel
  have hold : ∀ j ∈ done, (s.places.insert i.reg r).get? j.reg = s.places.get? j.reg :=
    fun j hj ↦ get?_insert_of_mem hfresh s.places r hj
  have hnew : (s.places.insert i.reg r).get? i.reg = some r := by
    rw [RegisterMap.get?_insert, if_pos rfl]
  have hover : ∀ j ∈ done, s.places.get? j.reg = some r → ¬ j.overlaps i :=
    fun j hj hjr ↦ h.not_overlaps_of_not_isHeld hphys hheld hstart hj hjr
  constructor
  · intro a ha
    rcases List.mem_append.1 ha with ha | ha
    · obtain ⟨hdone, hplace, hel⟩ := h.active a ha
      exact ⟨List.mem_append_left _ hdone, (hold _ hdone).trans hplace, hel⟩
    · rcases List.mem_singleton.1 ha with rfl
      exact ⟨by simp, hnew, hel⟩
  · rw [List.map_append, List.map_singleton]
    refine h.nodup.append (List.nodup_singleton _) ?_
    intro r' hr' hmem
    rcases List.mem_singleton.1 hmem with rfl
    exact hheld (isHeld_iff.2 hr')
  · exact h.placed_insert i r
  · intro j hj r' hr'
    rcases List.mem_append.1 hj with hj | hj
    · rcases h.place j hj r' ((hold j hj).symm.trans hr') with hslot | ⟨halloc, hel, hheld⟩
      · exact Or.inl hslot
      · exact Or.inr ⟨halloc, hel, hheld.imp_left (List.mem_append_left _)⟩
    · rcases List.mem_singleton.1 hj with rfl
      cases hnew.symm.trans hr'
      exact Or.inr ⟨halloc, hel, Or.inl (by simp)⟩
  · intro v w r' hr' hv hw
    have hne : ∀ u, (s.places.insert i.reg r).get? u = some r' → s.places.get? u = some r' := by
      intro u hu
      rw [RegisterMap.get?_insert] at hu
      split at hu
      · cases hu
        exact absurd hr' (Register.not_isStackSlot_of_isPhysical hphys)
      · exact hu
    exact h.slot_inj v w r' hr' (hne v hv) (hne w hw)
  · intro j hj k hk hne r' hr' hrj hrk
    -- two intervals from before were apart already, so one of the two is the next interval
    rcases List.mem_append.1 hj with hjd | hji
    · have hjr := (hold j hjd).symm.trans hrj
      rcases List.mem_append.1 hk with hkd | hki
      · exact h.disjoint j hjd k hkd hne r' hr' hjr ((hold k hkd).symm.trans hrk)
      · rcases List.mem_singleton.1 hki with rfl
        cases hnew.symm.trans hrk
        exact hover j hjd hjr
    · rcases List.mem_singleton.1 hji with rfl
      rcases List.mem_append.1 hk with hkd | hki
      · cases hnew.symm.trans hrj
        rw [Interval.overlaps, LiveRange.overlaps_comm]
        exact hover k hkd ((hold k hkd).symm.trans hrk)
      · exact absurd (congrArg Interval.reg (List.mem_singleton.1 hki)).symm hne

end Next

/-! ### One step -/

/-- A fold that at each member takes the member or stays as it is ends at a member or at its
start. -/
theorem mem_of_foldl_eq_some {f : Option Active → Active → Option Active}
    (hf : ∀ best b, f best b = some b ∨ f best b = best) {l : List Active} {best : Option Active}
    {a : Active} (h : l.foldl f best = some a) : a ∈ l ∨ best = some a := by
  induction l generalizing best with
  | nil => exact Or.inr h
  | cons b rest ih =>
    rw [List.foldl_cons] at h
    rcases ih h with hmem | hbest
    · exact Or.inl (List.mem_cons_of_mem _ hmem)
    · rcases hf best b with heq | heq
      · rw [heq] at hbest
        cases hbest
        exact Or.inl List.mem_cons_self
      · exact Or.inr (heq ▸ hbest)

theorem mem_of_longest? {l : List Active} {a : Active} (h : longest? l = some a) : a ∈ l := by
  refine (mem_of_foldl_eq_some ?_ h).resolve_right (Option.some_ne_none a).symm
  intro best b
  cases best with
  | none => exact Or.inl rfl
  | some c =>
    by_cases hlonger : outlives b c
    · exact Or.inl (if_pos hlonger)
    · exact Or.inr (if_neg hlonger)

/-- The interval that gives way is an active one, and its register is one that the next interval
may have. -/
theorem mem_of_victim? {i : Interval} {a : Active} (h : victim? rf fixed s i = some a) :
    a ∈ s.active ∧ eligible rf fixed a.reg i := by
  have hmem := List.mem_filter.1 (mem_of_longest? h)
  exact ⟨hmem.1, ((Bool.and_eq_true _ _).mp hmem.2).2⟩

/-- The free register is an allocatable one that nobody holds. -/
theorem mem_of_freeRegister? {i : Interval} {r : Register}
    (h : freeRegister? rf fixed s i = some r) :
    r ∈ rf.allocatable ∧ ¬ s.isHeld r ∧ eligible rf fixed r i := by
  have hpred := List.find?_some h
  rw [Bool.and_eq_true, Bool.not_eq_true'] at hpred
  exact ⟨List.mem_of_find?_eq_some h, by simp [hpred.1], hpred.2⟩

/-- While there are slots, the next one is handed out. -/
theorem newSlot_eq {slot : Register} (h : Register.slot? s.slots = some slot) :
    s.newSlot = .ok (slot, { s with slots := s.slots + 1 }) := by
  rw [newSlot, Register.slot, h]
  rfl

/-- A register that is not held can be taken. -/
theorem activate_eq {i : Interval} {r : Register} (h : ¬ s.isHeld r) :
    s.activate i r =
      .ok { s with active := s.active ++ [⟨i, r⟩], places := s.places.insert i.reg r } := by
  rw [Scan.activate, if_neg h]

/-- Held registers are among those to hand out. -/
theorem Sound.mem_allocatable (h : Sound rf fixed done p s) (hrf : rf.Conventional) {a : Active}
    (ha : a ∈ s.active) : a.reg ∈ rf.allocatable := by
  obtain ⟨hdone, hplace, hel⟩ := h.active a ha
  rcases h.place _ hdone _ hplace with ⟨n, -, hn⟩ | ⟨halloc, -⟩
  · exact absurd (Register.isStackSlot_slot? hn)
      (Register.not_isStackSlot_of_isPhysical (isPhysical_of_eligible hrf hel))
  · exact halloc

theorem newSlot_error (h : Register.slot? s.slots = none) : s.newSlot = .error .slotRange := by
  rw [newSlot, Register.slot, h]
  rfl

/-- **What a step of the scan can do**, if the next interval starts no earlier than the scan
stands: it keeps the invariant, or there was no stack slot left for it. In particular it never
finds the register that it hands out to be held. -/
theorem Sound.step_cases (h : Sound rf fixed done p s) (hrf : rf.Conventional) {i : Interval}
    (hfresh : ∀ j ∈ done, j.reg ≠ i.reg) (hp : p ≤ i.range.start) :
    (∃ s', step rf fixed s i = .ok s' ∧ Sound rf fixed (done ++ [i]) i.range.start s' ∧
      s'.slots ≤ s.slots + 1) ∨
    step rf fixed s i = .error .slotRange ∧ Register.slot? s.slots = none := by
  have hexp := h.expire hp
  rcases hfree : freeRegister? rf fixed (s.expire i.range.start) i with - | r
  · rcases hslot : Register.slot? (s.expire i.range.start).slots with - | slot
    · -- whoever gives way needs a stack slot, and there is none
      refine Or.inr ⟨?_, hslot⟩
      simp only [step, hfree]
      split
      · rw [evict, newSlot_error hslot]
        rfl
      · rw [Scan.spill, newSlot_error hslot]
        rfl
    refine Or.inl ?_
    rcases hvictim : victim? rf fixed (s.expire i.range.start) i with - | a
    · -- the interval goes to a stack slot
      refine ⟨_, ?_, (hexp.spill hfresh hrf hslot).note (.spilled i slot), Nat.le_refl _⟩
      simp only [step, hfree, hvictim]
      rw [Scan.spill, newSlot_eq hslot]
      rfl
    · -- an active interval gives way
      obtain ⟨ha, hel⟩ := mem_of_victim? hvictim
      have hdem := (hexp.demote hrf ha hslot).note (.evicted a.interval slot i.reg)
      -- no other active interval held its register
      have hheld : ¬ (((s.expire i.range.start).demote a slot).note
          (.evicted a.interval slot i.reg)).isHeld a.reg := by
        intro hheld
        obtain ⟨b, hb, hreg⟩ := List.mem_map.1 (isHeld_iff.1 hheld)
        have hb' := (List.Nodup.of_map _ hexp.nodup).mem_erase_iff.1 hb
        exact hb'.1 (hexp.active_ext hb'.2 ha hreg)
      refine ⟨_, ?_, hdem.activate hfresh hrf (hexp.mem_allocatable hrf ha) hel hheld rfl,
        Nat.le_refl _⟩
      simp only [step, hfree, hvictim]
      rw [evict, newSlot_eq hslot]
      exact activate_eq hheld
  · -- a register is free
    obtain ⟨halloc, hheld, hel⟩ := mem_of_freeRegister? hfree
    refine Or.inl ⟨_, ?_, (hexp.note (.assigned i r)).activate hfresh hrf halloc hel hheld rfl,
      Nat.le_succ _⟩
    simp only [step, hfree]
    exact activate_eq hheld

/-! ### The whole scan -/

/-- The invariant as it is carried along a list of intervals: the scan stands at the start of the
last interval that is done, and has handed out at most one stack slot for each. -/
def SoundUpTo (rf : RegisterFile) (fixed done : List Interval) (s : Scan) : Prop :=
  ∃ p, Sound rf fixed done p s ∧ s.slots ≤ done.length ∧ (p = 0 ∨ ∃ j ∈ done, p = j.range.start)

theorem soundUpTo_nil : SoundUpTo rf fixed [] {} := ⟨0, sound_empty, Nat.le_refl _, Or.inl rfl⟩

section Order

variable {i : Interval} {rest : List Interval}

/-- The intervals that are done start no later than the next one. -/
theorem start_le_of_pairwise
    (h : (done ++ i :: rest).Pairwise fun a b ↦ a.range.start ≤ b.range.start) :
    ∀ j ∈ done, j.range.start ≤ i.range.start :=
  fun j hj ↦ (List.pairwise_append.1 h).2.2 j hj i (by simp)

/-- The next interval has a register of its own. -/
theorem reg_ne_of_nodup (h : ((done ++ i :: rest).map (·.reg)).Nodup) :
    ∀ j ∈ done, j.reg ≠ i.reg := by
  rw [List.map_append] at h
  exact fun j hj ↦ (List.nodup_append.1 h).2.2 j.reg (List.mem_map_of_mem hj) i.reg (by simp)

/-- The scan has not passed the next interval. -/
theorem SoundUpTo.exists_sound (h : SoundUpTo rf fixed done s)
    (hsorted : (done ++ i :: rest).Pairwise fun a b ↦ a.range.start ≤ b.range.start) :
    ∃ p, Sound rf fixed done p s ∧ s.slots ≤ done.length ∧ p ≤ i.range.start := by
  obtain ⟨p, hsound, hslots, rfl | ⟨j, hj, rfl⟩⟩ := h
  · exact ⟨0, hsound, hslots, Nat.zero_le _⟩
  · exact ⟨_, hsound, hslots, start_le_of_pairwise hsorted j hj⟩

end Order

section Run

variable {l : List Interval} (hrf : rf.Conventional)
  (hsorted : l.Pairwise fun a b ↦ a.range.start ≤ b.range.start)
  (hnodup : (l.map (·.reg)).Nodup)

include hrf hsorted hnodup

/-- **A step keeps the invariant**, or fails because there is no stack slot left. -/
theorem SoundUpTo.step_cases {rest : List Interval} {i : Interval} (hl : l = done ++ i :: rest)
    (h : SoundUpTo rf fixed done s) :
    (∃ s', step rf fixed s i = .ok s' ∧ SoundUpTo rf fixed (done ++ [i]) s') ∨
      step rf fixed s i = .error .slotRange ∧ Register.slot? s.slots = none := by
  subst hl
  obtain ⟨p, hsound, hslots, hle⟩ := h.exists_sound hsorted
  refine (hsound.step_cases hrf (reg_ne_of_nodup hnodup) hle).imp_left ?_
  rintro ⟨s', hstep, hsound', hslots'⟩
  refine ⟨s', hstep, i.range.start, hsound', ?_, Or.inr ⟨i, by simp, rfl⟩⟩
  rw [List.length_append, List.length_singleton]
  omega

/-- **How a scan ends**: in its invariant, or at an interval for which there was no stack slot left.
Up to there it also keeps whatever its steps keep. -/
theorem run_cases (fixed : List Interval) (P : List Interval → Scan → Prop) (hnil : P [] {})
    (hstep : ∀ done i rest s s', l = done ++ i :: rest → SoundUpTo rf fixed done s → P done s →
      step rf fixed s i = .ok s' → P (done ++ [i]) s') :
    (∃ s, run rf fixed l = .ok s ∧ SoundUpTo rf fixed l s ∧ P l s) ∨
      ∃ done i rest s, l = done ++ i :: rest ∧ SoundUpTo rf fixed done s ∧ P done s ∧
        step rf fixed s i = .error .slotRange ∧ Register.slot? s.slots = none ∧
        run rf fixed l = .error .slotRange := by
  have hcases := foldlM_cases (f := step rf fixed) (l := l) (b := {})
    (fun done s ↦ SoundUpTo rf fixed done s ∧ P done s) ?_ ⟨soundUpTo_nil, hnil⟩
  · refine hcases.imp_right ?_
    rintro ⟨done, i, rest, s, e, hl, ⟨hsound, hP⟩, herror, hrun⟩
    rcases hsound.step_cases hrf hsorted hnodup hl with ⟨s', hok, -⟩ | ⟨herror', hnone⟩
    · cases hok.symm.trans herror
    · cases herror.symm.trans herror'
      exact ⟨done, i, rest, s, hl, hsound, hP, herror, hnone, hrun⟩
  · rintro done i rest s s' hl ⟨hsound, hP⟩ hok
    refine ⟨?_, hstep done i rest s s' hl hsound hP hok⟩
    rcases hsound.step_cases hrf hsorted hnodup hl with ⟨s'', hok', hsound'⟩ | ⟨herror, -⟩
    · cases hok.symm.trans hok'
      exact hsound'
    · cases hok.symm.trans herror

/-- **A scan ends in the invariant**, if it succeeds. -/
theorem soundUpTo_of_run (hrun : run rf fixed l = .ok s) : SoundUpTo rf fixed l s := by
  rcases run_cases hrf hsorted hnodup fixed (fun _ _ ↦ True) trivial
    (fun _ _ _ _ _ _ _ _ _ ↦ trivial) with ⟨s', hrun', hsound, -⟩ |
    ⟨-, -, -, -, -, -, -, -, -, herror⟩
  · cases hrun.symm.trans hrun'
    exact hsound
  · cases hrun.symm.trans herror

/-- **A scan succeeds** if there are stack slots enough. -/
theorem exists_run (fixed : List Interval) (hlen : l.length ≤ Nat.pow 2 30) :
    ∃ s, run rf fixed l = .ok s ∧ SoundUpTo rf fixed l s := by
  rcases run_cases hrf hsorted hnodup fixed (fun _ _ ↦ True) trivial
    (fun _ _ _ _ _ _ _ _ _ ↦ trivial) with ⟨s, hrun, hsound, -⟩ |
    ⟨done, i, rest, s, rfl, ⟨-, -, hslots, -⟩, -, -, hnone, -⟩
  · exact ⟨s, hrun, hsound⟩
  · -- no more slots than intervals have been handed out, so one is left
    rw [List.length_append, List.length_cons] at hlen
    have hle := Register.le_of_slot?_eq_none hnone
    omega

end Run

end Scan

end MachineCode

import MachineCode.Proofs.CallSafety
import MachineCode.Proofs.StackSlots
import Mathlib.Data.Finset.Order
import Mathlib.Data.List.Count
import Mathlib.Order.Bounds.Basic

/-!
# The allocator spills as little as possible

A set of virtual registers *relieves* the register file if, with the registers of the set in memory,
the others can be kept in registers as far as counting goes: at no program point are there more
ranges across calls than callee-saved registers to hand out, or more other ranges than caller-saved
ones (`Liveness.Relieves`). Where the code does not use the registers that are handed out itself,
the registers that the allocator spills are such a set (`Liveness.relieves_spilledBy`), and there is
no smaller one (`Liveness.allocate_minimal`).

The lower bound is an invariant of the scan, for an arbitrary set `S` that relieves
(`Scan.Frugal`). For points `t` from which on the future is looked at, one for each saving class,
the scan has handed out no more slots than there are intervals in `S` or still alive at `t`, less
those that it keeps in registers and that are alive at `t`. For a late `t` nothing is alive, and the
slots are at most as many as the members of `S`. The invariant is stated for all `t`, because an
eviction is paid for at another `t` than the one that is asked about: if nothing of the class of the
next interval is alive at `t`, then the invariant is used at the start of that interval, where the
scan keeps as many intervals as there are registers and `S` can leave room for one less
(`Scan.Frugal.crowded`).
-/

namespace MachineCode

/-! ### Counting -/

section Counting

variable {α : Type} {l : List α} {p q r : α → Bool}

/-- A count is at most the counts of two conditions that cover it. -/
theorem countP_le_add (h : ∀ a ∈ l, p a → q a ∨ r a) : l.countP p ≤ l.countP q + l.countP r := by
  induction l with
  | nil => simp
  | cons a l ih =>
    obtain ⟨ha, hl⟩ := List.forall_mem_cons.1 h
    have := ih hl
    simp only [List.countP_cons]
    grind

/-- The counts of two conditions that exclude each other are together at most that of a weaker one.
-/
theorem countP_add_le (hp : ∀ a ∈ l, p a → r a) (hq : ∀ a ∈ l, q a → r a)
    (hpq : ∀ a ∈ l, p a → ¬ q a) : l.countP p + l.countP q ≤ l.countP r := by
  induction l with
  | nil => simp
  | cons a l ih =>
    obtain ⟨hp, hp'⟩ := List.forall_mem_cons.1 hp
    obtain ⟨hq, hq'⟩ := List.forall_mem_cons.1 hq
    obtain ⟨hpq, hpq'⟩ := List.forall_mem_cons.1 hpq
    have := ih hp' hq' hpq'
    simp only [List.countP_cons]
    grind

end Counting

/-- The registers to hand out for ranges across calls, or for the other ranges. -/
def RegisterFile.pool (rf : RegisterFile) (across : Bool) : Finset Register :=
  rf.allocatable.toFinset.filter fun r ↦
    if across then rf.isCalleeSaved r else rf.isCallerSaved r

namespace Liveness

/-- The virtual registers of a record. -/
def vregs (l : Liveness) : Finset Register := (l.virtualRegisters.map (·.1)).toFinset

/-- The virtual registers that are live at `p`, in a range across a call or in another range. -/
def liveAt (l : Liveness) (across : Bool) (p : Nat) : Finset Register :=
  l.vregs.filter fun v ↦ (l.ranges v).any fun x ↦ x.contains p && x.acrossCall == across

/-- With the registers `S` in memory, there are registers enough at every point. -/
def Relieves (l : Liveness) (rf : RegisterFile) (S : Finset Register) : Prop :=
  ∀ p across, (l.liveAt across p \ S).card ≤ (rf.pool across).card

end Liveness

namespace Scan

variable {rf : RegisterFile} {fixed done : List Interval} {p : Nat} {s s' : Scan} {i : Interval}
  {S : Finset Register}

/-! ### Whoever gives way ends last -/

/-- The longest of a list is found by comparing the first two and going on with the longer one. -/
theorem longest?_cons_cons (b c : Active) (l : List Active) :
    longest? (b :: c :: l) = longest? ((if outlives c b then c else b) :: l) := by
  simp only [longest?, List.foldl_cons]
  split <;> rfl

/-- No interval of the list stops later than the longest one. -/
theorem stop_le_of_longest? {l : List Active} {a : Active} (h : longest? l = some a) :
    ∀ b ∈ l, b.interval.range.stop ≤ a.interval.range.stop := by
  cases l with
  | nil => exact nofun
  | cons b l =>
    induction l generalizing b with
    | nil =>
      cases h
      simp
    | cons c l ih =>
      rw [longest?_cons_cons] at h
      obtain ⟨hlonger, hl⟩ := List.forall_mem_cons.1 (ih _ h)
      have hbc : b.interval.range.stop ≤ a.interval.range.stop ∧
          c.interval.range.stop ≤ a.interval.range.stop := by
        split at hlonger <;> rename_i hout <;> rw [outlives, decide_eq_true_eq] at hout <;> omega
      exact List.forall_mem_cons.2 ⟨hbc.1, List.forall_mem_cons.2 ⟨hbc.2, hl⟩⟩

theorem longest?_eq_none {l : List Active} (h : longest? l = none) : l = [] := by
  cases l with
  | nil => rfl
  | cons b l =>
    induction l generalizing b with
    | nil => cases h
    | cons c l ih =>
      rw [longest?_cons_cons] at h
      cases ih _ h

/-- The interval that gives way ends after the next one, and no earlier than any other whose
register the next one could take. -/
theorem stop_le_of_victim? {a : Active} (h : victim? rf fixed s i = some a) :
    i.range.stop < a.interval.range.stop ∧ ∀ b ∈ s.active, eligible rf fixed b.reg i →
      b.interval.range.stop ≤ a.interval.range.stop := by
  have hlonger : i.range.stop < a.interval.range.stop := by
    have hmem := (List.mem_filter.1 (mem_of_longest? h)).2
    rw [Bool.and_eq_true, decide_eq_true_eq] at hmem
    exact hmem.1
  refine ⟨hlonger, fun b hb hel ↦ ?_⟩
  rcases Nat.lt_or_ge i.range.stop b.interval.range.stop with hlt | hge
  · exact stop_le_of_longest? h b (List.mem_filter.2 ⟨hb, by simp [hlt, hel]⟩)
  · omega

/-- If nobody gives way, then the next interval ends no earlier than any whose register it could
take. -/
theorem stop_le_of_victim?_eq_none (h : victim? rf fixed s i = none) {b : Active}
    (hb : b ∈ s.active) (hel : eligible rf fixed b.reg i) :
    b.interval.range.stop ≤ i.range.stop := by
  rcases Nat.lt_or_ge i.range.stop b.interval.range.stop with hlt | hge
  · have hmem : b ∈ s.active.filter fun a ↦
        decide (i.range.stop < a.interval.range.stop) && eligible rf fixed a.reg i :=
      List.mem_filter.2 ⟨hb, by simp [hlt, hel]⟩
    rw [longest?_eq_none h] at hmem
    cases hmem
  · exact hge

/-! ### Saving classes -/

/-- A register is in the pool of a class if it can be handed out and has that class. -/
theorem mem_pool {r : Register} {across : Bool} : r ∈ rf.pool across ↔
    r ∈ rf.allocatable ∧ if across then rf.isCalleeSaved r else rf.isCallerSaved r := by
  cases across <;> simp [RegisterFile.pool]

/-- No interval of the code itself is in the way of the registers that are handed out. -/
def Unfixed (rf : RegisterFile) (fixed : List Interval) : Prop :=
  ∀ f ∈ fixed, f.reg ∉ rf.allocatable

/-- Then a register is eligible if it has the right saving class. -/
theorem Unfixed.eligible_iff (h : Unfixed rf fixed) {r : Register} (hr : r ∈ rf.allocatable) :
    eligible rf fixed r i ↔ r ∈ rf.pool i.range.acrossCall := by
  rw [Scan.eligible_iff, mem_pool]
  refine ⟨fun hel ↦ ⟨hr, hel.1⟩, fun hpool ↦ ⟨hpool.2, ?_⟩⟩
  rintro f hf rfl
  exact absurd hr (h f hf)

/-- A register serves ranges across calls, or other ranges, but not both. -/
theorem acrossCall_eq_of_class (hrf : rf.Conventional) {r : Register} {b c : Bool}
    (hb : (if b then rf.isCalleeSaved r else rf.isCallerSaved r) = true)
    (hc : (if c then rf.isCalleeSaved r else rf.isCallerSaved r) = true) : b = c := by
  cases b <;> cases c
  · rfl
  · exact absurd hc (hrf.disjoint hb)
  · exact absurd hb (hrf.disjoint hc)
  · rfl

/-- The two pools have no register in common. -/
theorem acrossCall_eq_of_mem_pool (hrf : rf.Conventional) {r : Register} {b c : Bool}
    (hb : r ∈ rf.pool b) (hc : r ∈ rf.pool c) : b = c :=
  acrossCall_eq_of_class hrf (mem_pool.1 hb).2 (mem_pool.1 hc).2

/-- So two intervals that may have the same register have the same class. -/
theorem acrossCall_eq_of_eligible (hrf : rf.Conventional) {r : Register} {j : Interval}
    (hi : eligible rf fixed r i) (hj : eligible rf fixed r j) :
    i.range.acrossCall = j.range.acrossCall :=
  acrossCall_eq_of_class hrf (eligible_iff.1 hi).1 (eligible_iff.1 hj).1

/-- If no register is free for the next interval, then as many intervals of its class are active as
there are registers that it may have. -/
theorem Sound.card_le_countP (hrf : rf.Conventional) (hsound : Sound rf fixed done p s)
    (hfree : freeRegister? rf fixed s i = none) {F : Finset Register}
    (hF : ∀ r ∈ F, r ∈ rf.allocatable ∧ eligible rf fixed r i) :
    F.card ≤ s.active.countP fun a ↦ a.interval.range.acrossCall == i.range.acrossCall := by
  have hsub : F ⊆ ((s.active.filter fun a ↦
      a.interval.range.acrossCall == i.range.acrossCall).map (·.reg)).toFinset := by
    intro r hr
    obtain ⟨halloc, hel⟩ := hF r hr
    have hheld : s.isHeld r := by
      have := List.find?_eq_none.1 hfree r halloc
      simpa [hel] using this
    obtain ⟨a, ha, rfl⟩ := List.mem_map.1 (isHeld_iff.1 hheld)
    have hclass := acrossCall_eq_of_eligible hrf (hsound.active a ha).2.2 hel
    exact List.mem_toFinset.2 (List.mem_map_of_mem (List.mem_filter.2 ⟨ha, beq_iff_eq.2 hclass⟩))
  calc F.card
      ≤ ((s.active.filter fun a ↦ a.interval.range.acrossCall == i.range.acrossCall).map
          (·.reg)).length := (Finset.card_le_card hsub).trans (List.toFinset_card_le _)
    _ = s.active.countP fun a ↦ a.interval.range.acrossCall == i.range.acrossCall := by
        rw [List.length_map, List.countP_eq_length_filter]

section Classes

variable (hrf : rf.Conventional) (hfixed : Unfixed rf fixed) (hsound : Sound rf fixed done p s)

include hrf hfixed hsound

/-- A held register is from the pool of its interval. -/
theorem Sound.mem_pool {a : Active} (ha : a ∈ s.active) :
    a.reg ∈ rf.pool a.interval.range.acrossCall :=
  (hfixed.eligible_iff (hsound.mem_allocatable hrf ha)).1 (hsound.active a ha).2.2

/-- The next interval could take exactly the registers of the active intervals of its class. -/
theorem Sound.eligible_active_iff {a : Active} (ha : a ∈ s.active) :
    eligible rf fixed a.reg i ↔ a.interval.range.acrossCall = i.range.acrossCall := by
  have hpool := hsound.mem_pool hrf hfixed ha
  rw [hfixed.eligible_iff (hsound.mem_allocatable hrf ha)]
  exact ⟨acrossCall_eq_of_mem_pool hrf hpool, fun heq ↦ heq ▸ hpool⟩

/-- If no register is free for the next interval, then as many intervals of its class are active as
there are registers for it. -/
theorem Sound.card_pool_le (hfree : freeRegister? rf fixed s i = none) :
    (rf.pool i.range.acrossCall).card ≤
      s.active.countP fun a ↦ a.interval.range.acrossCall == i.range.acrossCall := by
  refine hsound.card_le_countP hrf hfree fun r hr ↦ ?_
  have halloc := (Scan.mem_pool.1 hr).1
  exact ⟨halloc, (hfixed.eligible_iff halloc).2 hr⟩

end Classes

/-! ### The lower bound -/

/-- With the registers `S` in memory, there are registers enough for the intervals of a list. -/
def Roomy (rf : RegisterFile) (l : List Interval) (S : Finset Register) : Prop :=
  ∀ p across, (l.countP fun i ↦
    i.range.contains p && i.range.acrossCall == across && i.reg ∉ S) ≤ (rf.pool across).card

/-- The interval is alive at the point `t` for its class. -/
def late (t : Bool → Nat) (i : Interval) : Bool := t i.range.acrossCall < i.range.stop

theorem late_iff {t : Bool → Nat} : late t i ↔ t i.range.acrossCall < i.range.stop := by
  simp [late]

/-- The slots that were handed out and the active intervals that are alive at `t` are together no
more than the intervals that are in `S` or alive at `t`, for all points `t` that the scan has not
yet passed. -/
def Frugal (S : Finset Register) (done : List Interval) (s : Scan) : Prop :=
  ∀ t : Bool → Nat, (∀ j ∈ done, ∀ b, j.range.start ≤ t b) →
    s.slots + (s.active.countP fun a ↦ late t a.interval) ≤
      done.countP fun j ↦ decide (j.reg ∈ S) || late t j

/-- What expires is not alive later. -/
theorem countP_late_expire {t : Bool → Nat} {q : Nat} (ht : ∀ b, q ≤ t b) :
    ((s.expire q).active.countP fun a ↦ late t a.interval) =
      s.active.countP fun a ↦ late t a.interval := by
  show (s.active.filter _).countP _ = _
  rw [List.countP_filter]
  congr 1
  funext a
  have := ht a.interval.range.acrossCall
  rw [Bool.eq_iff_iff, Bool.and_eq_true, late_iff, decide_eq_true_eq]
  omega

/-- There is a point from which on nothing starts or is alive. -/
theorem exists_after (l : List Interval) :
    ∃ B, ∀ j ∈ l, j.range.start ≤ B ∧ j.range.stop ≤ B := by
  obtain ⟨B, hB⟩ := (l.map fun j ↦ max j.range.start j.range.stop).toFinset.exists_le
  refine ⟨B, fun j hj ↦ ?_⟩
  have := hB _ (List.mem_toFinset.2 (List.mem_map_of_mem hj))
  omega

/-- At the end no interval is alive any more. -/
theorem countP_or_late {l : List Interval} {B : Nat} (hB : ∀ j ∈ l, j.range.stop ≤ B) :
    (l.countP fun j ↦ decide (j.reg ∈ S) || late (fun _ ↦ B) j) =
      l.countP fun j ↦ j.reg ∈ S := by
  refine List.countP_congr fun j hj ↦ ?_
  have hlate : late (fun _ ↦ B) j = false := by simpa [late] using hB j hj
  rw [hlate, Bool.or_false]

/-- At the end no more slots were handed out than there are intervals in `S`. -/
theorem Frugal.slots_le (h : Frugal S done s) : s.slots ≤ done.countP fun j ↦ j.reg ∈ S := by
  obtain ⟨B, hB⟩ := exists_after done
  have hbound := h (fun _ ↦ B) fun j hj _ ↦ (hB j hj).1
  rw [countP_or_late fun j hj ↦ (hB j hj).2] at hbound
  exact Nat.le_trans (Nat.le_add_right _ _) hbound

section Step

variable {rest : List Interval} (h : Frugal S done s) (hroomy : Roomy rf (done ++ i :: rest) S)
  (hstart : ∀ j ∈ done, j.range.start ≤ i.range.start) (hpoint : i.range.start < i.range.stop)

include h hroomy hstart hpoint

/-- **An eviction is needed**: if all registers for the class of `i` are held, and nothing of that
class is alive at `t`, then a set that does without `i` has paid for the next slot already. -/
theorem Frugal.crowded (hi : i.reg ∉ S)
    (hfull : (rf.pool i.range.acrossCall).card ≤ (s.expire i.range.start).active.countP fun a ↦
      a.interval.range.acrossCall == i.range.acrossCall)
    {t : Bool → Nat} (ht : ∀ b, i.range.start ≤ t b)
    (hover : ∀ a ∈ (s.expire i.range.start).active,
      a.interval.range.acrossCall = i.range.acrossCall →
        a.interval.range.stop ≤ t i.range.acrossCall) :
    s.slots + 1 + ((s.expire i.range.start).active.countP fun a ↦ late t a.interval) ≤
      done.countP fun j ↦ decide (j.reg ∈ S) || late t j := by
  -- look at the class of the interval from its start on
  let u : Bool → Nat := Function.update t i.range.acrossCall i.range.start
  have hself : u i.range.acrossCall = i.range.start := Function.update_self _ _ _
  have hother : ∀ b, b ≠ i.range.acrossCall → u b = t b :=
    fun b hb ↦ Function.update_of_ne hb _ _
  have hu : ∀ b, i.range.start ≤ u b ∧ u b ≤ t b := by
    intro b
    by_cases hb : b = i.range.acrossCall
    · rw [hb, hself]
      exact ⟨Nat.le_refl _, ht _⟩
    · rw [hother b hb]
      exact ⟨ht b, Nat.le_refl _⟩
  have hbound := h u fun j hj b ↦ Nat.le_trans (hstart j hj) (hu b).1
  rw [← countP_late_expire fun b ↦ (hu b).1] at hbound
  -- there all active intervals of the class are alive
  have hactive : ((s.expire i.range.start).active.countP fun a ↦ late t a.interval) +
      ((s.expire i.range.start).active.countP fun a ↦
        a.interval.range.acrossCall == i.range.acrossCall) ≤
      (s.expire i.range.start).active.countP fun a ↦ late u a.interval := by
    refine countP_add_le (fun a ha hlate ↦ ?_) (fun a ha hclass ↦ ?_) fun a ha hlate hclass ↦ ?_
    · rw [late_iff] at hlate ⊢
      exact Nat.lt_of_le_of_lt (hu _).2 hlate
    · rw [late_iff, beq_iff_eq.1 hclass, hself]
      exact (mem_active_expire.1 ha).2
    · rw [beq_iff_eq] at hclass
      rw [late_iff, hclass] at hlate
      exact absurd hlate (Nat.not_lt.2 (hover a ha hclass))
  -- and what is alive there in addition, outside of `S`, is live together with `i`
  have hdone : (done.countP fun j ↦ decide (j.reg ∈ S) || late u j) ≤
      (done.countP fun j ↦ decide (j.reg ∈ S) || late t j) + done.countP fun j ↦
        j.range.contains i.range.start && j.range.acrossCall == i.range.acrossCall &&
          j.reg ∉ S := by
    refine countP_le_add fun j hj hlate ↦ ?_
    simp only [Bool.or_eq_true, Bool.and_eq_true, decide_eq_true_eq, late_iff, beq_iff_eq,
      LiveRange.contains_iff] at hlate ⊢
    by_cases hclass : j.range.acrossCall = i.range.acrossCall
    · rw [hclass, hself] at hlate
      have := hstart j hj
      grind
    · rw [hother _ hclass] at hlate
      exact Or.inl hlate
  have hcrowd := hroomy i.range.start i.range.acrossCall
  rw [List.countP_append, List.countP_cons_of_pos (by simp [hi, LiveRange.contains, hpoint])]
    at hcrowd
  omega

/-- **A slot more is paid for**, if it goes to an interval `x` of the class of `i` that ends last.
-/
theorem Frugal.give_way
    (hfull : (rf.pool i.range.acrossCall).card ≤ (s.expire i.range.start).active.countP fun a ↦
      a.interval.range.acrossCall == i.range.acrossCall)
    {x : Interval} (hx : x.range.acrossCall = i.range.acrossCall)
    (hlonger : i.range.stop ≤ x.range.stop)
    (hlast : ∀ a ∈ (s.expire i.range.start).active,
      a.interval.range.acrossCall = i.range.acrossCall → a.interval.range.stop ≤ x.range.stop)
    {t : Bool → Nat} (ht : ∀ b, i.range.start ≤ t b) :
    s.slots + 1 + ((s.expire i.range.start).active.countP fun a ↦ late t a.interval) +
        (if late t i then 1 else 0) ≤
      ((done ++ [i]).countP fun j ↦ decide (j.reg ∈ S) || late t j) +
        if late t x then 1 else 0 := by
  have hbound := h t fun j hj b ↦ Nat.le_trans (hstart j hj) (ht b)
  rw [← countP_late_expire ht] at hbound
  simp only [List.countP_append, List.countP_singleton, Bool.or_eq_true, decide_eq_true_eq]
  -- if the interval that goes to memory is alive at `t`, it counts on both sides
  by_cases hlate : late t x
  · grind
  · rw [late_iff, hx, Nat.not_lt] at hlate
    have hearly : ¬ late t i := by
      rw [late_iff]
      omega
    by_cases hi : i.reg ∈ S
    · grind
    · have hcrowded := h.crowded hroomy hstart hpoint hi hfull ht fun a ha hclass ↦
        Nat.le_trans (hlast a ha hclass) hlate
      grind

/-- **A step stays frugal.** -/
theorem Frugal.step (hrf : rf.Conventional) (hfixed : Unfixed rf fixed)
    (hsound : Sound rf fixed done p s) (hp : p ≤ i.range.start)
    (hstep : step rf fixed s i = .ok s') : Frugal S (done ++ [i]) s' := by
  intro t ht
  rw [List.forall_mem_append, List.forall_mem_singleton] at ht
  have hexp := hsound.expire hp
  rcases step_eq_ok hstep with ⟨r, -, hslots, hactive, -⟩ |
    ⟨hfree, hslots, slot, -, ⟨a, hvictim, hactive, -⟩ | ⟨hvictim, hactive, -⟩⟩
  · -- a register is free
    have hbound := h t ht.1
    rw [← countP_late_expire ht.2] at hbound
    rw [hslots, hactive]
    simp only [List.countP_append, List.countP_singleton, Bool.or_eq_true, decide_eq_true_eq]
    grind
  · -- an active interval gives way
    obtain ⟨ha, hel⟩ := mem_of_victim? hvictim
    obtain ⟨hlonger, hlast⟩ := stop_le_of_victim? hvictim
    rw [hexp.eligible_active_iff hrf hfixed ha] at hel
    have hpaid := h.give_way hroomy hstart hpoint (hexp.card_pool_le hrf hfixed hfree) hel
      (Nat.le_of_lt hlonger)
      (fun b hb hclass ↦ hlast b hb ((hexp.eligible_active_iff hrf hfixed hb).2 hclass)) ht.2
    have hpos : late t a.interval →
        0 < (_ : List Active).countP fun a ↦ late t a.interval := fun hlate ↦
      List.countP_pos_iff.2 ⟨a, ha, hlate⟩
    rw [hslots, hactive, List.countP_append, List.countP_singleton, List.countP_erase]
    grind
  · -- the interval itself goes to memory
    have hpaid := h.give_way hroomy hstart hpoint (hexp.card_pool_le hrf hfixed hfree) rfl
      (Nat.le_refl _) (fun b hb hclass ↦ stop_le_of_victim?_eq_none hvictim hb
        ((hexp.eligible_active_iff hrf hfixed hb).2 hclass)) ht.2
    rw [hslots, hactive]
    omega

/-- Where there is no free register, a slot more is at most as many as the members of `S`. -/
theorem Frugal.lt_countP (hfull : (rf.pool i.range.acrossCall).card ≤
      (s.expire i.range.start).active.countP fun a ↦
        a.interval.range.acrossCall == i.range.acrossCall)
    (hactive : ∀ a ∈ s.active, a.interval ∈ done) :
    s.slots < (done ++ [i]).countP fun j ↦ j.reg ∈ S := by
  obtain ⟨B, hB⟩ := exists_after (done ++ [i])
  have hi := hB i (by simp)
  -- an interval that ends where nothing is alive any more
  have hpaid := h.give_way hroomy hstart hpoint hfull (x := { i with range.stop := B }) rfl hi.2
    (fun a ha _ ↦ (hB _ (List.mem_append_left _ (hactive a (mem_active_expire.1 ha).1))).2)
    (t := fun _ ↦ B) fun _ ↦ hi.1
  rw [countP_or_late fun j hj ↦ (hB j hj).2, if_neg (c := late _ { i with range.stop := B })
    (by simp [late])] at hpaid
  omega

end Step

/-- **No set that relieves is smaller**: a scan hands out no more slots than the set has members,
and runs out of slots only if the set has more members than there are slots. -/
theorem run_frugal {l : List Interval} (hrf : rf.Conventional) (hfixed : Unfixed rf fixed)
    (hsorted : l.Pairwise fun a b ↦ a.range.start ≤ b.range.start)
    (hnodup : (l.map (·.reg)).Nodup) (hpoint : ∀ j ∈ l, j.range.start < j.range.stop)
    (hroomy : Roomy rf l S) :
    (∃ s, run rf fixed l = .ok s ∧ s.slots ≤ l.countP fun j ↦ j.reg ∈ S) ∨
      run rf fixed l = .error .slotRange ∧ Nat.pow 2 30 < l.countP fun j ↦ j.reg ∈ S := by
  have hcases := run_cases hrf hsorted hnodup fixed (Frugal S) (fun _ _ ↦ Nat.le_refl 0)
    fun done i rest s s' hl hup hfrugal hstep ↦ by
      obtain ⟨p, hsound, -, hp⟩ := hup.exists_sound (hl ▸ hsorted)
      exact hfrugal.step (hl ▸ hroomy) (start_le_of_pairwise (hl ▸ hsorted))
        (hpoint i (by simp [hl])) hrf hfixed hsound hp hstep
  rcases hcases with ⟨s, hrun, -, hfrugal⟩ |
    ⟨done, i, rest, s, hl, hup, hfrugal, hstep, hnone, hrun⟩
  · exact Or.inl ⟨s, hrun, hfrugal.slots_le⟩
  · refine Or.inr ⟨hrun, ?_⟩
    obtain ⟨p, hsound, -, hp⟩ := hup.exists_sound (hl ▸ hsorted)
    have hlt := hfrugal.lt_countP (hl ▸ hroomy) (start_le_of_pairwise (hl ▸ hsorted))
      (hpoint i (by simp [hl]))
      ((hsound.expire hp).card_pool_le hrf hfixed (freeRegister?_of_slotRange hstep))
      fun a ha ↦ (hsound.active a ha).1
    have hslots := Register.le_of_slot?_eq_none hnone
    have hle : ((done ++ [i]).countP fun j ↦ j.reg ∈ S) ≤ l.countP fun j ↦ j.reg ∈ S := by
      rw [hl, List.append_cons done i rest]
      exact (List.sublist_append_left _ _).countP_le
    omega

end Scan

namespace Liveness

variable {rf : RegisterFile} {l : Liveness} {a : Allocation} {S : Finset Register}

/-! ### Registers and their intervals -/

theorem mem_vregs {v : Register} :
    v ∈ l.vregs ↔ v.isVirtual ∧ ∃ rs, l.get? v = some rs := by
  simp only [vregs, List.mem_toFinset, List.mem_map]
  constructor
  · rintro ⟨⟨_, rs⟩, he, rfl⟩
    obtain ⟨hv, hrs⟩ := mem_virtualRegisters.1 he
    exact ⟨hv, rs, hrs⟩
  · rintro ⟨hv, rs, hrs⟩
    exact ⟨(v, rs), mem_virtualRegisters.2 ⟨hv, hrs⟩, rfl⟩

theorem mem_vregs_of_mem_ranges {v : Register} (hv : v.isVirtual) {x : LiveRange}
    (hx : x ∈ l.ranges v) : v ∈ l.vregs := by
  obtain ⟨rs, hrs, -⟩ := mem_ranges_iff.1 hx
  exact mem_vregs.2 ⟨hv, rs, hrs⟩

/-- A register is live at a point if one of its ranges contains it. -/
theorem mem_liveAt {across : Bool} {p : Nat} {v : Register} :
    v ∈ l.liveAt across p ↔
      v.isVirtual ∧ ∃ x ∈ l.ranges v, x.contains p ∧ x.acrossCall = across := by
  simp only [liveAt, Finset.mem_filter, List.any_eq_true, Bool.and_eq_true, beq_iff_eq]
  constructor
  · rintro ⟨hv, hx⟩
    exact ⟨(mem_vregs.1 hv).1, hx⟩
  · rintro ⟨hv, x, hx, hlive⟩
    exact ⟨mem_vregs_of_mem_ranges hv hx, x, hx, hlive⟩

/-- Virtual registers are counted by their intervals. -/
theorem WellFormed.countP_eq_card (hl : l.WellFormed) {q : Interval → Bool} {T : Finset Register}
    (hT : ∀ v, v ∈ T ↔ ∃ i ∈ l.virtualIntervals, q i ∧ i.reg = v) :
    l.virtualIntervals.countP q = T.card := by
  have hnodup : ((l.virtualIntervals.filter q).map (·.reg)).Nodup :=
    hl.nodup_virtualIntervals.sublist (List.filter_sublist.map _)
  have heq : ((l.virtualIntervals.filter q).map (·.reg)).toFinset = T := by
    ext v
    simp [hT, and_assoc]
  rw [List.countP_eq_length_filter, ← heq, List.toFinset_card_of_nodup hnodup, List.length_map]

/-- Intervals of virtual registers are counted by their registers. -/
theorem WellFormed.roomy_iff (hl : l.WellFormed) :
    Scan.Roomy rf l.virtualIntervals S ↔ l.Relieves rf S := by
  refine forall_congr' fun p ↦ forall_congr' fun across ↦ ?_
  rw [hl.countP_eq_card]
  intro v
  simp only [Finset.mem_sdiff, mem_liveAt, mem_virtualIntervals, Bool.and_eq_true, beq_iff_eq,
    decide_eq_true_eq]
  constructor
  · rintro ⟨⟨hv, x, hx, hlive⟩, hS⟩
    exact ⟨⟨v, x⟩, ⟨hv, hx⟩, ⟨hlive, hS⟩, rfl⟩
  · rintro ⟨i, ⟨hv, hx⟩, ⟨hlive, hS⟩, rfl⟩
    exact ⟨⟨hv, i.range, hx, hlive⟩, hS⟩

/-- No register has two intervals. -/
theorem WellFormed.countP_mem_le (hl : l.WellFormed) (S : Finset Register) :
    (l.virtualIntervals.countP fun i ↦ i.reg ∈ S) ≤ S.card := by
  rw [hl.countP_eq_card (T := S.filter fun v ↦ ∃ i ∈ l.virtualIntervals, i.reg = v)]
  · exact Finset.card_filter_le _ _
  · intro v
    simp only [Finset.mem_filter, decide_eq_true_eq]
    constructor
    · rintro ⟨hS, i, hi, rfl⟩
      exact ⟨i, hi, hS, rfl⟩
    · rintro ⟨i, hi, hS, rfl⟩
      exact ⟨hS, i, hi, rfl⟩

/-! ### The spilled registers -/

/-- The virtual registers that an allocation has put into stack slots. -/
def spilledBy (l : Liveness) (a : Allocation) : Finset Register :=
  l.vregs.filter fun v ↦ a.isSpilled v

theorem mem_spilledBy {v : Register} : v ∈ l.spilledBy a ↔ v ∈ l.vregs ∧ a.isSpilled v := by
  simp [spilledBy]

section Allocated

variable (hl : l.WellFormed) (hrf : rf.Conventional) (ha : l.allocate rf = .ok a)

include hl hrf ha

/-- Only registers of the record have places, so these are all that are spilled. -/
theorem coe_spilledBy : (l.spilledBy a : Set Register) = {v | a.isSpilled v} := by
  ext v
  rw [Finset.mem_coe, mem_spilledBy]
  refine ⟨And.right, fun hv ↦ ⟨?_, hv⟩⟩
  obtain ⟨place, hplace, -⟩ := Allocation.isSpilled_iff.1 hv
  obtain ⟨hvirtual, x, hx⟩ := exists_range_of_get? hl hrf ha hplace
  exact mem_vregs_of_mem_ranges hvirtual hx

/-- **There are as many slots as registers in them.** -/
theorem card_spilledBy : (l.spilledBy a).card = a.spillCount := by
  have hbij := bijOn_slotOf? hl hrf ha
  have hslots : (((Finset.range a.spillCount).map .some : Finset (Option Nat)) : Set (Option Nat)) =
      some '' Set.Iio a.spillCount := by simp
  rw [← coe_spilledBy hl hrf ha, ← hslots] at hbij
  rw [Finset.card_nbij a.slotOf? hbij.mapsTo hbij.injOn hbij.surjOn, Finset.card_map,
    Finset.card_range]

/-- **The registers in slots relieve the others**: those that are live at one point are in different
registers of their class. -/
theorem relieves_spilledBy : l.Relieves rf (l.spilledBy a) := by
  have hfree := interferenceFree_of_allocate hl hrf ha
  intro p across
  -- a register that is live and not spilled has a place in the pool
  have hplace : ∀ v ∈ l.liveAt across p \ l.spilledBy a, v.isVirtual ∧ ∃ x ∈ l.ranges v,
      x.contains p ∧ ∃ r, a.get? v = some r ∧ r ∈ rf.pool across ∧ r.isPhysical := by
    intro v hv
    obtain ⟨hlive, hkept⟩ := Finset.mem_sdiff.1 hv
    obtain ⟨hvirtual, x, hx, hp, rfl⟩ := mem_liveAt.1 hlive
    obtain ⟨r, hr, ⟨n, -, hslot⟩ | ⟨halloc, hphys, hclass⟩⟩ := exists_place hl hrf ha hvirtual hx
    · refine absurd (mem_spilledBy.2 ⟨mem_vregs_of_mem_ranges hvirtual hx, ?_⟩) hkept
      rw [Allocation.isSpilled, hr]
      exact Register.isStackSlot_slot? hslot
    · exact ⟨hvirtual, x, hx, hp, r, hr, Scan.mem_pool.2 ⟨halloc, by simpa using hclass⟩, hphys⟩
  refine Finset.card_le_card_of_injOn (fun v ↦ (a.get? v).getD v) (fun v hv ↦ ?_)
    fun v hv w hw heq ↦ ?_
  · obtain ⟨-, -, -, -, r, hr, hpool, -⟩ := hplace v hv
    simpa [hr] using hpool
  · obtain ⟨hv, x, hx, hxp, r, hr, -, hphys⟩ := hplace v hv
    obtain ⟨hw, y, hy, hyp, q, hq, -, -⟩ := hplace w hw
    simp only [hr, hq, Option.getD_some] at heq
    subst heq
    by_contra hne
    rw [LiveRange.contains_iff] at hxp hyp
    exact hfree.virtual v w hv hw hne x hx y hy (LiveRange.overlaps_iff.2 (by omega)) r hphys hr hq

/-- There are no more spills than stack slots. -/
theorem spillCount_le : a.spillCount ≤ Nat.pow 2 30 := by
  by_contra hlt
  obtain ⟨v, x, -, -, hslot⟩ := exists_slotOf? hl hrf ha (Nat.not_le.1 hlt)
  obtain ⟨place, -, hindex⟩ := Option.bind_eq_some_iff.1 hslot
  obtain ⟨hstack, hnumber⟩ := Register.isStackSlot_of_slotIndex? hindex
  have hrange := (Register.isStackSlot_iff.1 hstack).2
  rw [hnumber] at hrange
  simp [Register.firstSlot, Register.firstVirtual] at hrange

end Allocated

/-- **The allocator spills as little as possible.** Whatever was recorded, on either machine and
with any list of registers to hand out that the code does not use itself: the number of stack slots
is the least size of a set of virtual registers that relieves the register file. The allocator
succeeds if and only if there is such a set with no more members than there are stack slots at all.
-/
theorem allocate_minimal (k : TargetKind) (allocatable : List Register) {events : List Event}
    {l : Liveness} (hrec : record events = .ok l)
    (hunused : ∀ r ∈ allocatable, r.isPhysical → l.ranges r = []) :
    (∀ a, l.allocate (k.target.withAllocatable allocatable).toRegisterFile = .ok a →
      IsLeast {n | ∃ S : Finset Register, (∀ v ∈ S, v.isVirtual) ∧
        l.Relieves (k.target.withAllocatable allocatable).toRegisterFile S ∧ S.card = n}
        a.spillCount) ∧
    ((∃ a, l.allocate (k.target.withAllocatable allocatable).toRegisterFile = .ok a) ↔
      ∃ S : Finset Register, (∀ v ∈ S, v.isVirtual) ∧
        l.Relieves (k.target.withAllocatable allocatable).toRegisterFile S ∧
        S.card ≤ Nat.pow 2 30) := by
  have hrf := k.conventional allocatable
  have hl := wellFormed_of_record hrec
  have hfixed : Scan.Unfixed (k.target.withAllocatable allocatable).toRegisterFile
      l.fixedIntervals := by
    intro f hf halloc
    obtain ⟨hphys, hrange⟩ := mem_fixedIntervals.1 hf
    rw [hunused f.reg halloc hphys] at hrange
    cases hrange
  have hpoint : ∀ j ∈ l.virtualIntervals, j.range.start < j.range.stop := by
    intro j hj
    obtain ⟨hv, hrange⟩ := mem_virtualIntervals.1 hj
    exact hl.start_lt_stop hv hrange
  have hspilled : ∀ {a}, l.allocate (k.target.withAllocatable allocatable).toRegisterFile = .ok a →
      (∀ v ∈ l.spilledBy a, v.isVirtual) ∧
        l.Relieves (k.target.withAllocatable allocatable).toRegisterFile (l.spilledBy a) ∧
        (l.spilledBy a).card = a.spillCount := fun ha ↦
    ⟨fun v hv ↦ (mem_vregs.1 (mem_spilledBy.1 hv).1).1, relieves_spilledBy hl hrf ha,
      card_spilledBy hl hrf ha⟩
  -- any relief is an upper bound for the scan, and what the scan spills is one itself
  have hbound := fun {S : Finset Register} (hS : l.Relieves _ S) ↦
    Scan.run_frugal hrf hfixed l.pairwise_virtualIntervals hl.nodup_virtualIntervals hpoint
      (hl.roomy_iff.2 hS)
  refine ⟨fun a ha ↦ ⟨⟨l.spilledBy a, hspilled ha⟩, ?_⟩, fun ⟨a, ha⟩ ↦ ?_, ?_⟩
  · rintro n ⟨S, -, hS, rfl⟩
    obtain ⟨s, hs, rfl⟩ := map_eq_ok.1 ha
    rcases hbound hS with ⟨s', hrun, hle⟩ | ⟨herror, -⟩
    · cases hs.symm.trans hrun
      exact Nat.le_trans hle (hl.countP_mem_le S)
    · cases hs.symm.trans herror
  · obtain ⟨hvirtual, hrelieves, hcard⟩ := hspilled ha
    exact ⟨l.spilledBy a, hvirtual, hrelieves, hcard ▸ spillCount_le hl hrf ha⟩
  · rintro ⟨S, -, hS, hcard⟩
    rcases hbound hS with ⟨s, hrun, -⟩ | ⟨-, hlt⟩
    · exact ⟨_, map_eq_ok.2 ⟨s, hrun, rfl⟩⟩
    · have := hl.countP_mem_le S
      omega

/-- Three values at once and one register for them: the two that end last go to memory, and no set
of less than two relieves. The value across the call has a register of its own. -/
theorem allocate_minimal_eviction :
    let events := [Event.use ⟨2147483648⟩ 0, .use ⟨2147483649⟩ 1, .use ⟨2147483650⟩ 2,
      .use ⟨2147483650⟩ 3, .use ⟨2147483649⟩ 4, .use ⟨2147483648⟩ 5, .use ⟨2147483651⟩ 6, .call 7,
      .use X86.rdi 7, .use ⟨2147483651⟩ 8]
    let rf := (TargetKind.x86.target.withAllocatable
      [X86.rbx, X86.rax, ⟨2147483648⟩, X86.rax]).toRegisterFile
    ∃ l a, record events = .ok l ∧ l.allocate rf = .ok a ∧ a.spillCount = 2 ∧
      a.get? ⟨2147483650⟩ = some X86.rax ∧ a.get? ⟨2147483651⟩ = some X86.rbx ∧
      IsLeast {n | ∃ S : Finset Register, (∀ v ∈ S, v.isVirtual) ∧ l.Relieves rf S ∧ S.card = n}
        2 := by
  intro events rf
  have hfits : ∀ e ∈ events, e.Fits := by simp [events, Event.Fits, Unsigned32.bound]
  obtain ⟨l, hl, -⟩ := exists_record hfits
  have hranges : (record events).toOption.map (fun l ↦ (l.ranges X86.rbx, l.ranges X86.rax)) =
      some ([], []) := by decide
  have hrun : ((record events).toOption.bind fun l ↦ (l.allocate rf).toOption.map fun a ↦
      (a.spillCount, a.get? ⟨2147483650⟩, a.get? ⟨2147483651⟩)) =
      some (2, some X86.rax, some X86.rbx) := by decide
  rw [hl] at hranges hrun
  obtain ⟨hrbx, hrax⟩ := Prod.mk.inj (Option.some.inj hranges)
  obtain ⟨a, ha, hcounts⟩ := Option.map_eq_some_iff.1 hrun
  obtain ⟨hcount, hplaces⟩ := Prod.mk.inj hcounts
  obtain ⟨hrax', hrbx'⟩ := Prod.mk.inj hplaces
  have hunused : ∀ r ∈ [X86.rbx, X86.rax, ⟨2147483648⟩, X86.rax], r.isPhysical →
      l.ranges r = [] := by
    simp only [List.forall_mem_cons]
    exact ⟨fun _ ↦ hrbx, fun _ ↦ hrax, fun h ↦ absurd h (by decide), fun _ ↦ hrax,
      fun _ h ↦ absurd h List.not_mem_nil⟩
  rw [toOption_eq_some] at ha
  have hleast := (allocate_minimal .x86 _ hl hunused).1 a ha
  rw [hcount] at hleast
  exact ⟨l, a, hl, ha, hcount, hrax', hrbx', hleast⟩

end Liveness

end MachineCode

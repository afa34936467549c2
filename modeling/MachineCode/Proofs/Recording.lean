import MachineCode.Liveness
import MachineCode.Proofs.Folds

/-!
# Recorded liveness

A liveness record comes about by uses and calls, recorded in any order (`Liveness.record`). This
module says what such a record looks like, whatever the order was:

* only virtual and physical registers have an entry, and a virtual register has exactly one range,
  which holds a point (`Liveness.WellFormed`);
* a use changes the ranges of no other register, and stretches the range of a virtual register
  just as far as the used point (`Liveness.recordUse_cases`).

Recording fails only for a use at a point whose successor is no program point
(`Liveness.exists_record`).
-/

namespace MachineCode

/-- The kinds of registers exclude each other. -/
theorem Register.not_isVirtual_of_isPhysical {r : Register} (hr : r.isPhysical) :
    ¬ r.isVirtual := by
  rw [isPhysical_iff] at hr
  rw [isVirtual_iff]
  simp only [firstSlot, firstVirtual] at *
  omega

namespace LiveRange

/-- The range of a virtual register after a use at `p`, when `r` was its range before. -/
def hull (r : LiveRange) (p : Nat) (calls : List Nat) : LiveRange :=
  { r with start := min r.start p, stop := max r.stop (p + 1) }.markCalls calls

/-- The range of a register that is used at `p` and was not live there or right before. -/
def opened (p : Nat) (calls : List Nat) : LiveRange :=
  { start := p, stop := p + 1 : LiveRange }.markCalls calls

/-- The last range of a physical register that is used at the point where the range ended. -/
def grown (r : LiveRange) (calls : List Nat) : LiveRange :=
  { r with stop := r.stop + 1 }.markCalls calls

@[simp] theorem start_hull (r : LiveRange) (p : Nat) (calls : List Nat) :
    (r.hull p calls).start = min r.start p := rfl

@[simp] theorem stop_hull (r : LiveRange) (p : Nat) (calls : List Nat) :
    (r.hull p calls).stop = max r.stop (p + 1) := rfl

@[simp] theorem start_opened (p : Nat) (calls : List Nat) : (opened p calls).start = p := rfl

@[simp] theorem stop_opened (p : Nat) (calls : List Nat) : (opened p calls).stop = p + 1 := rfl

@[simp] theorem start_grown (r : LiveRange) (calls : List Nat) :
    (r.grown calls).start = r.start := rfl

@[simp] theorem stop_grown (r : LiveRange) (calls : List Nat) :
    (r.grown calls).stop = r.stop + 1 := rfl

/-- A hull contains the new point and all that the range contained. -/
theorem contains_hull {r : LiveRange} {p q : Nat} {calls : List Nat}
    (h : q = p ∨ r.contains q) : (r.hull p calls).contains q := by
  rw [contains_iff] at h ⊢
  rw [start_hull, stop_hull]
  omega

theorem contains_opened (p : Nat) (calls : List Nat) : (opened p calls).contains p := by
  rw [contains_iff, start_opened, stop_opened]
  omega

theorem acrossCall_hull (r : LiveRange) (p : Nat) (calls : List Nat) :
    (r.hull p calls).acrossCall = (r.acrossCall || calls.any (r.hull p calls).contains) := rfl

theorem acrossCall_opened (p : Nat) (calls : List Nat) :
    (opened p calls).acrossCall = calls.any (opened p calls).contains := rfl

theorem acrossCall_grown (r : LiveRange) (calls : List Nat) :
    (r.grown calls).acrossCall = (r.acrossCall || calls.any (r.grown calls).contains) := rfl

/-- The first use of a virtual register opens its range. -/
theorem extendHull_nil {p : Nat} (hp : p + 1 < Unsigned32.bound) (calls : List Nat) :
    extendHull p calls [] = .ok [opened p calls] := by
  simp [extendHull, point, Unsigned32.add, hp, opened, bind, Except.bind, pure, Except.pure]

/-- Only the first range is stretched. A virtual register has no other. -/
theorem extendHull_cons {p : Nat} (hp : p + 1 < Unsigned32.bound) (calls : List Nat)
    (r : LiveRange) (rest : List LiveRange) :
    extendHull p calls (r :: rest) = .ok (r.hull p calls :: rest) := by
  simp [extendHull, Unsigned32.add, hp, hull, bind, Except.bind, pure, Except.pure]

/-- A use of a virtual register is recorded only if the point after it is a 32-bit word. -/
theorem lt_bound_of_extendHull {p : Nat} {calls : List Nat} {rs rs' : List LiveRange}
    (h : extendHull p calls rs = .ok rs') : p + 1 < Unsigned32.bound := by
  rcases Nat.lt_or_ge (p + 1) Unsigned32.bound with hp | hge
  · exact hp
  · have hp := Nat.not_lt.2 hge
    cases rs with
    | nil => simp [extendHull, point, Unsigned32.add, hp, bind, Except.bind] at h
    | cons r rest => simp [extendHull, Unsigned32.add, hp, bind, Except.bind] at h

/-- The range of a single point needs the point after it for its end. -/
theorem point_eq_ok_iff {p : Nat} {r : LiveRange} :
    point p = .ok r ↔ p + 1 < Unsigned32.bound ∧ r = { start := p, stop := p + 1 } := by
  rw [point, bind_eq_ok]
  simp only [Unsigned32.add_eq_ok_iff]
  constructor
  · rintro ⟨_, ⟨hp, rfl⟩, heq⟩
    cases heq
    exact ⟨hp, rfl⟩
  · rintro ⟨hp, rfl⟩
    exact ⟨_, ⟨hp, rfl⟩, rfl⟩

/-- The first use of a physical register opens a range. -/
theorem extendLast_nil {p : Nat} (hp : p + 1 < Unsigned32.bound) (calls : List Nat) :
    extendLast p calls [] = .ok [opened p calls] := by
  rw [extendLast, point_eq_ok_iff.2 ⟨hp, rfl⟩]
  rfl

/-- Only the last range can grow, and only by the point where it ends. -/
theorem extendLast_concat {p : Nat} (hp : p + 1 < Unsigned32.bound) (calls : List Nat)
    (before : List LiveRange) (r : LiveRange) :
    extendLast p calls (before ++ [r]) =
      .ok (before ++ if r.stop = p then [r.grown calls] else [r, opened p calls]) := by
  induction before with
  | nil =>
    rw [List.nil_append, extendLast, point_eq_ok_iff.2 ⟨hp, rfl⟩,
      Unsigned32.add_eq_ok_iff.2 ⟨hp, rfl⟩]
    split
    · rename_i hstop
      subst hstop
      rfl
    · rfl
  | cons b before ih =>
    rw [List.cons_append, extendLast, ih]
    · rfl
    · simp

/-- A new point of a physical register is recorded only if the point after it is a 32-bit word. -/
theorem lt_bound_of_extendLast {p : Nat} {calls : List Nat} {rs rs' : List LiveRange}
    (h : extendLast p calls rs = .ok rs') : p + 1 < Unsigned32.bound := by
  fun_induction extendLast p calls rs generalizing rs' with
  | case1 =>
    obtain ⟨x, hx, -⟩ := bind_eq_ok.1 h
    exact (point_eq_ok_iff.1 hx).1
  | case2 r hr =>
    obtain ⟨stop, hstop, -⟩ := bind_eq_ok.1 h
    exact (Unsigned32.add_eq_ok_iff.1 hstop).1
  | case3 r hr =>
    obtain ⟨x, hx, -⟩ := bind_eq_ok.1 h
    exact (point_eq_ok_iff.1 hx).1
  | case4 r rest hne ih =>
    obtain ⟨rest', hrest', -⟩ := bind_eq_ok.1 h
    exact ih hrest'

/-- **What a use at a point that is not covered does** to the ranges of a physical register: the
last range grows, or there is one more range. -/
theorem extendLast_cases {p : Nat} {calls : List Nat} {rs rs' : List LiveRange}
    (h : extendLast p calls rs = .ok rs') :
    (∃ before r, rs = before ++ [r] ∧ r.stop = p ∧ rs' = before ++ [r.grown calls]) ∨
      (∀ r ∈ rs.getLast?, r.stop ≠ p) ∧ rs' = rs ++ [opened p calls] := by
  have hp := lt_bound_of_extendLast h
  rcases List.eq_nil_or_concat rs with rfl | ⟨before, r, rfl⟩
  · cases h.symm.trans (extendLast_nil hp calls)
    exact .inr ⟨nofun, rfl⟩
  · rw [List.concat_eq_append] at h ⊢
    cases h.symm.trans (extendLast_concat hp calls before r)
    split
    · rename_i hstop
      exact .inl ⟨before, r, rfl, hstop, rfl⟩
    · rename_i hstop
      refine .inr ⟨?_, by rw [List.append_assoc]; rfl⟩
      simpa using hstop

/-- Below the bound every new point is recorded, whatever the ranges are. -/
theorem exists_extendLast {p : Nat} (hp : p + 1 < Unsigned32.bound) (calls : List Nat)
    (rs : List LiveRange) : ∃ rs', extendLast p calls rs = .ok rs' := by
  rcases List.eq_nil_or_concat rs with rfl | ⟨before, r, rfl⟩
  · exact ⟨_, extendLast_nil hp calls⟩
  · rw [List.concat_eq_append]
    exact ⟨_, extendLast_concat hp calls before r⟩

/-- Runs can be extended to any point but the last one. -/
theorem exists_extendRuns {p : Nat} (hp : p + 1 < Unsigned32.bound) (calls : List Nat)
    (rs : List LiveRange) : ∃ rs', extendRuns p calls rs = .ok rs' := by
  unfold extendRuns
  split
  · exact ⟨rs, rfl⟩
  · exact exists_extendLast hp calls rs

end LiveRange

namespace Liveness

/-! ### Events -/

/-- One thing that is recorded. -/
inductive Event where
  | use (r : Register) (p : Nat)
  | call (p : Nat)

/-- The point after a use is a program point too. -/
def Event.Fits : Event → Prop
  | .use _ p => p + 1 < Unsigned32.bound
  | .call _ => True

/-- Record one event. -/
def observe (l : Liveness) : Event → Except Fault Liveness
  | .use r p => l.recordUse r p
  | .call p => .ok (l.recordCall p)

/-- The record of some events, in their order. -/
def record (events : List Event) : Except Fault Liveness :=
  events.foldlM observe { table := .empty }

/-- The ranges of a register, none if it was not used. -/
def ranges (l : Liveness) (r : Register) : List LiveRange := (l.get? r).getD []

/-- The shape of a record: what is tracked, and the one range of each virtual register. -/
structure WellFormed (l : Liveness) : Prop where
  tracked : ∀ r rs, l.get? r = some rs → tracks r
  single : ∀ v rs, v.isVirtual → l.get? v = some rs → ∃ r, rs = [r] ∧ r.start < r.stop

theorem wellFormed_empty : WellFormed {} where
  tracked _ _ h := nomatch h
  single _ _ _ h := nomatch h

/-! ### One use -/

/-- The new range of a virtual register that is used at `p`. -/
def stretched (l : Liveness) (v : Register) (p : Nat) : LiveRange :=
  match l.ranges v with
  | [] => LiveRange.opened p l.calls
  | r :: _ => r.hull p l.calls

/-- A use of a virtual register stretches its one range over the point. -/
theorem recordUse_virtual {l : Liveness} (hl : l.WellFormed) {v : Register} (hv : v.isVirtual)
    {p : Nat} (hp : p + 1 < Unsigned32.bound) :
    l.recordUse v p = .ok { l with table := l.table.insert v [l.stretched v p] } := by
  have htracks : tracks v := by simp [tracks, hv]
  have hext : LiveRange.extendHull p l.calls ((l.get? v).getD []) = .ok [l.stretched v p] := by
    rcases hget : l.get? v with - | rs
    · rw [Option.getD_none, LiveRange.extendHull_nil hp, stretched, ranges, hget]
      rfl
    · obtain ⟨r, rfl, -⟩ := hl.single v rs hv hget
      rw [Option.getD_some, LiveRange.extendHull_cons hp, stretched, ranges, hget]
      rfl
  rw [recordUse, if_pos htracks, if_pos hv, hext]
  rfl

/-- A use of a physical register lets its ranges cover the point. -/
theorem recordUse_physical (l : Liveness) {r : Register} (hr : r.isPhysical) (p : Nat) :
    l.recordUse r p = LiveRange.extendRuns p l.calls (l.ranges r) >>= fun rs ↦
      .ok { l with table := l.table.insert r rs } := by
  have htracks : tracks r := by simp [tracks, hr]
  have hv := Register.not_isVirtual_of_isPhysical hr
  rw [recordUse, if_pos htracks, if_neg hv]
  rfl

/-- Registers of other kinds are not recorded. -/
theorem recordUse_untracked (l : Liveness) {r : Register} (hr : ¬ tracks r) (p : Nat) :
    l.recordUse r p = .ok l := by
  rw [recordUse, if_neg hr]

/-- **What a use can do to a record**: it stretches the range of a virtual register, it changes the
ranges of a physical register in some way, or it is not tracked at all. -/
theorem recordUse_cases {l l' : Liveness} (hl : l.WellFormed) {r : Register} {p : Nat}
    (h : l.recordUse r p = .ok l') :
    (r.isVirtual ∧ l' = { l with table := l.table.insert r [l.stretched r p] }) ∨
    (r.isPhysical ∧ ∃ rs, l' = { l with table := l.table.insert r rs }) ∨
    (¬ tracks r ∧ l' = l) := by
  by_cases hv : r.isVirtual
  · refine Or.inl ⟨hv, ?_⟩
    have hp : p + 1 < Unsigned32.bound := by
      rw [recordUse, if_pos (by simp [tracks, hv]), if_pos hv] at h
      obtain ⟨rs, hrs, -⟩ := bind_eq_ok.1 h
      exact LiveRange.lt_bound_of_extendHull hrs
    cases h.symm.trans (recordUse_virtual hl hv hp)
    rfl
  · by_cases hr : r.isPhysical
    · rw [recordUse_physical l hr] at h
      obtain ⟨rs, -, hrs⟩ := bind_eq_ok.1 h
      cases hrs
      exact Or.inr (Or.inl ⟨hr, rs, rfl⟩)
    · have htracks : ¬ tracks r := by simp [tracks, hv, hr]
      cases h.symm.trans (recordUse_untracked l htracks p)
      exact Or.inr (Or.inr ⟨htracks, rfl⟩)

/-- The stretched range is not empty: it contains the new point. -/
theorem start_lt_stop_stretched {l : Liveness} (hl : l.WellFormed) {v : Register}
    (hv : v.isVirtual) (p : Nat) : (l.stretched v p).start < (l.stretched v p).stop := by
  rw [stretched, ranges]
  rcases hget : l.get? v with - | rs
  · rw [Option.getD_none]
    exact Nat.lt_succ_self p
  · obtain ⟨r, rfl, hlt⟩ := hl.single v rs hv hget
    show min r.start p < max r.stop (p + 1)
    omega

/-! ### Any number of events -/

/-- A table stays well-formed if a tracked register gets new ranges, and a virtual one a single
range. -/
theorem WellFormed.insert {l : Liveness} (hl : l.WellFormed) {r : Register}
    {rs : List LiveRange} (htracks : tracks r)
    (hsingle : r.isVirtual → ∃ x, rs = [x] ∧ x.start < x.stop) :
    WellFormed { l with table := l.table.insert r rs } := by
  have hget : ∀ s, Liveness.get? { l with table := l.table.insert r rs } s =
      if r = s then some rs else l.get? s := fun s ↦ RegisterMap.get?_insert l.table r s rs
  constructor
  · intro s ss h
    rw [hget] at h
    split at h
    · subst s
      exact htracks
    · exact hl.tracked s ss h
  · intro v vs hv h
    rw [hget] at h
    split at h
    · subst v
      cases h
      exact hsingle hv
    · exact hl.single v vs hv h

/-- **One use keeps the table well-formed.** -/
theorem WellFormed.recordUse {l l' : Liveness} (hl : l.WellFormed) {r : Register} {p : Nat}
    (h : l.recordUse r p = .ok l') : l'.WellFormed := by
  rcases recordUse_cases hl h with ⟨hv, rfl⟩ | ⟨hr, rs, rfl⟩ | ⟨-, rfl⟩
  · exact hl.insert (by simp [tracks, hv]) fun _ ↦ ⟨_, rfl, start_lt_stop_stretched hl hv p⟩
  · exact hl.insert (by simp [tracks, hr]) fun hv ↦
      absurd hv (Register.not_isVirtual_of_isPhysical hr)
  · exact hl

/-- **One event that fits is recorded, and the table stays well-formed.** -/
theorem WellFormed.exists_observe {l : Liveness} (hl : l.WellFormed) {e : Event} (he : e.Fits) :
    ∃ l', l.observe e = .ok l' ∧ l'.WellFormed := by
  cases e with
  | call p => exact ⟨_, rfl, hl.tracked, hl.single⟩
  | use r p =>
    have hok : ∃ l', l.recordUse r p = .ok l' := by
      by_cases hv : r.isVirtual
      · exact ⟨_, recordUse_virtual hl hv he⟩
      · by_cases hr : r.isPhysical
        · obtain ⟨rs, hrs⟩ := LiveRange.exists_extendRuns he l.calls (l.ranges r)
          rw [recordUse_physical l hr, hrs]
          exact ⟨_, rfl⟩
        · exact ⟨l, recordUse_untracked l (by simp [tracks, hv, hr]) p⟩
    obtain ⟨l', hl'⟩ := hok
    exact ⟨l', hl', hl.recordUse hl'⟩

/-- Recording succeeds if every used point has a successor, and gives a well-formed record. -/
theorem exists_record {events : List Event} (h : ∀ e ∈ events, e.Fits) :
    ∃ l, record events = .ok l ∧ l.WellFormed := by
  refine exists_foldlM (fun _ l ↦ WellFormed l) ?_ wellFormed_empty
  intro done e rest l hevents hl
  exact hl.exists_observe (h e (by rw [hevents]; simp))

/-- Whatever could be recorded is a well-formed record. -/
theorem wellFormed_of_record {events : List Event} {l : Liveness} (h : record events = .ok l) :
    l.WellFormed := by
  refine foldlM_invariant (fun _ l ↦ WellFormed l) ?_ wellFormed_empty h
  intro done e rest l l' _ hl hobserve
  cases e with
  | call p =>
    cases hobserve
    exact ⟨hl.tracked, hl.single⟩
  | use r p => exact hl.recordUse hobserve

/-! ### The intervals of a record -/

theorem mem_ranges_iff {l : Liveness} {r : Register} {x : LiveRange} :
    x ∈ l.ranges r ↔ ∃ rs, l.get? r = some rs ∧ x ∈ rs := by
  rw [ranges]
  cases l.get? r with
  | none => simp
  | some rs => simp

/-- The range of a virtual register is not empty. -/
theorem WellFormed.start_lt_stop {l : Liveness} (hl : l.WellFormed) {v : Register}
    (hv : v.isVirtual) {x : LiveRange} (hx : x ∈ l.ranges v) : x.start < x.stop := by
  obtain ⟨rs, hrs, hx⟩ := mem_ranges_iff.1 hx
  obtain ⟨y, rfl, hlt⟩ := hl.single v rs hv hrs
  cases List.mem_singleton.1 hx
  exact hlt

/-- A virtual register has no more than one range. -/
theorem WellFormed.ranges_subsingleton {l : Liveness} (hl : l.WellFormed) {v : Register}
    (hv : v.isVirtual) {x y : LiveRange} (hx : x ∈ l.ranges v) (hy : y ∈ l.ranges v) : x = y := by
  obtain ⟨rs, hrs, hx⟩ := mem_ranges_iff.1 hx
  obtain ⟨rs', hrs', hy⟩ := mem_ranges_iff.1 hy
  rw [hrs] at hrs'
  cases hrs'
  obtain ⟨r, rfl, -⟩ := hl.single v rs hv hrs
  rw [List.mem_singleton] at hx hy
  rw [hx, hy]

end Liveness

end MachineCode

import MachineCode.Proofs.BuildEvents
import Mathlib.Algebra.Group.Nat.Defs
import Mathlib.Order.Bounds.Basic

/-!
# The ranges of virtual registers

A virtual register has one range, which reaches from its first used point to its last. A range is
marked for a call when it is updated and a call on record lies in it, so a call may go unnoticed:
if it is recorded behind the last use of the register, no update sees it. And a call that lies
outside the range at one update may lie inside at a later one. What remains of all this is simple
(`Liveness.Spans`): a range is marked exactly if a call lies in it, as it is in the end, that was
recorded before the last use.

One more event keeps the description (`Liveness.Follows.observe`), whatever was recorded before it
and in whatever order; so it holds of every record (`Liveness.follows_of_record`). In a built
function a call is recorded before the instruction at its point, so there all calls count.
-/

namespace MachineCode

namespace Liveness

variable {events : List Event} {e : Event} {v : Register} {l l' : Liveness} {x : LiveRange}

/-! ### What is read off the events -/

/-- The points at which a register is used. -/
def usePoints (events : List Event) (v : Register) : Set Nat := {p | .use v p ∈ events}

/-- A call at `c` is recorded before the last use of `v`. -/
def CallBeforeLastUse (events : List Event) (v : Register) (c : Nat) : Prop :=
  ∃ before p after, events = before ++ .use v p :: after ∧ (∀ q, .use v q ∉ after) ∧
    .call c ∈ before

/-- What the events make of the range of a virtual register. -/
structure Spans (events : List Event) (v : Register) (x : LiveRange) : Prop where
  start : IsLeast (usePoints events v) x.start
  stop : ∃ p, IsGreatest (usePoints events v) p ∧ x.stop = p + 1
  acrossCall_iff : x.acrossCall ↔ ∃ c, CallBeforeLastUse events v c ∧ x.start ≤ c ∧ c < x.stop

/-- A use adds its point. -/
theorem usePoints_concat_use (events : List Event) (v : Register) (p : Nat) :
    usePoints (events ++ [.use v p]) v = insert p (usePoints events v) := by
  ext q
  simp [usePoints, or_comm]

/-- Other events add no point of use. -/
theorem usePoints_concat_of_ne (he : ∀ p, e ≠ .use v p) :
    usePoints (events ++ [e]) v = usePoints events v := by
  ext q
  simp [usePoints, (he q).symm]

/-- Behind a use all calls so far count. -/
theorem callBeforeLastUse_concat_use {p c : Nat} :
    CallBeforeLastUse (events ++ [.use v p]) v c ↔ .call c ∈ events := by
  constructor
  · rintro ⟨before, q, after, heq, hlast, hc⟩
    rcases List.eq_nil_or_concat after with rfl | ⟨after, e, rfl⟩
    · rw [(List.append_inj_left' heq rfl)]
      exact hc
    · -- there is no use behind the last one
      rw [List.concat_eq_append] at hlast heq
      rw [← List.cons_append, ← List.append_assoc] at heq
      cases List.append_inj_right' heq rfl
      exact absurd (by simp) (hlast p)
  · exact fun hc ↦ ⟨events, p, [], rfl, by simp, hc⟩

/-- Other events leave the last use what it was. -/
theorem callBeforeLastUse_concat_of_ne (he : ∀ p, e ≠ .use v p) {c : Nat} :
    CallBeforeLastUse (events ++ [e]) v c ↔ CallBeforeLastUse events v c := by
  constructor
  · rintro ⟨before, q, after, heq, hlast, hc⟩
    rcases List.eq_nil_or_concat after with rfl | ⟨after, e', rfl⟩
    · cases List.append_inj_right' heq rfl
      exact absurd rfl (he q)
    · rw [List.concat_eq_append] at hlast heq
      rw [← List.cons_append, ← List.append_assoc] at heq
      exact ⟨before, q, after, List.append_inj_left' heq rfl,
        fun p hp ↦ hlast p (List.mem_append_left _ hp), hc⟩
  · rintro ⟨before, q, after, rfl, hlast, hc⟩
    refine ⟨before, q, after ++ [e], by simp, fun p hp ↦ ?_, hc⟩
    rcases List.mem_append.1 hp with hp | hp
    · exact hlast p hp
    · exact he p (List.mem_singleton.1 hp).symm

theorem CallBeforeLastUse.call_mem {c : Nat} (h : CallBeforeLastUse events v c) :
    .call c ∈ events := by
  obtain ⟨before, p, after, rfl, -, hc⟩ := h
  exact List.mem_append_left _ hc

/-! ### One event -/

/-- A range stays as it is while its register is not used. -/
theorem Spans.concat_of_ne (h : Spans events v x) (he : ∀ p, e ≠ .use v p) :
    Spans (events ++ [e]) v x where
  start := by
    rw [usePoints_concat_of_ne he]
    exact h.start
  stop := by
    rw [usePoints_concat_of_ne he]
    exact h.stop
  acrossCall_iff := by
    simp only [callBeforeLastUse_concat_of_ne he]
    exact h.acrossCall_iff

/-- A call counts for a range that was just updated if it is on record and lies in the range. -/
theorem acrossCall_iff_of_use {calls : List Nat} (hcalls : calls = events.filterMap Event.call?)
    {p : Nat} (h : x.acrossCall ↔ ∃ c ∈ calls, x.contains c) :
    x.acrossCall ↔
      ∃ c, CallBeforeLastUse (events ++ [.use v p]) v c ∧ x.start ≤ c ∧ c < x.stop := by
  have hmem : ∀ c, c ∈ calls ↔ .call c ∈ events := by
    intro c
    rw [hcalls, List.mem_filterMap]
    constructor
    · rintro ⟨_ | _, he, hc⟩
      · cases hc
      · cases hc
        exact he
    · exact fun he ↦ ⟨_, he, rfl⟩
  simp only [h, hmem, callBeforeLastUse_concat_use, LiveRange.contains_iff]

/-- The first use opens a range. -/
theorem spans_opened {calls : List Nat} (hcalls : calls = events.filterMap Event.call?)
    (hunused : usePoints events v = ∅) (p : Nat) :
    Spans (events ++ [.use v p]) v (LiveRange.opened p calls) := by
  have hpoints : usePoints (events ++ [.use v p]) v = {p} := by
    rw [usePoints_concat_use, hunused, insert_empty_eq]
  refine ⟨?_, ⟨p, ?_, rfl⟩, acrossCall_iff_of_use hcalls ?_⟩
  · rw [hpoints]
    exact isLeast_singleton
  · rw [hpoints]
    exact isGreatest_singleton
  · rw [LiveRange.acrossCall_opened, List.any_eq_true]

/-- Another use stretches the range. What was marked stays marked, since the call that it was
marked for lies in the longer range too. -/
theorem Spans.hull {calls : List Nat} (h : Spans events v x)
    (hcalls : calls = events.filterMap Event.call?) (p : Nat) :
    Spans (events ++ [.use v p]) v (x.hull p calls) := by
  refine ⟨?_, ?_, acrossCall_iff_of_use hcalls ?_⟩
  · rw [usePoints_concat_use, LiveRange.start_hull, Nat.min_comm]
    exact h.start.insert p
  · obtain ⟨q, hq, hstop⟩ := h.stop
    refine ⟨max p q, ?_, ?_⟩
    · rw [usePoints_concat_use]
      exact hq.insert p
    · rw [LiveRange.stop_hull, hstop]
      omega
  · rw [LiveRange.acrossCall_hull, Bool.or_eq_true, List.any_eq_true]
    refine or_iff_right_of_imp fun hmark ↦ ?_
    obtain ⟨c, hc, hxc⟩ := h.acrossCall_iff.1 hmark
    refine ⟨c, ?_, LiveRange.contains_hull (Or.inr (LiveRange.contains_iff.2 hxc))⟩
    rw [hcalls, List.mem_filterMap]
    exact ⟨_, hc.call_mem, rfl⟩

/-! ### Any number of events -/

/-- The ranges of a virtual register: none if it was not used, else the one that its uses span. -/
inductive Traced (events : List Event) (v : Register) : List LiveRange → Prop where
  | unused (h : usePoints events v = ∅) : Traced events v []
  | used {x : LiveRange} (h : Spans events v x) : Traced events v [x]

/-- The record of some events, as far as it concerns virtual registers. -/
structure Follows (events : List Event) (l : Liveness) : Prop where
  wellFormed : l.WellFormed
  calls : l.calls = events.filterMap Event.call?
  traced : ∀ v, v.isVirtual → Traced events v (l.ranges v)

theorem follows_empty : Follows [] {} where
  wellFormed := wellFormed_empty
  calls := rfl
  traced _ _ := .unused (Set.eq_empty_of_forall_notMem fun _ ↦ List.not_mem_nil)

theorem Traced.concat_of_ne {rs : List LiveRange} (h : Traced events v rs)
    (he : ∀ p, e ≠ .use v p) : Traced (events ++ [e]) v rs := by
  cases h with
  | unused h => exact .unused ((usePoints_concat_of_ne he).trans h)
  | used h => exact .used (h.concat_of_ne he)

/-- A use stretches the range to its point. -/
theorem Follows.stretched (h : Follows events l) (hv : v.isVirtual) (p : Nat) :
    Spans (events ++ [.use v p]) v (l.stretched v p) := by
  have htraced := h.traced v hv
  rw [Liveness.stretched]
  cases hranges : l.ranges v with
  | nil =>
    rw [hranges] at htraced
    cases htraced with
    | unused hunused => exact spans_opened h.calls hunused p
  | cons x rest =>
    rw [hranges] at htraced
    cases htraced with
    | used hspans => exact hspans.hull h.calls p

/-- **One more event**, whichever it is. -/
theorem Follows.observe (h : Follows events l) (hok : l.observe e = .ok l') :
    Follows (events ++ [e]) l' := by
  cases e with
  | call c =>
    cases hok
    refine ⟨⟨h.wellFormed.tracked, h.wellFormed.single⟩, ?_, fun v hv ↦ ?_⟩
    · rw [List.filterMap_append, ← h.calls]
      rfl
    · exact (h.traced v hv).concat_of_ne nofun
  | use r p =>
    have hwf := h.wellFormed.recordUse hok
    have hcalls : l.calls = (events ++ [Event.use r p]).filterMap Event.call? := by
      rw [List.filterMap_append, ← h.calls]
      exact (List.append_nil _).symm
    have hother : ∀ v, v.isVirtual → r ≠ v → Traced (events ++ [.use r p]) v (l.ranges v) := by
      intro v hv hne
      exact (h.traced v hv).concat_of_ne fun q heq ↦ hne (Event.use.inj heq).1
    -- a virtual register is stretched, a physical one extends its runs, and the rest is not
    -- recorded
    rcases recordUse_cases h.wellFormed hok with ⟨hr, rfl⟩ | ⟨hr, rs, rfl⟩ | ⟨hr, rfl⟩
    · refine ⟨hwf, hcalls, fun v hv ↦ ?_⟩
      rw [ranges_insert]
      by_cases hrv : r = v
      · subst hrv
        rw [if_pos rfl]
        exact .used (h.stretched hv p)
      · rw [if_neg hrv]
        exact hother v hv hrv
    · refine ⟨hwf, hcalls, fun v hv ↦ ?_⟩
      have hrv : r ≠ v := by
        rintro rfl
        exact Register.not_isVirtual_of_isPhysical hr hv
      rw [ranges_insert, if_neg hrv]
      exact hother v hv hrv
    · refine ⟨hwf, hcalls, fun v hv ↦ hother v hv ?_⟩
      rintro rfl
      exact hr (by simp [tracks, hv])

/-- **Every record follows its events.** -/
theorem follows_of_record (h : record events = .ok l) : Follows events l :=
  foldlM_invariant Follows (fun _ _ _ _ _ _ hfollows hok ↦ hfollows.observe hok) follows_empty h

theorem Spans.nonempty (h : Spans events v x) : (usePoints events v).Nonempty := ⟨_, h.start.1⟩

/-- A virtual register is in the table exactly if it was used, and then with the range that its
uses span. -/
theorem Follows.get? (h : Follows events l) (hv : v.isVirtual) :
    ((l.get? v).isSome ↔ (usePoints events v).Nonempty) ∧
      ∀ rs, l.get? v = some rs → ∃ x, rs = [x] ∧ Spans events v x := by
  have htraced := h.traced v hv
  rw [ranges] at htraced
  cases hget : l.get? v with
  | none =>
    rw [hget] at htraced
    cases htraced with
    | unused hunused => exact ⟨by simp [hunused], fun _ hrs ↦ by cases hrs⟩
  | some rs =>
    obtain ⟨x, rfl, -⟩ := h.wellFormed.single v rs hv hget
    rw [hget] at htraced
    cases htraced with
    | used hspans =>
      refine ⟨iff_of_true rfl hspans.nonempty, fun rs hrs ↦ ⟨x, ?_, hspans⟩⟩
      exact (Option.some.inj hrs).symm

end Liveness

/-! ### Built functions -/

/-- The points of a function whose instruction names the register. -/
def Function.namePoints {Op : Type} (f : Function Op) (v : Register) : Set Nat :=
  {p | ∃ i, f.code.instructions[p]? = some i ∧ v ∈ i.registers}

/-- The points of use are those whose instruction names the register. -/
theorem Function.usePoints_eq {Op : Type} {f : Function Op} {steps : List (BuildStep Op)}
    (hcode : f.code.instructions = BuildStep.instructions steps) (v : Register) :
    Liveness.usePoints (BuildStep.events 0 steps) v = f.namePoints v := by
  ext q
  simp only [Liveness.usePoints, namePoints, Set.mem_ofPred_eq, BuildStep.use_mem_events, hcode]
  constructor
  · rintro ⟨n, i, rfl, hi, hv⟩
    exact ⟨i, by rwa [Nat.zero_add], hv⟩
  · rintro ⟨i, hi, hv⟩
    exact ⟨q, i, (Nat.zero_add q).symm, hi, hv⟩

/-- **Exact ranges of virtual registers.** Whatever uses and calls are recorded, in any order: a
virtual register is in the table if and only if it was used; it then has one range, from its first
used point to its last, and the range is marked if and only if a call that lies in it was recorded
before the last use of the register.

So in a function built by appending instructions and noting call boundaries, the range reaches
from the first instruction that names the register to the last one, and is marked if and only if
any call point of the function lies in it. -/
theorem Liveness.virtualRanges_exact :
    (∀ events : List Event, (∀ e ∈ events, e.Fits) → ∃ l, record events = .ok l ∧
      ∀ v, v.isVirtual → ((l.get? v).isSome ↔ (usePoints events v).Nonempty) ∧
        ∀ rs, l.get? v = some rs → ∃ x, rs = [x] ∧ Spans events v x) ∧
    ∀ (Op : Type) (name : String) (localBytes : Nat) (steps : List (BuildStep Op)),
      ((BuildStep.instructions steps).length < 2 ^ 32 →
        ∃ f, Function.build name localBytes steps = .ok f) ∧
      ∀ f, Function.build name localBytes steps = .ok f →
        f.code.instructions = BuildStep.instructions steps ∧
        f.liveness.calls = BuildStep.callPoints 0 steps ∧
        ∀ v, v.isVirtual → ((f.liveness.get? v).isSome ↔ (f.namePoints v).Nonempty) ∧
          ∀ rs, f.liveness.get? v = some rs → ∃ x, rs = [x] ∧
            IsLeast (f.namePoints v) x.start ∧
            (∃ p, IsGreatest (f.namePoints v) p ∧ x.stop = p + 1) ∧
            (x.acrossCall ↔ ∃ c ∈ f.liveness.calls, x.start ≤ c ∧ c < x.stop) := by
  constructor
  · intro events hfits
    obtain ⟨l, hl, -⟩ := exists_record hfits
    exact ⟨l, hl, fun v hv ↦ (follows_of_record hl).get? hv⟩
  · intro Op name localBytes steps
    refine ⟨fun hlen ↦ (Function.exists_build_iff name localBytes).2 (.of_length_lt hlen),
      fun f hf ↦ ?_⟩
    obtain ⟨-, -, hcode, hcalls, hrecord⟩ := Function.build_eq_ok hf
    obtain ⟨entries, hrecorded⟩ := Function.recorded_of_build hf
    refine ⟨hcode, hcalls, fun v hv ↦ ?_⟩
    obtain ⟨hused, hspans⟩ := (follows_of_record hrecord).get? hv
    rw [Function.usePoints_eq hcode] at hused
    refine ⟨hused, fun rs hrs ↦ ?_⟩
    obtain ⟨x, rfl, hx⟩ := hspans rs hrs
    -- points come in order in a function, so that a call in the range is always before the last use
    have hmark := hrecorded.liveness.acrossCall_iff v hv x
      (mem_ranges_iff.2 ⟨_, hrs, List.mem_singleton_self x⟩)
    simp only [LiveRange.contains_iff] at hmark
    refine ⟨x, rfl, ?_, ?_, hmark⟩
    · rw [← Function.usePoints_eq hcode]
      exact hx.start
    · rw [← Function.usePoints_eq hcode]
      exact hx.stop

/-- A call that the first use does not see but the second one does, and a call behind the last use,
which goes unnoticed; and a function with a call between two uses. -/
theorem Liveness.virtualRanges_exact_reordered :
    let v : Register := ⟨2147483648⟩
    let w : Register := ⟨2147483649⟩
    let events := [Event.use v 5, .call 4, .use v 2, .use w 1, .use w 3, .call 2]
    let steps : List (BuildStep String) := [.append ⟨"nop", []⟩,
      .append ⟨"mov", [.imm 1, .reg v]⟩, .callBoundary, .append ⟨"call", [.label "g", .imm 0]⟩,
      .append ⟨"add", [.imm 2, .reg v]⟩, .callBoundary, .append ⟨"call", [.label "g", .imm 0]⟩]
    (∃ l, record events = .ok l ∧ l.get? v = some [⟨2, 6, true⟩] ∧ Spans events v ⟨2, 6, true⟩ ∧
      l.get? w = some [⟨1, 4, false⟩] ∧ Spans events w ⟨1, 4, false⟩) ∧
    ∃ f, Function.build "f" 0 steps = .ok f ∧ f.liveness.calls = [2, 4] ∧
      f.liveness.get? v = some [⟨1, 4, true⟩] ∧ IsLeast (f.namePoints v) 1 ∧
      IsGreatest (f.namePoints v) 3 ∧ ¬ (f.liveness.get? w).isSome := by
  intro v w events steps
  obtain ⟨hrecords, hbuilds⟩ := virtualRanges_exact
  constructor
  · obtain ⟨l, hl, hranges⟩ := hrecords events (by simp [events, Event.Fits, Unsigned32.bound])
    have hgets : (record events).toOption.map (fun l ↦ (l.get? v, l.get? w)) =
        some (some [⟨2, 6, true⟩], some [⟨1, 4, false⟩]) := by decide
    rw [hl] at hgets
    obtain ⟨hv, hw⟩ := Prod.mk.inj (Option.some.inj hgets)
    obtain ⟨x, hx, hxspans⟩ := (hranges v (by decide)).2 _ hv
    obtain ⟨y, hy, hyspans⟩ := (hranges w (by decide)).2 _ hw
    cases hx
    cases hy
    exact ⟨l, hl, hv, hxspans, hw, hyspans⟩
  · obtain ⟨hexists, hexact⟩ := hbuilds String "f" 0 steps
    obtain ⟨f, hf⟩ := hexists (by decide)
    obtain ⟨-, hcalls, hranges⟩ := hexact f hf
    have hgets : (Function.build "f" 0 steps).toOption.map
        (fun f ↦ (f.liveness.get? v, f.liveness.get? w)) = some (some [⟨1, 4, true⟩], none) := by
      decide
    rw [hf] at hgets
    obtain ⟨hv, hw⟩ := Prod.mk.inj (Option.some.inj hgets)
    obtain ⟨x, hx, hstart, ⟨p, hp, hstop⟩, -⟩ := (hranges v (by decide)).2 _ hv
    cases hx
    cases hstop
    exact ⟨f, hf, hcalls, hv, hstart, hp, by rw [hw]; decide⟩

end MachineCode

import MachineCode.Proofs.FixedRanges
import MachineCode.Proofs.VirtualRanges

/-!
# The used points of a physical register

The ranges of a physical register divide its used points among them (`LiveRange.Partitions`),
whatever the order of the uses: a use at a point that no range holds makes the last range longer, if
it ends there, or opens a new range, and neither takes a point that another range has.

Out of order the ranges may touch. A use at `3`, then one at `5` and one at `4` give three ranges,
the last of them between the others. But where no use goes back, the ranges are the maximal runs of
used points (`LiveRange.Runs`): the point behind a range was skipped for good.

A use marks the range that it changes for all calls on record, and so a call goes unnoticed only if
it is recorded behind a use at its point. No function is built that way: there, a call is recorded
before the instruction at its point (`BuildStep.pairwise_events`).
-/

namespace MachineCode

namespace LiveRange

variable {P : Set Nat} {p : Nat} {calls : List Nat} {rs rs' : List LiveRange}

/-! ### Sets of points -/

/-- No point lies in both ranges. -/
def Apart (x y : LiveRange) : Prop := ∀ p, x.contains p → ¬ y.contains p

/-- The ranges divide the points among them. -/
structure Partitions (P : Set Nat) (rs : List LiveRange) : Prop where
  nonempty : Nonempty rs
  apart : rs.Pairwise Apart
  hold_iff : ∀ p, Hold rs p ↔ p ∈ P

/-- Each range ends before the next one starts, with a point between them. -/
def Ascending (rs : List LiveRange) : Prop := rs.Pairwise fun x y ↦ x.stop < y.start

/-- The ranges are the maximal runs of the points, from the first one to the last one. -/
structure Runs (P : Set Nat) (rs : List LiveRange) : Prop extends Partitions P rs where
  ascending : Ascending rs
  maximal : ∀ x ∈ rs, x.stop ∉ P ∧ ∀ p, p + 1 = x.start → p ∉ P

/-- A range is marked if and only if one of the calls lies in it. -/
def Marked (calls : List Nat) (rs : List LiveRange) : Prop :=
  ∀ x ∈ rs, x.acrossCall ↔ ∃ c ∈ calls, x.contains c

theorem partitions_nil : Partitions ∅ [] :=
  ⟨nofun, .nil, fun p ↦ by simp [Hold]⟩

/-- Of two different ranges one ends before the other starts. -/
theorem Ascending.before_or (h : Ascending rs) {x y : LiveRange} (hx : x ∈ rs) (hy : y ∈ rs)
    (hne : x ≠ y) : x.stop < y.start ∨ y.stop < x.start := by
  have hpairs := List.pairwise_iff_getElem.1 h
  obtain ⟨i, hi, rfl⟩ := List.getElem_of_mem hx
  obtain ⟨j, hj, rfl⟩ := List.getElem_of_mem hy
  rcases Nat.lt_trichotomy i j with hij | rfl | hij
  · exact .inl (hpairs i j hi hj hij)
  · exact absurd rfl hne
  · exact .inr (hpairs j i hj hi hij)

/-- Ranges with gaps between them cannot be made longer. -/
theorem Partitions.runs (h : Partitions P rs) (hasc : Ascending rs) : Runs P rs := by
  refine ⟨h, hasc, fun x hx ↦ ?_⟩
  have hlt := h.nonempty x hx
  -- a range with a point next to `x` is `x`, since between two ranges there is a gap
  have hself : ∀ y ∈ rs, y.start ≤ x.stop → x.start ≤ y.stop → y = x := by
    intro y hy hstart hstop
    by_contra hne
    rcases hasc.before_or hy hx hne with hbefore | hbefore <;> omega
  refine ⟨fun hmem ↦ ?_, fun p hp hmem ↦ ?_⟩
  · obtain ⟨y, hy, hcontains⟩ := (h.hold_iff _).2 hmem
    rw [contains_iff] at hcontains
    obtain rfl := hself y hy (by omega) (by omega)
    omega
  · obtain ⟨y, hy, hcontains⟩ := (h.hold_iff _).2 hmem
    rw [contains_iff] at hcontains
    obtain rfl := hself y hy (by omega) (by omega)
    omega

/-! ### One use -/

/-- **One more point**, in any order. -/
theorem Partitions.extendRuns (h : Partitions P rs) (hok : extendRuns p calls rs = .ok rs') :
    Partitions (insert p P) rs' := by
  have hext := extends_extendRuns h.nonempty hok
  refine ⟨hext.nonempty, ?_, fun q ↦ ?_⟩
  · rcases extendRuns_cases hok with
      ⟨-, rfl⟩ | ⟨hopen, before, x, rfl, rfl, rfl⟩ | ⟨hopen, -, rfl⟩
    · exact h.apart
    · obtain ⟨hbefore, -, hlast⟩ := List.pairwise_append.1 h.apart
      have hlt := h.nonempty x (by simp)
      refine List.pairwise_append.2 ⟨hbefore, List.pairwise_singleton _ _, fun y hy z hz q hq ↦ ?_⟩
      rw [List.mem_singleton.1 hz, contains_grown_iff hlt]
      rintro (hx | rfl)
      · exact hlast y hy x (List.mem_singleton_self x) q hq hx
      · exact hopen ⟨y, List.mem_append_left _ hy, hq⟩
    · refine List.pairwise_append.2 ⟨h.apart, List.pairwise_singleton _ _, fun y hy z hz q hq ↦ ?_⟩
      rw [List.mem_singleton.1 hz, contains_opened_iff]
      rintro rfl
      exact hopen ⟨y, hy, hq⟩
  · rw [hext.hold_iff, h.hold_iff, Set.mem_insert_iff, or_comm]

/-- All ranges end before a new point, unless the last one ends right at it. -/
theorem Partitions.stop_lt (h : Partitions P rs) (hasc : Ascending rs) (hP : ∀ q ∈ P, q ≤ p)
    (hopen : ¬ Hold rs p) (hlast : ∀ x ∈ rs.getLast?, x.stop ≠ p) : ∀ y ∈ rs, y.stop < p := by
  -- no range reaches beyond the point, since its last point is a use
  have hle : ∀ y ∈ rs, y.stop ≤ p := by
    intro y hy
    have hlt := h.nonempty y hy
    have hend : y.stop - 1 ∈ P :=
      (h.hold_iff _).1 ⟨y, hy, contains_iff.2 ⟨by omega, by omega⟩⟩
    have hp := hP _ hend
    by_contra hgt
    exact hopen ⟨y, hy, contains_iff.2 ⟨by omega, by omega⟩⟩
  rcases List.eq_nil_or_concat rs with rfl | ⟨before, x, rfl⟩
  · nofun
  · rw [List.concat_eq_append] at *
    have hx := hle x (by simp)
    have hlt := h.nonempty x (by simp)
    have hne : x.stop ≠ p := hlast x (by simp)
    intro y hy
    rcases List.mem_append.1 hy with hy | hy
    · have hgap := (List.pairwise_append.1 hasc).2.2 y hy x (List.mem_singleton_self x)
      omega
    · rw [List.mem_singleton.1 hy]
      omega

/-- **One more point, not before the others.** -/
theorem Partitions.ascending_extendRuns (h : Partitions P rs) (hasc : Ascending rs)
    (hP : ∀ q ∈ P, q ≤ p) (hok : LiveRange.extendRuns p calls rs = .ok rs') : Ascending rs' := by
  rcases extendRuns_cases hok with
    ⟨-, rfl⟩ | ⟨-, before, x, rfl, rfl, rfl⟩ | ⟨hopen, hlast, rfl⟩
  · exact hasc
  · obtain ⟨hbefore, -, hgap⟩ := List.pairwise_append.1 hasc
    refine List.pairwise_append.2 ⟨hbefore, List.pairwise_singleton _ _, fun y hy z hz ↦ ?_⟩
    rw [List.mem_singleton.1 hz, start_grown]
    exact hgap y hy x (List.mem_singleton_self x)
  · refine List.pairwise_append.2 ⟨hasc, List.pairwise_singleton _ _, fun y hy z hz ↦ ?_⟩
    rw [List.mem_singleton.1 hz, start_opened]
    exact h.stop_lt hasc hP hopen hlast y hy

/-- A use sees all calls on record, so the range that it changes is marked for each of them. -/
theorem Marked.extendRuns (h : Marked calls rs) (hrs : Nonempty rs)
    (hok : extendRuns p calls rs = .ok rs') : Marked calls rs' := by
  rcases extendRuns_cases hok with ⟨-, rfl⟩ | ⟨-, before, x, rfl, rfl, rfl⟩ | ⟨-, -, rfl⟩
  · exact h
  · refine List.forall_mem_append.2 ⟨(List.forall_mem_append.1 h).1,
      List.forall_mem_singleton.2 ?_⟩
    rw [acrossCall_grown, Bool.or_eq_true, List.any_eq_true]
    refine or_iff_right_of_imp fun hmark ↦ ?_
    obtain ⟨c, hc, hxc⟩ := (h x (by simp)).1 hmark
    exact ⟨c, hc, (contains_grown_iff (hrs x (by simp))).2 (Or.inl hxc)⟩
  · refine List.forall_mem_append.2 ⟨h, List.forall_mem_singleton.2 ?_⟩
    rw [acrossCall_opened, List.any_eq_true]

/-- A call that lies in no range is nothing to be marked. -/
theorem Marked.concat (h : Marked calls rs) {c : Nat} (hc : ¬ Hold rs c) :
    Marked (calls ++ [c]) rs := by
  intro x hx
  rw [h x hx]
  constructor
  · rintro ⟨d, hd, hxd⟩
    exact ⟨d, List.mem_append_left _ hd, hxd⟩
  · rintro ⟨d, hd, hxd⟩
    rcases List.mem_append.1 hd with hd | hd
    · exact ⟨d, hd, hxd⟩
    · rw [List.mem_singleton.1 hd] at hxd
      exact absurd ⟨x, hx, hxd⟩ hc

end LiveRange

namespace Liveness

variable {events : List Event} {r : Register} {rs rs' : List LiveRange} {l : Liveness}

/-! ### Any number of events -/

/-- The point of a use of the register. -/
def Event.use? (r : Register) : Event → Option Nat
  | .use s p => if s = r then some p else none
  | .call _ => none

/-- The points of the uses of a register, in the order of the uses. -/
def useSequence (events : List Event) (r : Register) : List Nat :=
  events.filterMap (Event.use? r)

/-- The order of the events of a built function: no use goes back, and no call is recorded behind a
use at its point. -/
def Event.Before : Event → Event → Prop
  | .use _ p, .use _ q => p ≤ q
  | .use _ p, .call c => p < c
  | .call _, _ => True

/-- The points in the sequence of uses are the points of use. -/
theorem mem_useSequence {p : Nat} : p ∈ useSequence events r ↔ p ∈ usePoints events r := by
  rw [useSequence, List.mem_filterMap]
  constructor
  · rintro ⟨e, he, hp⟩
    cases e with
    | call c => cases hp
    | use s q =>
      rw [Event.use?] at hp
      split at hp
      · rename_i hs
        cases hp
        exact hs ▸ he
      · cases hp
  · exact fun he ↦ ⟨_, he, by simp [Event.use?]⟩

theorem use?_eq_none {e : Event} (he : ∀ p, e ≠ .use r p) : Event.use? r e = none := by
  cases e with
  | call c => rfl
  | use s p =>
    have hs : s ≠ r := fun hs ↦ he p (hs ▸ rfl)
    rw [Event.use?, if_neg hs]

/-- What the events make of the ranges of a physical register. -/
structure Charts (events : List Event) (r : Register) (rs : List LiveRange) : Prop where
  partitions : LiveRange.Partitions (usePoints events r) rs
  ascending : (useSequence events r).Pairwise (· ≤ ·) → LiveRange.Ascending rs
  marked : events.Pairwise Event.Before → LiveRange.Marked (events.filterMap Event.call?) rs

theorem charts_nil (r : Register) : Charts [] r [] where
  partitions := by
    have hnone : usePoints [] r = ∅ := Set.eq_empty_of_forall_notMem fun _ ↦ List.not_mem_nil
    rw [hnone]
    exact LiveRange.partitions_nil
  ascending _ := .nil
  marked _ := nofun

/-- **A use of the register.** -/
theorem Charts.use (h : Charts events r rs) {p : Nat}
    (hok : LiveRange.extendRuns p (events.filterMap Event.call?) rs = .ok rs') :
    Charts (events ++ [.use r p]) r rs' where
  partitions := by
    rw [usePoints_concat_use]
    exact h.partitions.extendRuns hok
  ascending := by
    have hseq : useSequence (events ++ [.use r p]) r = useSequence events r ++ [p] := by
      simp [useSequence, Event.use?]
    rw [hseq, List.pairwise_append]
    rintro ⟨hsorted, -, hle⟩
    refine h.partitions.ascending_extendRuns (h.ascending hsorted) (fun q hq ↦ ?_) hok
    exact hle q (mem_useSequence.2 hq) p (List.mem_singleton_self p)
  marked hbefore := by
    have hcalls : (events ++ [Event.use r p]).filterMap Event.call? =
        events.filterMap Event.call? := by
      simp [Event.call?]
    rw [hcalls]
    exact (h.marked (List.pairwise_append.1 hbefore).1).extendRuns h.partitions.nonempty hok

/-- **Any other event**: a call is marked only where the register is used afterwards. -/
theorem Charts.concat_of_ne (h : Charts events r rs) {e : Event} (he : ∀ p, e ≠ .use r p) :
    Charts (events ++ [e]) r rs where
  partitions := by
    rw [usePoints_concat_of_ne he]
    exact h.partitions
  ascending := by
    have hseq : useSequence (events ++ [e]) r = useSequence events r := by
      simp [useSequence, use?_eq_none he]
    rw [hseq]
    exact h.ascending
  marked hbefore := by
    obtain ⟨hevents, -, hlast⟩ := List.pairwise_append.1 hbefore
    rw [List.filterMap_append]
    cases e with
    | use s p =>
      rw [show [Event.use s p].filterMap Event.call? = [] from rfl, List.append_nil]
      exact h.marked hevents
    | call c =>
      refine (h.marked hevents).concat fun hhold ↦ ?_
      have huse : Event.use r c ∈ events := (h.partitions.hold_iff c).1 hhold
      exact Nat.lt_irrefl c (hlast _ huse _ (List.mem_singleton_self _))

/-- **Every record charts the uses of the physical registers.** -/
theorem charts_of_record (hr : r.isPhysical) (h : record events = .ok l) :
    Charts events r (l.ranges r) := by
  have hinv := foldlM_invariant (fun done m ↦ Follows done m ∧ Charts done r (m.ranges r)) ?_
    ⟨follows_empty, charts_nil r⟩ h
  · exact hinv.2
  · rintro done e rest m m' - ⟨hfollows, hcharts⟩ hok
    refine ⟨hfollows.observe hok, ?_⟩
    cases e with
    | call c =>
      cases hok
      exact hcharts.concat_of_ne nofun
    | use s p =>
      by_cases hs : s = r
      · subst hs
        have hext := ranges_recordUse_physical hr hok
        rw [hfollows.calls] at hext
        exact hcharts.use hext
      · rw [ranges_recordUse_of_ne hfollows.wellFormed hs hok]
        exact hcharts.concat_of_ne fun q heq ↦ hs (Event.use.inj heq).1

/-- **Uses in ascending order are recorded as maximal runs.** -/
theorem Charts.runs (h : Charts events r rs) (hsorted : (useSequence events r).Pairwise (· ≤ ·)) :
    LiveRange.Runs (usePoints events r) rs :=
  h.partitions.runs (h.ascending hsorted)

/-- Where no use goes back, the uses of one register do not. -/
theorem pairwise_useSequence (h : events.Pairwise Event.Before) (r : Register) :
    (useSequence events r).Pairwise (· ≤ ·) := by
  rw [useSequence, List.pairwise_filterMap]
  refine h.imp fun {a b} hab p hp q hq ↦ ?_
  cases a with
  | call c => cases hp
  | use s p' =>
    cases b with
    | call c => cases hq
    | use s' q' =>
      rw [Event.use?, Option.ite_none_right_eq_some] at hp hq
      cases hp.2
      cases hq.2
      exact hab

end Liveness

open Liveness

/-! ### Built functions -/

namespace BuildStep

variable {Op : Type}

/-- Calls come at the points that are still ahead. -/
theorem le_of_call_mem_events {steps : List (BuildStep Op)} {p c : Nat}
    (h : .call c ∈ events p steps) : p ≤ c := by
  induction steps generalizing p with
  | nil => cases h
  | cons step rest ih =>
    cases step with
    | callBoundary =>
      rcases List.mem_cons.1 h with heq | hrest
      · exact Nat.le_of_eq (Event.call.inj heq).symm
      · exact ih hrest
    | append i =>
      rcases List.mem_append.1 h with huse | hrest
      · obtain ⟨s, -, heq⟩ := List.mem_map.1 huse
        cases heq
      · have hle := ih hrest
        omega

/-- **Building goes forward**, and a call comes before the instruction at its point. -/
theorem pairwise_events (p : Nat) (steps : List (BuildStep Op)) :
    (events p steps).Pairwise Event.Before := by
  induction steps generalizing p with
  | nil => exact .nil
  | cons step rest ih =>
    cases step with
    | callBoundary => exact List.pairwise_cons.2 ⟨fun _ _ ↦ trivial, ih p⟩
    | append i =>
      refine List.pairwise_append.2 ⟨?_, ih (p + 1), fun e he e' he' ↦ ?_⟩
      · rw [List.pairwise_map]
        exact List.pairwise_of_forall fun _ _ ↦ Nat.le_refl p
      · obtain ⟨s, -, rfl⟩ := List.mem_map.1 he
        cases e' with
        | call c => exact le_of_call_mem_events he'
        | use s' q =>
          obtain ⟨n, i, rfl, -⟩ := use_mem_events.1 he'
          show p ≤ p + 1 + n
          omega

end BuildStep

/-- **Exact ranges of physical registers.** Whatever uses and calls are recorded, in any order: the
ranges of a physical register are not empty, no two of them have a point in common, and they hold
its used points and no other ones. If no use of the register is at a lower point than one before it,
then the ranges are the maximal runs of used points, in their order.

So they are in a function built by appending instructions and noting call boundaries, where the used
points are those whose instruction names the register; and there a range is marked if and only if
any call point of the function lies in it. -/
theorem Liveness.physicalRanges_exact :
    (∀ events : List Event, (∀ e ∈ events, e.Fits) → ∃ l, record events = .ok l ∧
      ∀ r, r.isPhysical → LiveRange.Partitions (usePoints events r) (l.ranges r) ∧
        ((useSequence events r).Pairwise (· ≤ ·) →
          LiveRange.Runs (usePoints events r) (l.ranges r))) ∧
    ∀ (Op : Type) (name : String) (localBytes : Nat) (steps : List (BuildStep Op)),
      ((BuildStep.instructions steps).length < 2 ^ 32 →
        ∃ f, Function.build name localBytes steps = .ok f) ∧
      ∀ f, Function.build name localBytes steps = .ok f →
        f.code.instructions = BuildStep.instructions steps ∧
        f.liveness.calls = BuildStep.callPoints 0 steps ∧
        ∀ r, r.isPhysical → LiveRange.Runs (f.namePoints r) (f.liveness.ranges r) ∧
          ∀ x ∈ f.liveness.ranges r, x.acrossCall ↔ ∃ c ∈ f.liveness.calls, x.contains c := by
  constructor
  · intro events hfits
    obtain ⟨l, hl, -⟩ := exists_record hfits
    refine ⟨l, hl, fun r hr ↦ ?_⟩
    have hcharts := charts_of_record hr hl
    exact ⟨hcharts.partitions, hcharts.runs⟩
  · intro Op name localBytes steps
    refine ⟨fun hlen ↦ (Function.exists_build_iff name localBytes).2 (.of_length_lt hlen),
      fun f hf ↦ ?_⟩
    obtain ⟨-, -, hcode, hcalls, hrecord⟩ := Function.build_eq_ok hf
    refine ⟨hcode, hcalls, fun r hr ↦ ?_⟩
    have hcharts := charts_of_record hr hrecord
    -- in a function the points come in order, which is what makes the ranges maximal
    have hbefore := BuildStep.pairwise_events 0 steps
    refine ⟨?_, ?_⟩
    · rw [← Function.usePoints_eq hcode]
      exact hcharts.runs (pairwise_useSequence hbefore r)
    · rw [calls_of_record hrecord]
      exact hcharts.marked hbefore

/-- Uses out of order: three ranges that touch, the last of them between the others, and a call that
a use at its point does not see. And a function with a gap between two runs, of which only the first
holds a call. -/
theorem Liveness.physicalRanges_exact_reordered :
    let r : Register := ⟨1⟩
    let events := [Event.use r 3, .call 3, .use r 5, .use r 4, .use r 3]
    let steps : List (BuildStep String) := [.append ⟨"mov", [.imm 1, .reg r]⟩, .callBoundary,
      .append ⟨"call", [.reg r, .imm 0]⟩, .append ⟨"nop", []⟩, .append ⟨"inc", [.reg r]⟩]
    (∃ l, record events = .ok l ∧ l.ranges r = [⟨3, 4, false⟩, ⟨5, 6, false⟩, ⟨4, 5, false⟩] ∧
      LiveRange.Partitions {3, 4, 5} (l.ranges r)) ∧
    ∃ f, Function.build "f" 0 steps = .ok f ∧
      f.liveness.ranges r = [⟨0, 2, true⟩, ⟨3, 4, false⟩] ∧ f.liveness.calls = [1] ∧
      LiveRange.Runs (f.namePoints r) (f.liveness.ranges r) := by
  intro r events steps
  obtain ⟨hrecords, hbuilds⟩ := physicalRanges_exact
  constructor
  · obtain ⟨l, hl, hranges⟩ := hrecords events (by simp [events, Event.Fits, Unsigned32.bound])
    have hget : (record events).toOption.map (·.ranges r) =
        some [⟨3, 4, false⟩, ⟨5, 6, false⟩, ⟨4, 5, false⟩] := by decide
    rw [hl] at hget
    have hpoints : usePoints events r = {3, 4, 5} := by
      ext p
      simp only [usePoints, events, List.mem_cons, Event.use.injEq, true_and, reduceCtorEq,
        List.not_mem_nil, or_false, false_or, Set.mem_ofPred_eq, Set.mem_insert_iff,
        Set.mem_singleton_iff]
      omega
    exact ⟨l, hl, Option.some.inj hget, hpoints ▸ (hranges r (by decide)).1⟩
  · obtain ⟨hexists, hexact⟩ := hbuilds String "f" 0 steps
    obtain ⟨f, hf⟩ := hexists (by decide)
    obtain ⟨-, hcalls, hranges⟩ := hexact f hf
    have hget : (Function.build "f" 0 steps).toOption.map (·.liveness.ranges r) =
        some [⟨0, 2, true⟩, ⟨3, 4, false⟩] := by decide
    rw [hf] at hget
    exact ⟨f, hf, Option.some.inj hget, hcalls, (hranges r (by decide)).1⟩

end MachineCode

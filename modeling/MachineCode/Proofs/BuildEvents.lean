import MachineCode.Proofs.Building

/-!
# What building a function records

A function is built step by step, and a step does one or two things: it puts an instruction at the
end of the code, and it has events recorded at the current point. Neither looks at the other. So
the code of a built function is the list of its instructions, and its liveness is the record of
its events (`Function.build_eq`); what is known of every record holds of the liveness of a built
function.

Building fails only where recording does, and recording only where a point has no successor. So
building succeeds exactly if the instructions that name registers stand at points which have one
(`Function.exists_build_iff`).
-/

namespace MachineCode

/-! ### What is on record -/

namespace LiveRange

/-- Every range ends at a program point. -/
def Bounded (rs : List LiveRange) : Prop := ∀ r ∈ rs, r.stop < Unsigned32.bound

/-- New ends of ranges are program points. -/
theorem Bounded.extendLast {p : Nat} {calls : List Nat} {rs rs' : List LiveRange}
    (hrs : Bounded rs) (h : extendLast p calls rs = .ok rs') : Bounded rs' := by
  have hp := lt_bound_of_extendLast h
  rcases extendLast_cases h with ⟨before, r, rfl, rfl, rfl⟩ | ⟨-, rfl⟩
  · exact List.forall_mem_append.2
      ⟨(List.forall_mem_append.1 hrs).1, List.forall_mem_singleton.2 hp⟩
  · exact List.forall_mem_append.2 ⟨hrs, List.forall_mem_singleton.2 hp⟩

/-- A point that is covered lies before the end of a range, and needs no new one. -/
theorem Bounded.extendRuns {p : Nat} {calls : List Nat} {rs rs' : List LiveRange}
    (hrs : Bounded rs) (h : extendRuns p calls rs = .ok rs') :
    p + 1 < Unsigned32.bound ∧ Bounded rs' := by
  rw [LiveRange.extendRuns] at h
  split at h
  · rename_i hany
    cases h
    obtain ⟨r, hr, hcontains⟩ := List.any_eq_true.1 hany
    have hstop := hrs r hr
    rw [contains_iff] at hcontains
    exact ⟨by omega, hrs⟩
  · exact ⟨lt_bound_of_extendLast h, hrs.extendLast h⟩

end LiveRange

namespace Liveness

/-- The point of a call. -/
def Event.call? : Event → Option Nat
  | .use _ _ => none
  | .call p => some p

/-- The calls on record are those that were recorded, in order. -/
theorem calls_of_record {events : List Event} {l : Liveness} (h : record events = .ok l) :
    l.calls = events.filterMap Event.call? := by
  have hinv := foldlM_invariant (fun (done : List Event) (m : Liveness) ↦
    m.WellFormed ∧ m.calls = done.filterMap Event.call?) ?_ ⟨wellFormed_empty, rfl⟩ h
  · exact hinv.2
  · rintro done e rest m m' - ⟨hm, hcalls⟩ hobserve
    rw [List.filterMap_append, ← hcalls]
    cases e with
    | call p =>
      cases hobserve
      exact ⟨⟨hm.tracked, hm.single⟩, rfl⟩
    | use r p =>
      refine ⟨hm.recordUse hobserve, ?_⟩
      show m'.calls = m.calls ++ []
      rw [List.append_nil]
      rcases recordUse_cases hm hobserve with ⟨-, rfl⟩ | ⟨-, rs, rfl⟩ | ⟨-, rfl⟩ <;> rfl

/-- A use that is recorded has a point with a successor, and keeps the ends of ranges in bounds. -/
theorem bounded_recordUse {l l' : Liveness}
    (hl : ∀ r, r.isPhysical → LiveRange.Bounded (l.ranges r)) {r : Register} {p : Nat}
    (h : l.recordUse r p = .ok l') :
    (tracks r → p + 1 < Unsigned32.bound) ∧
      ∀ s, s.isPhysical → LiveRange.Bounded (l'.ranges s) := by
  by_cases hv : r.isVirtual
  · rw [recordUse, if_pos (by simp [tracks, hv]), if_pos hv] at h
    obtain ⟨rs, hrs, hl'⟩ := bind_eq_ok.1 h
    cases hl'
    refine ⟨fun _ ↦ LiveRange.lt_bound_of_extendHull hrs, fun s hs ↦ ?_⟩
    have hne : r ≠ s := by
      rintro rfl
      exact Register.not_isVirtual_of_isPhysical hs hv
    rw [ranges_insert, if_neg hne]
    exact hl s hs
  · by_cases hr : r.isPhysical
    · rw [recordUse_physical l hr] at h
      obtain ⟨rs, hrs, hl'⟩ := bind_eq_ok.1 h
      cases hl'
      obtain ⟨hp, hbounded⟩ := (hl r hr).extendRuns hrs
      refine ⟨fun _ ↦ hp, fun s hs ↦ ?_⟩
      rw [ranges_insert]
      split
      · exact hbounded
      · exact hl s hs
    · have htracks : ¬ tracks r := by simp [tracks, hv, hr]
      cases h.symm.trans (recordUse_untracked l htracks p)
      exact ⟨fun h ↦ absurd h htracks, hl⟩

/-- **Every tracked use of a record has a program point after it.** -/
theorem lt_bound_of_record {events : List Event} {l : Liveness} (h : record events = .ok l)
    {r : Register} {p : Nat} (he : .use r p ∈ events) (hr : tracks r) :
    p + 1 < Unsigned32.bound := by
  have hempty (s : Register) (_ : s.isPhysical) : LiveRange.Bounded (ranges {} s) :=
    nofun
  -- a point that is covered already is not checked again, so the bound of the ranges is carried
  -- along
  have hinv := foldlM_invariant (fun (done : List Event) (m : Liveness) ↦
    (∀ r p, .use r p ∈ done → tracks r → p + 1 < Unsigned32.bound) ∧
      ∀ s, s.isPhysical → LiveRange.Bounded (m.ranges s)) ?_
    ⟨nofun, hempty⟩ h
  · exact hinv.1 r p he hr
  · rintro done e rest m m' - ⟨hdone, hm⟩ hobserve
    cases e with
    | call q =>
      cases hobserve
      refine ⟨fun r p hmem ↦ hdone r p ?_, hm⟩
      simpa using hmem
    | use s q =>
      obtain ⟨hq, hm'⟩ := bounded_recordUse hm hobserve
      refine ⟨fun r p hmem hr ↦ ?_, hm'⟩
      rcases List.mem_append.1 hmem with hmem | hmem
      · exact hdone r p hmem hr
      · cases List.mem_singleton.1 hmem
        exact hq hr

/-- **Recording succeeds exactly if the point of every tracked use has a successor.** -/
theorem exists_record_iff {events : List Event} :
    (∃ l, record events = .ok l) ↔
      ∀ r p, .use r p ∈ events → tracks r → p + 1 < Unsigned32.bound := by
  constructor
  · rintro ⟨l, hl⟩ r p
    exact lt_bound_of_record hl
  · intro hfits
    have hrecord : ∃ l, record events = .ok l ∧ WellFormed l := by
      refine exists_foldlM (fun _ l ↦ WellFormed l) ?_ wellFormed_empty
      intro done e rest l hevents hl
      cases e with
      | call p => exact hl.exists_observe trivial
      | use r p =>
        by_cases hr : tracks r
        · exact hl.exists_observe (hfits r p (by rw [hevents]; simp) hr)
        · exact ⟨l, recordUse_untracked l hr p, hl⟩
    exact hrecord.imp fun l hl ↦ hl.1

end Liveness

open Liveness

/-! ### The parts of some steps -/

namespace BuildStep

variable {Op : Type}

/-- The instruction that a step appends. -/
def instruction? : BuildStep Op → Option (Instruction Op)
  | append i => some i
  | callBoundary => none

/-- The instructions that some steps append. -/
def instructions (steps : List (BuildStep Op)) : List (Instruction Op) :=
  steps.filterMap instruction?

/-- The points of the call boundaries, when the next instruction will stand at `p`. -/
def callPoints (p : Nat) : List (BuildStep Op) → List Nat
  | [] => []
  | append _ :: rest => callPoints (p + 1) rest
  | callBoundary :: rest => p :: callPoints p rest

/-- What some steps have recorded, when the next instruction will stand at `p`. -/
def events (p : Nat) : List (BuildStep Op) → List Event
  | [] => []
  | append i :: rest => i.registers.map (.use · p) ++ events (p + 1) rest
  | callBoundary :: rest => .call p :: events p rest

theorem use_mem_map {rs : List Register} {r : Register} {p q : Nat} :
    Event.use r q ∈ rs.map (Event.use · p) ↔ q = p ∧ r ∈ rs := by
  simp only [List.mem_map, Event.use.injEq]
  constructor
  · rintro ⟨s, hs, rfl, rfl⟩
    exact ⟨rfl, hs⟩
  · rintro ⟨rfl, hr⟩
    exact ⟨r, hr, rfl, rfl⟩

/-- A use is recorded exactly where an instruction names the register. -/
theorem use_mem_events {steps : List (BuildStep Op)} {p q : Nat} {r : Register} :
    .use r q ∈ events p steps ↔
      ∃ n i, q = p + n ∧ (instructions steps)[n]? = some i ∧ r ∈ i.registers := by
  induction steps generalizing p with
  | nil => simp [events, instructions]
  | cons step rest ih =>
    cases step with
    | callBoundary =>
      have hcall : Event.use r q ≠ .call p := nofun
      rw [events, List.mem_cons, or_iff_right hcall]
      exact ih
    | append i =>
      rw [events, List.mem_append, use_mem_map, ih]
      show _ ↔ ∃ n j, q = p + n ∧ (i :: instructions rest)[n]? = some j ∧ r ∈ j.registers
      constructor
      · rintro (⟨rfl, hr⟩ | ⟨n, j, rfl, hj, hr⟩)
        · exact ⟨0, i, rfl, rfl, hr⟩
        · exact ⟨n + 1, j, by omega, hj, hr⟩
      · rintro ⟨n, j, rfl, hj, hr⟩
        cases n with
        | zero =>
          cases hj
          exact Or.inl ⟨rfl, hr⟩
        | succ n => exact Or.inr ⟨n, j, by omega, hj, hr⟩

/-- The calls among the events stand at the points of the call boundaries. -/
theorem filterMap_events (p : Nat) (steps : List (BuildStep Op)) :
    (events p steps).filterMap Event.call? = callPoints p steps := by
  induction steps generalizing p with
  | nil => rfl
  | cons step rest ih =>
    cases step with
    | callBoundary => exact congrArg (p :: ·) (ih p)
    | append i =>
      have huses : (i.registers.map (Event.use · p)).filterMap Event.call? = [] := by
        simp [Event.call?]
      rw [events, List.filterMap_append, huses, ih]
      rfl

/-- Every tracked register stands in an instruction whose point has a successor. -/
def Fits (steps : List (BuildStep Op)) : Prop :=
  ∀ p i, (instructions steps)[p]? = some i → ∀ r ∈ i.registers, tracks r →
    p + 1 < Unsigned32.bound

/-- Steps with fewer instructions than there are points fit. -/
theorem Fits.of_length_lt {steps : List (BuildStep Op)}
    (hlen : (instructions steps).length < Unsigned32.bound) : Fits steps := by
  intro p i hi _ _ _
  have hp := (List.getElem?_eq_some_iff.1 hi).1
  omega

end BuildStep

/-! ### Appending many instructions -/

namespace Code

variable {Op : Type}

/-- Put instructions at the end, one after the other. -/
def pushAll (c : Code Op) (is : List (Instruction Op)) : Code Op :=
  is.foldl (fun c i ↦ (c.pushBack i).2) c

/-- Instructions that are put at the end one by one follow what is there. -/
theorem Represents.pushAll {c : Code Op} {l : List (Handle × Instruction Op)}
    (hc : c.Represents l) (is : List (Instruction Op)) :
    ∃ new, (c.pushAll is).Represents (l ++ new) ∧ new.map (·.2) = is := by
  induction is generalizing c l with
  | nil => exact ⟨[], by rwa [List.append_nil], rfl⟩
  | cons i rest ih =>
    obtain ⟨new, hnew, hmap⟩ := ih (hc.pushBack i)
    refine ⟨(c.cells.size, i) :: new, ?_, by rw [List.map_cons, hmap]⟩
    rw [List.append_cons]
    exact hnew

/-- The instructions of a list that was made by appending. -/
theorem instructions_pushAll (is : List (Instruction Op)) :
    ((empty : Code Op).pushAll is).instructions = is := by
  obtain ⟨new, hnew, hmap⟩ := represents_empty.pushAll is
  rw [instructions, hnew.entries_eq]
  exact hmap

end Code

/-! ### Building -/

namespace Function

variable {Op : Type}

theorem foldlM_use (f : Function Op) (rs : List Register) (l : Liveness) :
    (rs.map (Event.use · f.point)).foldlM observe l =
      rs.foldlM (fun m r ↦ m.recordUse r f.point) l := by
  rw [List.foldlM_map]
  rfl

/-- **Building records the events of its steps**, and appends their instructions beside that. -/
theorem foldlM_perform (f : Function Op) (steps : List (BuildStep Op)) :
    steps.foldlM perform f =
      (BuildStep.events f.point steps).foldlM observe f.liveness >>= fun l ↦
        .ok { f with code := f.code.pushAll (BuildStep.instructions steps), liveness := l } := by
  induction steps generalizing f with
  | nil => rfl
  | cons step rest ih =>
    rw [List.foldlM_cons]
    cases step with
    | callBoundary =>
      show (Except.ok _ >>= fun g ↦ rest.foldlM perform g) = _
      exact ih _
    | append i =>
      rw [BuildStep.events, List.foldlM_append, foldlM_use, perform, result_append]
      cases hm : i.registers.foldlM (fun m r ↦ m.recordUse r f.point) f.liveness with
      | error e => rfl
      | ok m =>
        -- the next instruction has the next point, which is where the events of the rest start
        have hpoint : (f.code.pushBack i).2.size = f.point + 1 :=
          Code.size_insertBetween f.code f.code.back none i
        show rest.foldlM perform
          { f with code := (f.code.pushBack i).2, liveness := m } = _
        rw [ih]
        show (BuildStep.events (f.code.pushBack i).2.size rest).foldlM observe m >>= _ = _
        rw [hpoint]
        rfl

/-- **A built function in closed form**: the instructions of its steps, and the record of their
events. -/
theorem build_eq (name : String) (localBytes : Nat) (steps : List (BuildStep Op)) :
    build name localBytes steps = record (BuildStep.events 0 steps) >>= fun l ↦
      .ok { name, localBytes, code := Code.empty.pushAll (BuildStep.instructions steps),
            liveness := l } :=
  foldlM_perform _ steps

/-- **What a build leaves behind**: the instructions of the steps in order, and the record of their
events. -/
theorem build_eq_ok {name : String} {localBytes : Nat} {steps : List (BuildStep Op)}
    {f : Function Op} (h : build name localBytes steps = .ok f) :
    f.name = name ∧ f.localBytes = localBytes ∧
      f.code.instructions = BuildStep.instructions steps ∧
      f.liveness.calls = BuildStep.callPoints 0 steps ∧
      record (BuildStep.events 0 steps) = .ok f.liveness := by
  rw [build_eq] at h
  obtain ⟨l, hl, heq⟩ := bind_eq_ok.1 h
  cases heq
  refine ⟨rfl, rfl, Code.instructions_pushAll _, ?_, hl⟩
  rw [calls_of_record hl, BuildStep.filterMap_events]

/-- **A function is built exactly if its instructions have program points**, those of them that
name a tracked register. -/
theorem exists_build_iff (name : String) (localBytes : Nat) {steps : List (BuildStep Op)} :
    (∃ f, build name localBytes steps = .ok f) ↔ BuildStep.Fits steps := by
  have hbuild : (∃ f, build name localBytes steps = .ok f) ↔
      ∃ l, record (BuildStep.events 0 steps) = .ok l := by
    constructor
    · rintro ⟨f, hf⟩
      exact ⟨f.liveness, (build_eq_ok hf).2.2.2.2⟩
    · rintro ⟨l, hl⟩
      exact ⟨_, by rw [build_eq, hl]; rfl⟩
  rw [hbuild, exists_record_iff]
  simp only [BuildStep.use_mem_events, Nat.zero_add]
  constructor
  · intro h p i hi r hr
    exact h r p ⟨p, i, rfl, hi, hr⟩
  · rintro h r p ⟨_, i, rfl, hi, hr⟩
    exact h p i hi r hr

end Function

end MachineCode

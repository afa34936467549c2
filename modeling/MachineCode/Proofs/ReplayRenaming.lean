import MachineCode.Proofs.BuildEvents
import MachineCode.Proofs.SessionIndependence
import MachineCode.Proofs.TraceDecoding

/-!
# Replay is a renaming

A replay numbers the virtual registers of a trace while it appends instructions, so what a register
becomes is settled where it occurs first, and the instructions before that are already in place.
Seen from the end there is one renaming for all steps: registers that are met later do not change
what the earlier ones have become (`Renaming.Numbers.apply_append`). One step is done under the
renaming after it (`BuildStep.result_replay`), and therefore a whole run under the renaming at its
end (`BuildStep.result_replayAll`).

That renaming can be read off the trace. The number of a local index is its rank, the count of the
local indices that occur before it (`TraceFunction.rank`). So the function that is built is an
instance of the trace in the sense of `TraceFunction.instantiate?`, with ranks for numbers
(`Session.result_replay`). Ranks do not change when local indices are renamed apart, and neither
does the function (`Session.result_replay_mapIndices`).
-/

namespace MachineCode

open Register

/-! ### The order of first occurrence -/

section RankIn

variable {α β : Type} [DecidableEq α] [DecidableEq β] {l l' : List α} {a b : α}

/-- How many members of a list occur before the first `a`. -/
def rankIn (l : List α) (a : α) : Nat := (l.takeWhile (· ≠ a)).toFinset.card

/-- A new member has all earlier ones in front of it. -/
theorem rankIn_append_cons (ha : a ∉ l) : rankIn (l ++ a :: l') a = l.toFinset.card := by
  have hne : ∀ x ∈ l, decide (x ≠ a) = true := by
    intro x hx
    exact decide_eq_true fun heq ↦ ha (heq ▸ hx)
  rw [rankIn, List.takeWhile_append_of_pos hne, List.takeWhile_cons_of_neg (by simp),
    List.append_nil]

/-- What comes behind a member does not change its rank. -/
theorem rankIn_append_of_mem (ha : a ∈ l) : rankIn (l ++ l') a = rankIn l a := by
  obtain ⟨as, bs, rfl, has⟩ := List.eq_append_cons_of_mem ha
  rw [List.append_assoc, List.cons_append, rankIn_append_cons has, rankIn_append_cons has]

theorem rankIn_lt_card (ha : a ∈ l) : rankIn l a < l.toFinset.card := by
  obtain ⟨as, bs, rfl, has⟩ := List.eq_append_cons_of_mem ha
  rw [rankIn_append_cons has]
  refine Finset.card_lt_card (Finset.ssubset_iff.2 ⟨a, by simpa using has, ?_⟩)
  intro x hx
  simp only [Finset.mem_insert, List.mem_toFinset, List.mem_append, List.mem_cons] at hx ⊢
  exact hx.elim (fun h ↦ Or.inr (Or.inl h)) Or.inl

/-- What occurs first has the smaller rank. -/
theorem rankIn_lt_rankIn (ha : a ∈ l) (hb : b ∈ l) (hlt : l.idxOf a < l.idxOf b) :
    rankIn l a < rankIn l b := by
  obtain ⟨as, bs, rfl, has⟩ := List.eq_append_cons_of_mem hb
  have hmem : a ∈ as := by
    by_contra hnot
    rw [List.idxOf_append_of_notMem hnot, List.idxOf_append_of_notMem has, List.idxOf_cons_self]
      at hlt
    omega
  rw [rankIn_append_of_mem hmem, rankIn_append_cons has]
  exact rankIn_lt_card hmem

/-- Ranks are ordered like first occurrences. -/
theorem rankIn_lt_rankIn_iff (ha : a ∈ l) (hb : b ∈ l) :
    rankIn l a < rankIn l b ↔ l.idxOf a < l.idxOf b := by
  refine ⟨fun hlt ↦ ?_, rankIn_lt_rankIn ha hb⟩
  rcases Nat.lt_trichotomy (l.idxOf a) (l.idxOf b) with h | h | h
  · exact h
  · rw [(List.idxOf_inj ha).1 h] at hlt
    exact absurd hlt (Nat.lt_irrefl _)
  · exact absurd hlt (Nat.lt_asymm (rankIn_lt_rankIn hb ha h))

/-- **The ranks of the members of a list are the numbers below their count.** -/
theorem bijOn_rankIn (l : List α) :
    Set.BijOn (rankIn l) {a | a ∈ l} (Set.Iio l.toFinset.card) := by
  have hmaps : Set.MapsTo (rankIn l) {a | a ∈ l} (Set.Iio l.toFinset.card) :=
    fun a ha ↦ rankIn_lt_card ha
  have hinj : Set.InjOn (rankIn l) {a | a ∈ l} := by
    intro a ha b hb heq
    have hab := (rankIn_lt_rankIn_iff ha hb).not.1 heq.not_lt
    have hba := (rankIn_lt_rankIn_iff hb ha).not.1 heq.not_gt
    exact (List.idxOf_inj ha).1 (by omega)
  refine ⟨hmaps, hinj, ?_⟩
  have hcoe : {a | a ∈ l} = (l.toFinset : Set α) := by
    ext a
    simp
  rw [hcoe] at hmaps hinj ⊢
  rw [← Finset.coe_range] at hmaps ⊢
  exact Finset.surjOn_of_injOn_of_card_le _ hmaps hinj (by simp)

/-- Renaming the members of a list keeps their ranks. -/
theorem rankIn_map {f : α → β} (hf : Set.InjOn f {a | a ∈ l}) (ha : a ∈ l) :
    rankIn (l.map f) (f a) = rankIn l a := by
  obtain ⟨as, bs, rfl, has⟩ := List.eq_append_cons_of_mem ha
  have hnot : f a ∉ as.map f := by
    intro hmem
    obtain ⟨x, hx, heq⟩ := List.mem_map.1 hmem
    exact has (hf (List.mem_append_left _ hx) ha heq ▸ hx)
  rw [List.map_append, List.map_cons, rankIn_append_cons hnot, rankIn_append_cons has]
  exact card_toFinset_map (hf.mono fun x hx ↦ List.mem_append_left _ hx)

end RankIn

namespace Register

/-- The place of a register in the order of first occurrence. -/
theorem idxOf_distinct {rs : List Register} {r : Register} (hr : r ∈ rs) :
    (distinct rs).idxOf r = rankIn rs r := by
  obtain ⟨as, bs, rfl, has⟩ := List.eq_append_cons_of_mem hr
  have hnot : r ∉ distinct as := by rwa [mem_distinct]
  have hconcat : distinct (as ++ [r]) = distinct as ++ [r] := by
    rw [distinct, List.foldl_append]
    exact if_neg (by simpa [distinct] using hnot)
  obtain ⟨rest, hrest⟩ := distinct_prefix_append (as ++ [r]) bs
  rw [rankIn_append_cons has, List.append_cons, ← hrest, hconcat, List.append_assoc,
    List.idxOf_append_of_notMem hnot, List.singleton_append, List.idxOf_cons_self, Nat.add_zero,
    length_distinct]

end Register

/-! ### Steps under one renaming -/

variable {Op : Type} {m m' : Renaming} {n : Nat} {met : List Register}

/-- Registers that are met later change nothing for those met before. -/
theorem Renaming.Numbers.apply_append {more : List Register} (hm : m.Numbers n met)
    (hm' : m'.Numbers n (met ++ more)) {r : Register} (hr : r.isVirtual → r ∈ met) :
    m'.apply r = m.apply r := by
  by_cases hv : r.isVirtual
  · have hmem : r ∈ virtuals met := mem_virtuals.2 ⟨hr hv, hv⟩
    obtain ⟨rest, hrest⟩ := virtuals_prefix_append met more
    have hmem' : r ∈ virtuals (met ++ more) := hrest ▸ List.mem_append_left _ hmem
    rw [hm.apply_of_mem hmem, hm'.apply_of_mem hmem', ← hrest, List.idxOf_append_of_mem hmem]
  · rw [hm.apply_of_not_isVirtual hv, hm'.apply_of_not_isVirtual hv]

namespace BuildStep

/-- Later steps do not change how a step is renamed. -/
theorem mapRegisters_append {more : List Register} (step : BuildStep Op)
    (hm : m.Numbers n (met ++ step.registers))
    (hm' : m'.Numbers n (met ++ step.registers ++ more)) :
    step.mapRegisters m'.apply = step.mapRegisters m.apply := by
  cases step with
  | callBoundary => rfl
  | append i =>
    refine congrArg append (Instruction.mapRegisters_congr (fun r hv ↦ ?_) fun r hr _ ↦ ?_)
    · exact hm.apply_append hm' fun hv' ↦ absurd hv' hv
    · exact hm.apply_append hm' fun _ ↦ List.mem_append_right _ hr

/-- **One step of a replay** meets its registers, and is done with them renamed. -/
theorem result_replay (step : BuildStep Op) (hm : m.Numbers n met)
    (hfit : n + (virtuals (met ++ step.registers)).length ≤ firstVirtual) :
    ∃ m', m'.Numbers n (met ++ step.registers) ∧ ∀ f : Function Op,
      (step.replay m f).result = (m', ·) <$> f.perform (step.mapRegisters m'.apply) := by
  cases step with
  | callBoundary =>
    refine ⟨m, by simpa only [registers, List.append_nil] using hm, fun f ↦ ?_⟩
    rfl
  | append i =>
    have hfit : n + (virtuals (met ++ i.registers)).length ≤ firstVirtual := hfit
    obtain ⟨m', hmeet, hm'⟩ := hm.meetAll hfit
    refine ⟨m', hm', fun f ↦ ?_⟩
    simp only [replay, Logged.result_bind, Logged.result_ofExcept, hmeet, mapRegisters,
      Function.perform]
    show (f.append (i.mapRegisters m'.apply)).result >>= _ = _
    cases (f.append (i.mapRegisters m'.apply)).result <;> rfl

/-- **A whole replay** is done with the registers renamed as they are at its end. -/
theorem result_replayAll (steps : List (BuildStep Op)) (hm : m.Numbers n met)
    (hfit : n + (virtuals (met ++ steps.flatMap (·.registers))).length ≤ firstVirtual) :
    ∃ m', m'.Numbers n (met ++ steps.flatMap (·.registers)) ∧ ∀ f : Function Op,
      (replayAll steps (m, f)).result =
        (m', ·) <$> (steps.map (·.mapRegisters m'.apply)).foldlM Function.perform f := by
  simp only [replayAll, Logged.result_foldlM]
  -- the renaming at the end does not depend on the function, so it can be chosen first
  induction steps generalizing m met with
  | nil => exact ⟨m, by simpa using hm, fun f ↦ rfl⟩
  | cons step rest ih =>
    rw [List.flatMap_cons, ← List.append_assoc] at hfit ⊢
    have hle := length_virtuals_le_append (met ++ step.registers) (rest.flatMap (·.registers))
    obtain ⟨m₁, hm₁, hstep⟩ := step.result_replay hm (by omega)
    obtain ⟨m', hm', hrest⟩ := ih hm₁ hfit
    refine ⟨m', hm', fun f ↦ ?_⟩
    rw [List.foldlM_cons, List.map_cons, List.foldlM_cons, hstep,
      step.mapRegisters_append hm₁ hm']
    cases f.perform (step.mapRegisters m₁.apply) with
    | error e => rfl
    | ok f₁ => exact hrest f₁

end BuildStep

/-! ### Replaying a function -/

/-- How many local indices of a function occur before the first `i`. -/
def TraceFunction.rank (f : TraceFunction) (i : UInt32) : Nat := rankIn f.indices i

/-- **The numbers that a replay gives are the ranks.** -/
theorem Renaming.Numbers.renumbers {t : Target Op} {tf : TraceFunction}
    {steps : List (BuildStep Op)}
    (hnamed : ∀ name r, t.register? name = some r → ¬ r.isVirtual)
    (hdecode : tf.decode t = .ok steps) (hm : m.Numbers n (steps.flatMap (·.registers))) :
    Renumbers m.apply tf.indices UInt32.toNat fun i ↦ n + tf.rank i where
  fixes r hr := hm.apply_of_not_isVirtual hr
  virtual i hi := by
    have hvirtuals := TraceFunction.virtuals_eq hnamed hdecode
    have hlt := TraceFunction.lt_of_mem_indices ((tf.decodes t).of_eq_ok hdecode).1
    have hmem : localRegister i ∈ tf.indices.map localRegister := List.mem_map_of_mem hi
    have hmet : localRegister i ∈ virtuals (steps.flatMap (·.registers)) := by
      rwa [hvirtuals, mem_distinct]
    have happly := hm.apply_of_mem hmet
    rwa [hvirtuals, idxOf_distinct hmem, rankIn_map (injOn_localRegister hlt) hi] at happly

namespace Session

variable {s : Session Op} {tf : TraceFunction}

/-- A function with an unknown mention is not built. Nothing is said, and the session stays as it
was: the registers are numbered only when the whole function has been decoded. -/
theorem replay_of_find? {m : Mention} (hm : tf.mentions.find? (!·.isKnown s.target) = some m) :
    s.replay tf = pure (.error (m.error s.target), s) := by
  rw [replay, (tf.decodes s.target).error m hm]

/-- **A replay builds the function with its local indices renamed**: the first one becomes the next
virtual register of the session, and so on in the order of first occurrence. -/
theorem result_replay (hnamed : ∀ name r, s.target.register? name = some r → ¬ r.isVirtual)
    (hfit : s.counter.issued + tf.virtualCount ≤ firstVirtual)
    (hknown : ∀ m ∈ tf.mentions, m.isKnown s.target) :
    ∃ steps, tf.instantiate? s.target (fun i ↦ s.counter.issued + tf.rank i) = some steps ∧
      (s.replay tf).result =
        (fun f ↦ (.ok f, { s with counter := ⟨s.counter.issued + tf.virtualCount⟩ })) <$>
          Function.build tf.name tf.localBytes.toNat steps := by
  obtain ⟨steps, hsteps, hdecode⟩ := (tf.decodes s.target).ok hknown
  have hlen := TraceFunction.length_virtuals hnamed hdecode
  obtain ⟨m, hm, hreplay⟩ := BuildStep.result_replayAll steps
    (Renaming.numbers_nil s.counter.issued) (by rwa [List.nil_append, hlen])
  rw [List.nil_append] at hm
  have hrenumbers := hm.renumbers hnamed hdecode
  have hcounter : m.counter = ⟨s.counter.issued + tf.virtualCount⟩ := by
    rw [← hlen, ← hm.issued]
  refine ⟨steps.map (·.mapRegisters m.apply), ?_, ?_⟩
  · rw [← tf.map_instantiate? hnamed hrenumbers, hsteps]
    rfl
  · simp only [replay, hdecode, Logged.result_bind]
    rw [hreplay, ← hcounter]
    show ((m, ·) <$> Function.build tf.name tf.localBytes.toNat _) >>= _ = _
    cases Function.build tf.name tf.localBytes.toNat (steps.map (·.mapRegisters m.apply)) <;> rfl

/-- Renaming the local indices of a trace makes no difference. -/
theorem result_replay_mapIndices
    (hnamed : ∀ name r, s.target.register? name = some r → ¬ r.isVirtual)
    (hfit : s.counter.issued + tf.virtualCount ≤ firstVirtual)
    (hknown : ∀ m ∈ tf.mentions, m.isKnown s.target) {σ : UInt32 → UInt32}
    (hσ : Set.InjOn σ {i | i ∈ tf.indices}) (hlt : ∀ i ∈ tf.indices, (σ i).toNat < 2 ^ 31) :
    (s.replay (tf.mapIndices σ)).result = (s.replay tf).result := by
  have hcount : (tf.mapIndices σ).virtualCount = tf.virtualCount := by
    rw [TraceFunction.virtualCount, tf.indices_mapIndices σ, card_toFinset_map hσ]
    rfl
  -- new indices are met in the same order, so they have the same ranks
  have hrank : ∀ i ∈ tf.indices, (tf.mapIndices σ).rank (σ i) = tf.rank i := by
    intro i hi
    rw [TraceFunction.rank, tf.indices_mapIndices σ, rankIn_map hσ hi]
    rfl
  obtain ⟨steps, hsteps, hreplay⟩ := result_replay hnamed hfit hknown
  obtain ⟨steps', hsteps', hreplay'⟩ := result_replay hnamed (hcount ▸ hfit)
    (TraceFunction.isKnown_mapIndices σ hknown hlt)
  have heq : steps' = steps := by
    rw [tf.instantiate?_mapIndices σ] at hsteps'
    refine Option.some.inj (hsteps'.symm.trans (Eq.trans ?_ hsteps))
    refine tf.instantiate?_congr hnamed fun i hi ↦ ?_
    show s.counter.issued + _ = _
    rw [hrank i hi]
  rw [hreplay, hreplay', heq, hcount]
  rfl

end Session

/-- **Replaying a function of a trace is a consistent fresh renaming, or an error without effect.**
Let a session on either machine, with any list of registers to hand out and any configuration, have
issued `n` virtual registers.

The local indices of a function have the ranks `0`, `1`, … in the order of first occurrence. If all
that the function mentions is known, and there are enough virtual registers, then the replay builds
it from its steps with virtual register `n + tf.rank i` in all places of the local index `i`, and
the counter moves on by the number of local indices. It does so whenever the instructions have
program points. Local indices that are renamed apart make no difference.

If something is not known, then the replay gives the error of the first such mention, says nothing,
and gives the session back as it was. -/
theorem Session.replay_renames (k : TargetKind) (allocatable : List Register) (config : Config)
    (n : Nat) (tf : TraceFunction) :
    let s : Session k.Opcode :=
      { target := k.target.withAllocatable allocatable, config, counter := ⟨n⟩ }
    (Set.BijOn tf.rank {i | i ∈ tf.indices} (Set.Iio tf.virtualCount) ∧
      ∀ i ∈ tf.indices, ∀ j ∈ tf.indices,
        tf.rank i < tf.rank j ↔ tf.indices.idxOf i < tf.indices.idxOf j) ∧
    (n + tf.virtualCount ≤ 2 ^ 31 → (∀ m ∈ tf.mentions, m.isKnown s.target) →
      ∃ steps, tf.instantiate? s.target (fun i ↦ n + tf.rank i) = some steps ∧
        ((∃ f s', (s.replay tf).result = .ok (.ok f, s')) ↔ BuildStep.Fits steps) ∧
        (∀ built s', (s.replay tf).result = .ok (built, s') →
          s' = { s with counter := ⟨n + tf.virtualCount⟩ } ∧
          ∃ f, built = .ok f ∧
            Function.build tf.name tf.localBytes.toNat steps = .ok f ∧
            f.code.instructions = BuildStep.instructions steps ∧
            f.liveness.calls = BuildStep.callPoints 0 steps) ∧
        ∀ σ : UInt32 → UInt32, Set.InjOn σ {i | i ∈ tf.indices} →
          (∀ i ∈ tf.indices, (σ i).toNat < 2 ^ 31) →
          (s.replay (tf.mapIndices σ)).result = (s.replay tf).result) ∧
    ∀ m, tf.mentions.find? (!·.isKnown s.target) = some m →
      s.replay tf = pure (.error (m.error s.target), s) := by
  intro s
  have hnamed : ∀ name r, s.target.register? name = some r → ¬ r.isVirtual := fun name r h ↦
    not_isVirtual_of_isPhysical (k.isPhysical_of_register? h)
  refine ⟨⟨bijOn_rankIn tf.indices, fun i hi j hj ↦ rankIn_lt_rankIn_iff hi hj⟩,
    fun hfit hknown ↦ ?_, fun m hm ↦ replay_of_find? hm⟩
  obtain ⟨steps, hsteps, hreplay⟩ := result_replay hnamed hfit hknown
  refine ⟨steps, hsteps, ?_, fun built s' hok ↦ ?_, fun σ hσ hlt ↦ ?_⟩
  · rw [← Function.exists_build_iff tf.name tf.localBytes.toNat, hreplay]
    constructor
    · rintro ⟨f, s', hok⟩
      obtain ⟨g, hg, -⟩ := map_eq_ok.1 hok
      exact ⟨g, hg⟩
    · rintro ⟨f, hf⟩
      rw [hf]
      exact ⟨f, _, rfl⟩
  · rw [hreplay] at hok
    obtain ⟨f, hbuild, heq⟩ := map_eq_ok.1 hok
    cases heq
    obtain ⟨-, -, hcode, hcalls, -⟩ := Function.build_eq_ok hbuild
    exact ⟨rfl, f, rfl, hbuild, hcode, hcalls⟩
  · exact result_replay_mapIndices hnamed hfit hknown hσ hlt

/-- A function with a call, whose two local indices come back in an address, under other local
indices too; and a function with two unknown mentions, of which the first one counts. -/
theorem Session.replay_renames_address :
    let s : Session X86.Opcode := { target := X86.target.withAllocatable [], counter := ⟨5⟩ }
    let f : TraceFunction := ⟨"f", 16, [.emit "mov" [.imm 1, .reg (.virtual 7)], .callBoundary,
      .emit "call" [.label "g", .imm 0],
      .emit "mov" [.mem ⟨8, some (.virtual 7), some (.virtual 3), 4⟩, .reg (.named "rax")]]⟩
    let g : TraceFunction := ⟨"g", 0,
      [.emit "mov" [.mem ⟨0, some (.virtual 2147483648), some (.named "acc"), 1⟩]]⟩
    (5 + f.virtualCount ≤ 2 ^ 31 ∧ ∀ m ∈ f.mentions, m.isKnown s.target) ∧
    (∃ h s', (s.replay f).result = .ok (.ok h, s') ∧ s'.counter = ⟨7⟩ ∧
      h.code.instructions = [⟨.mov, [.imm 1, .reg ⟨2147483653⟩]⟩, ⟨.call, [.label "g", .imm 0]⟩,
        ⟨.mov, [.mem ⟨8, ⟨2147483653⟩, ⟨2147483654⟩, 4⟩, .reg X86.rax]⟩] ∧
      h.liveness.calls = [1] ∧ (s.replay (f.mapIndices (10 - ·))).result = .ok (.ok h, s')) ∧
    (g.mentions.find? (!·.isKnown s.target) = some (.index 2147483648) ∧
      s.replay g = pure (.error (.virtualOutOfRange 2147483648), s)) := by
  intro s f g
  have hfit : 5 + f.virtualCount ≤ 2 ^ 31 := by decide
  have hknown : ∀ m ∈ f.mentions, m.isKnown s.target := by decide
  have hunknown : g.mentions.find? (!·.isKnown s.target) = some (.index 2147483648) := by decide
  refine ⟨⟨hfit, hknown⟩, ?_, hunknown, (replay_renames .x86 [] {} 5 g).2.2 _ hunknown⟩
  obtain ⟨steps, hsteps, hfits, hf, hσ⟩ := (replay_renames .x86 [] {} 5 f).2.1 hfit hknown
  have hinstance : f.instantiate? s.target (fun i ↦ 5 + f.rank i) = some
      [.append ⟨.mov, [.imm 1, .reg ⟨2147483653⟩]⟩, .callBoundary,
        .append ⟨.call, [.label "g", .imm 0]⟩,
        .append ⟨.mov, [.mem ⟨8, ⟨2147483653⟩, ⟨2147483654⟩, 4⟩, .reg X86.rax]⟩] := rfl
  cases hsteps.symm.trans hinstance
  obtain ⟨h, s', hok⟩ := hfits.2 (.of_length_lt (by decide))
  obtain ⟨rfl, _, ⟨⟩, -, hcode, hcalls⟩ := hf _ s' hok
  have hlt : f.indices.all fun i ↦ (10 - i).toNat < 2 ^ 31 := by decide
  simp only [List.all_eq_true, decide_eq_true_eq] at hlt
  have hinj : Set.InjOn (10 - ·) {i | i ∈ f.indices} := fun i _ j _ heq ↦
    (UInt32.sub_right_inj 10).1 heq
  exact ⟨h, _, hok, rfl, hcode, hcalls, (hσ (10 - ·) hinj hlt).trans hok⟩

end MachineCode

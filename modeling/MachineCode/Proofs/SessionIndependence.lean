import MachineCode.Proofs.RelabeledCode
import MachineCode.Proofs.TraceDecoding
import Mathlib.Algebra.GroupWithZero.Nat

/-!
# The functions of a session are independent

The functions of a session draw their virtual registers from one counter. So a function that comes
later in a trace is built from other virtual registers than it would be by itself: from those that
are `n` further on, if the functions before it took `n` of them (`Register.shift`). Apart from
that, the two replays build the same function (`Session.alike_replay`). Shifted registers keep
their order and are kept apart, so by `Session.compile_relabeled` the two functions are compiled to
the same text.

It follows that a trace compiles if and only if each of its functions does so alone, and to their
texts, one after the other (`Session.compileTrace_alone`).
-/

namespace MachineCode

open Register

/-! ### Shifted registers -/

/-- The virtual register that is `n` further on. After the last one comes the first. -/
def Register.shift (n : Nat) (r : Register) : Register :=
  if r.isVirtual then ofNumber (firstVirtual + (r.number - firstVirtual + n) % firstVirtual) else r

/-- There is a virtual register `n` further on. -/
def Register.HasShift (n : Nat) (r : Register) : Prop := r.number + n < idBound

namespace Register

/-- Virtual registers are shifted around the end of their numbers. -/
theorem number_shift {r : Register} (hr : r.isVirtual) (n : Nat) :
    (shift n r).number = firstVirtual + (r.number - firstVirtual + n) % firstVirtual := by
  have hlt := Nat.mod_lt (r.number - firstVirtual + n) (show 0 < firstVirtual by decide)
  rw [shift, if_pos hr, number_ofNumber]
  simp only [idBound, firstVirtual] at hlt ⊢
  omega

theorem shift_of_not_isVirtual {r : Register} (hr : ¬ r.isVirtual) (n : Nat) : shift n r = r :=
  if_neg hr

theorem isVirtual_shift {r : Register} (hr : r.isVirtual) (n : Nat) : (shift n r).isVirtual := by
  rw [isVirtual_iff, number_shift hr]
  exact Nat.le_add_right _ _

/-- No two registers are shifted to one. -/
theorem shift_injective (n : Nat) : Function.Injective (shift n) := by
  intro r s heq
  by_cases hr : r.isVirtual <;> by_cases hs : s.isVirtual
  · have hnumber := congrArg number heq
    rw [number_shift hr, number_shift hs] at hnumber
    rw [isVirtual_iff] at hr hs
    have hr' := r.number_lt
    have hs' := s.number_lt
    refine ext_number ?_
    simp only [idBound, firstVirtual] at hnumber hr hs hr' hs'
    omega
  · rw [shift_of_not_isVirtual hs] at heq
    exact absurd (heq ▸ isVirtual_shift hr n) hs
  · rw [shift_of_not_isVirtual hr] at heq
    exact absurd (heq ▸ isVirtual_shift hs n) hr
  · rwa [shift_of_not_isVirtual hr, shift_of_not_isVirtual hs] at heq

/-- **Registers that are shifted differ in their labels only.** -/
theorem relabeling_shift (n : Nat) : Relabeling (HasShift n) (shift n) where
  fixes r hr := shift_of_not_isVirtual hr n
  isVirtual r hr := isVirtual_shift hr n
  injective := shift_injective n
  number_lt r s hr hs hlt := by
    by_cases hrv : r.isVirtual
    · have hsv : s.isVirtual := isVirtual_iff.2 (Nat.le_trans (isVirtual_iff.1 hrv) hlt.le)
      rw [number_shift hrv, number_shift hsv]
      rw [isVirtual_iff] at hrv hsv
      simp only [HasShift, idBound, firstVirtual] at hr hs hrv hsv ⊢
      omega
    · rw [shift_of_not_isVirtual hrv]
      by_cases hsv : s.isVirtual
      · exact Nat.lt_of_lt_of_le (Nat.not_le.1 fun h ↦ hrv (isVirtual_iff.2 h))
          (isVirtual_iff.1 (isVirtual_shift hsv n))
      · rwa [shift_of_not_isVirtual hsv]

/-- The `k`-th register of a fresh session becomes the `k`-th one after `n` others. -/
theorem shift_ofNumber {n k : Nat} (h : n + k < firstVirtual) :
    shift n (ofNumber (firstVirtual + (0 + k))) = ofNumber (firstVirtual + (n + k)) := by
  have hnumber : (ofNumber (firstVirtual + (0 + k))).number = firstVirtual + (0 + k) :=
    number_ofNumber (by simp only [idBound, firstVirtual] at h ⊢; omega)
  have hv : (ofNumber (firstVirtual + (0 + k))).isVirtual := by
    rw [isVirtual_iff, hnumber]
    exact Nat.le_add_right _ _
  refine ext_number ?_
  rw [number_shift hv, hnumber, number_ofNumber]
  all_goals
    simp only [idBound, firstVirtual] at h ⊢
    omega

end Register

/-! ### Two replays -/

variable {Op : Type} {m m' : Renaming} {n : Nat} {met : List Register}

/-- Replays that start with different counters choose registers that are shifted. -/
theorem Renaming.Numbers.apply_shift (hm : m.Numbers 0 met) (hm' : m'.Numbers n met)
    (hfit : n + (virtuals met).length ≤ firstVirtual) {r : Register}
    (hr : r.isVirtual → r ∈ met) : m'.apply r = shift n (m.apply r) := by
  by_cases hv : r.isVirtual
  · have hmem : r ∈ virtuals met := mem_virtuals.2 ⟨hr hv, hv⟩
    have hlt := List.idxOf_lt_length_of_mem hmem
    rw [hm.apply_of_mem hmem, hm'.apply_of_mem hmem, shift_ofNumber (by omega)]
  · rw [hm.apply_of_not_isVirtual hv, hm'.apply_of_not_isVirtual hv, shift_of_not_isVirtual hv]

/-- A register that was met gets a number that can be shifted. -/
theorem Renaming.Numbers.hasShift (hm : m.Numbers 0 met)
    (hfit : n + (virtuals met).length ≤ firstVirtual) {r : Register}
    (hr : r.isVirtual → r ∈ met) : HasShift n (m.apply r) := by
  by_cases hv : r.isVirtual
  · have hmem : r ∈ virtuals met := mem_virtuals.2 ⟨hr hv, hv⟩
    have hlt := List.idxOf_lt_length_of_mem hmem
    rw [hm.apply_of_mem hmem, HasShift, number_ofNumber]
    all_goals
      simp only [idBound, firstVirtual] at hfit ⊢
      omega
  · rw [hm.apply_of_not_isVirtual hv, HasShift]
    rw [isVirtual_iff] at hv
    simp only [idBound, firstVirtual] at hfit hv ⊢
    omega

/-- **One step of a replay** does the same in both sessions, up to the shift. -/
theorem BuildStep.alike_replay (step : BuildStep Op) {f f' : Function Op} (hm : m.Numbers 0 met)
    (hm' : m'.Numbers n met) (hf : f.Relabeled (HasShift n) (shift n) f')
    (hfit : n + (virtuals (met ++ step.registers)).length ≤ firstVirtual) :
    Alike (fun x x' ↦ x.1.Numbers 0 (met ++ step.registers) ∧
        x'.1.Numbers n (met ++ step.registers) ∧ x.2.Relabeled (HasShift n) (shift n) x'.2)
      (step.replay m f).result (step.replay m' f').result := by
  cases step with
  | callBoundary =>
    simp only [replay, Logged.result_bind, registers, List.append_nil]
    exact hf.callBoundary.bind fun g g' hg ↦ .ok ⟨hm, hm', hg⟩
  | append i =>
    have hfit : n + (virtuals (met ++ i.registers)).length ≤ firstVirtual := hfit
    have hfit₀ : 0 + (virtuals (met ++ i.registers)).length ≤ firstVirtual := by omega
    obtain ⟨m₁, hmeet, hm₁⟩ := hm.meetAll hfit₀
    obtain ⟨m₁', hmeet', hm₁'⟩ := hm'.meetAll hfit
    have hnamed : ∀ r ∈ i.registers, r.isVirtual → r ∈ met ++ i.registers := fun r hr _ ↦
      List.mem_append_right _ hr
    -- both replays rename the instruction, the second one to registers that are shifted
    have hinstr : i.mapRegisters m₁'.apply = (i.mapRegisters m₁.apply).mapRegisters (shift n) := by
      rw [Instruction.mapRegisters_mapRegisters]
      refine Instruction.mapRegisters_congr (fun r hv ↦ ?_) fun r hr _ ↦ ?_
      · exact hm₁.apply_shift hm₁' hfit fun hv' ↦ absurd hv' hv
      · exact hm₁.apply_shift hm₁' hfit (hnamed r hr)
    have hshift : ∀ q ∈ (i.mapRegisters m₁.apply).registers, HasShift n q := by
      intro q hq
      obtain ⟨r, hr, rfl⟩ := Instruction.exists_of_mem_mapRegisters
        (hm₁.apply_of_not_isVirtual (by decide)) hq
      exact hm₁.hasShift hfit (hnamed r hr)
    simp only [replay, Logged.result_bind, Logged.result_ofExcept, hmeet, hmeet']
    refine Alike.bind (R := fun x x' ↦ x = m₁ ∧ x' = m₁') (.ok ⟨rfl, rfl⟩) ?_
    rintro _ _ ⟨rfl, rfl⟩
    rw [hinstr]
    exact (hf.append (relabeling_shift n) hshift).bind fun x x' hx ↦ .ok ⟨hm₁, hm₁', hx⟩

/-- **A whole replay** does the same in both sessions, up to the shift. -/
theorem BuildStep.alike_replayAll (steps : List (BuildStep Op)) (name : String) (localBytes : Nat)
    (hfit : n + (virtuals (steps.flatMap (·.registers))).length ≤ firstVirtual) :
    Alike (fun x x' ↦ x.2.Relabeled (HasShift n) (shift n) x'.2 ∧
        x'.1.counter.issued = n + (virtuals (steps.flatMap (·.registers))).length)
      (replayAll steps ({ counter := ⟨0⟩ }, { name, localBytes })).result
      (replayAll steps ({ counter := ⟨n⟩ }, { name, localBytes })).result := by
  rw [replayAll, replayAll, Logged.result_foldlM, Logged.result_foldlM]
  -- both have met the registers of the steps that are done
  refine (alike_foldlM (T := (· = ·))
    (fun rest rest' (x x' : Renaming × Function Op) ↦ rest' = rest ∧
      ∃ met, met ++ rest.flatMap (·.registers) = steps.flatMap (·.registers) ∧
        x.1.Numbers 0 met ∧ x'.1.Numbers n met ∧ x.2.Relabeled (HasShift n) (shift n) x'.2)
    ?_ (List.forall₂_same.2 fun _ _ ↦ rfl) ⟨rfl, [], rfl, Renaming.numbers_nil 0,
      Renaming.numbers_nil n, Function.relabeled_empty name localBytes⟩).mono ?_
  · rintro step _ rest _ ⟨m, f⟩ ⟨m', f'⟩ rfl ⟨hrest, met, hmet, hm, hm', hf⟩
    cases hrest
    rw [List.flatMap_cons, ← List.append_assoc] at hmet
    have hle := length_virtuals_le_append (met ++ step.registers) (rest.flatMap (·.registers))
    rw [hmet] at hle
    refine (step.alike_replay hm hm' hf (by omega)).mono fun x x' ⟨hx, hx', hfx⟩ ↦ ?_
    exact ⟨rfl, _, hmet, hx, hx', hfx⟩
  · rintro ⟨m, f⟩ ⟨m', f'⟩ ⟨-, met, hmet, -, hm', hf⟩
    rw [List.flatMap_nil, List.append_nil] at hmet
    subst hmet
    exact ⟨hf, hm'.issued⟩

/-! ### Functions alone -/

namespace Session

variable {s : Session Op}

/-- The text of a function that is built and compiled alone, in a fresh session with the same
target and the same configuration. -/
def textAlone (s : Session Op) (tf : TraceFunction) : Logged Failure String := do
  let (built, s) ← (Session.replay { s with counter := {} } tf).mapError .fault
  let c ← s.compile (← Logged.orError built)
  return s.functionText c

/-- A function is built in a session as it is alone, up to the shift. -/
theorem alike_replay (s : Session Op) (tf : TraceFunction)
    (hnamed : ∀ name r, s.target.register? name = some r → ¬ r.isVirtual)
    (hfit : s.counter.issued + tf.virtualCount ≤ firstVirtual) :
    Alike (fun x x' ↦ ∃ c c', x.2 = { s with counter := c } ∧ x'.2 = { s with counter := c' } ∧
        c'.issued ≤ s.counter.issued + tf.virtualCount ∧
        Alike (fun f f' ↦ f.Relabeled (HasShift s.counter.issued) (shift s.counter.issued) f')
          x.1 x'.1)
      (Session.replay { s with counter := {} } tf).result (s.replay tf).result := by
  simp only [replay]
  cases hdecode : tf.decode s.target with
  | error e => exact .ok ⟨{}, s.counter, rfl, rfl, Nat.le_add_right _ _, .error e e⟩
  | ok steps =>
    have hlen := TraceFunction.length_virtuals hnamed hdecode
    have hreplay := BuildStep.alike_replayAll (n := s.counter.issued) steps tf.name
      tf.localBytes.toNat (by omega)
    simp only [Logged.result_bind]
    refine hreplay.bind ?_
    rintro x x' ⟨hx, hissued⟩
    exact .ok ⟨x.1.counter, x'.1.counter, rfl, rfl, by omega, .ok hx⟩

/-- **A function of a session gets the text that it gets alone.** -/
theorem alike_function (s : Session Op) (tf : TraceFunction)
    (hnamed : ∀ name r, s.target.register? name = some r → ¬ r.isVirtual)
    (hcall : ∀ ρ i, s.target.isCall (i.mapRegisters ρ) = s.target.isCall i)
    (huses : ∀ ρ i, s.target.implicitUses (i.mapRegisters ρ) = s.target.implicitUses i)
    (hfit : s.counter.issued + tf.virtualCount ≤ firstVirtual) :
    Alike (fun text x ↦ s.functionText x.1 = text ∧ ∃ c, x.2 = { s with counter := c } ∧
        c.issued ≤ s.counter.issued + tf.virtualCount)
      (s.textAlone tf).result
      ((s.replay tf).result.mapError .fault >>= fun x ↦ x.1.mapError .error >>= fun f ↦
        (x.2.compile f).result >>= fun c ↦ .ok (c, x.2)) := by
  simp only [textAlone, Logged.result_bind, Logged.result_mapError, Logged.result_orError]
  refine ((s.alike_replay tf hnamed hfit).mapError _ _).bind ?_
  rintro ⟨built, _⟩ ⟨built', _⟩ ⟨c, c', rfl, rfl, hissued, hbuilt⟩
  refine (hbuilt.mapError _ _).bind fun f f' hf ↦ ?_
  refine (compile_relabeled rfl rfl hf (relabeling_shift _) hcall huses).bind fun x x' hx ↦ .ok ?_
  exact ⟨hx, c', rfl, hissued⟩

/-- **The functions of a session get the texts that they get alone**, if there are enough virtual
registers for all of them. -/
theorem alike_compileAll (s : Session Op) (fs : List TraceFunction)
    (hnamed : ∀ name r, s.target.register? name = some r → ¬ r.isVirtual)
    (hcall : ∀ ρ i, s.target.isCall (i.mapRegisters ρ) = s.target.isCall i)
    (huses : ∀ ρ i, s.target.implicitUses (i.mapRegisters ρ) = s.target.implicitUses i)
    (hfit : s.counter.issued + (fs.map (·.virtualCount)).sum ≤ firstVirtual) :
    Alike (fun texts cs ↦ cs.map s.functionText = texts)
      (fs.mapM fun tf ↦ (s.textAlone tf).result) (s.compileAll fs).result := by
  induction fs generalizing s with
  | nil => exact .ok rfl
  | cons tf rest ih =>
    rw [List.map_cons, List.sum_cons] at hfit
    have hhead := s.alike_function tf hnamed hcall huses (by omega)
    have hcons : (s.compileAll (tf :: rest)).result =
        ((s.replay tf).result.mapError .fault >>= fun x ↦ x.1.mapError .error >>= fun f ↦
          (x.2.compile f).result >>= fun c ↦ .ok (c, x.2)) >>=
          fun y ↦ (y.2.compileAll rest).result >>= fun cs ↦ .ok (y.1 :: cs) := by
      simp only [compileAll, Logged.result_bind, Logged.result_mapError, Logged.result_orError,
        bind_assoc]
      rfl
    rw [List.mapM_cons, hcons]
    refine hhead.bind ?_
    -- the session goes on with its counter only, so the rest is compiled as if in another session
    rintro text ⟨c, _⟩ ⟨htext, counter, rfl, hissued⟩
    have htail := ih { s with counter } hnamed hcall huses
      (Nat.le_trans (Nat.add_le_add_right hissued _) (by omega))
    refine htail.bind fun texts cs hcs ↦ .ok ?_
    rw [List.map_cons, htext]
    exact congrArg _ hcs

end Session

/-! ### Traces -/

/-- In a register file of a possible size the names are those of physical registers. -/
theorem RegisterFile.isPhysical_of_named? {rf : RegisterFile} (hsize : rf.names.length < firstSlot)
    {name : String} {r : Register} (h : rf.named? name = some r) : r.isPhysical := by
  obtain ⟨i, hi, rfl⟩ := Option.map_eq_some_iff.1 h
  have hlt := (List.findIdx?_eq_some_iff_getElem.1 hi).1
  rw [isPhysical_iff, number_ofNumber]
  all_goals
    simp only [idBound, firstSlot] at hsize ⊢
    omega

/-- The registers that a machine has names for are physical ones. -/
theorem TargetKind.isPhysical_of_register? (k : TargetKind) {name : String} {r : Register}
    (h : k.target.register? name = some r) : r.isPhysical := by
  cases k with
  | x86 => exact RegisterFile.isPhysical_of_named? (by decide) h
  | riscV => exact RegisterFile.isPhysical_of_named? (by decide) h

/-- **The functions of a session do not influence each other.** On either machine, with any list of
registers to hand out and any configuration, let a trace have no more than `2 ^ 31` virtual
registers, counted function by function. Then the trace compiles if and only if each of its
functions compiles alone in a fresh session; and its text is the start of the text section and,
after an empty line each, the texts that the functions get alone. -/
theorem Session.compileTrace_alone (k : TargetKind) (allocatable : List Register) (config : Config)
    (trace : Trace) (hcount : (trace.functions.map (·.virtualCount)).sum ≤ 2 ^ 31) :
    let s : Session k.Opcode := { target := k.target.withAllocatable allocatable, config }
    ((∃ text, (s.compileTrace trace).result = .ok text) ↔
      ∀ tf ∈ trace.functions, ∃ text, (s.textAlone tf).result = .ok text) ∧
    ∀ text, (s.compileTrace trace).result = .ok text → ∃ texts,
      List.Forall₂ (fun tf x ↦ (s.textAlone tf).result = .ok x) trace.functions texts ∧
      text = "\t.text\n" ++ String.join (texts.map ("\n" ++ ·)) := by
  intro s
  have halike := s.alike_compileAll trace.functions
    (fun name r h ↦ Register.not_isVirtual_of_isPhysical (k.isPhysical_of_register? h))
    (k.conforming allocatable).isCall_mapRegisters k.implicitUses_mapRegisters
    (Nat.le_trans (Nat.le_of_eq (Nat.zero_add _)) hcount)
  have htrace : ∀ text, (s.compileTrace trace).result = .ok text ↔
      ∃ cs, (s.compileAll trace.functions).result = .ok cs ∧ s.programText cs = text := by
    intro text
    rw [compileTrace, Logged.result_bind, bind_eq_ok]
    simp only [Logged.result_pure, Except.ok.injEq]
  constructor
  · rw [← exists_mapM_eq_ok, halike.exists_ok_iff]
    constructor
    · rintro ⟨text, htext⟩
      obtain ⟨cs, hcs, -⟩ := (htrace text).1 htext
      exact ⟨cs, hcs⟩
    · rintro ⟨cs, hcs⟩
      exact ⟨_, (htrace _).2 ⟨cs, hcs, rfl⟩⟩
  · intro text htext
    obtain ⟨cs, hcs, rfl⟩ := (htrace text).1 htext
    obtain ⟨texts, htexts⟩ := halike.exists_ok_iff.2 ⟨cs, hcs⟩
    obtain ⟨cs', hcs', rfl⟩ := halike.exists_ok htexts
    cases hcs.symm.trans hcs'
    refine ⟨_, mapM_eq_ok.1 htexts, ?_⟩
    rw [programText, Target.programText, List.map_map, List.map_map]
    rfl

/-- Two functions that share a local index, the second with more virtual registers than there are
registers to hand out. -/
theorem Session.compileTrace_alone_spilled :
    let s : Session X86.Opcode := { target := X86.target.withAllocatable [X86.rax, X86.rdx] }
    let f : TraceFunction := ⟨"f", 0, [.emit "mov" [.imm 1, .reg (.virtual 4)],
      .emit "mov" [.reg (.virtual 4), .reg (.named "rax")]]⟩
    let g : TraceFunction := ⟨"g", 8, [.emit "mov" [.imm 1, .reg (.virtual 0)],
      .emit "mov" [.imm 2, .reg (.virtual 4)], .emit "mov" [.imm 3, .reg (.virtual 9)],
      .emit "add" [.reg (.virtual 4), .reg (.virtual 0)],
      .emit "add" [.reg (.virtual 9), .reg (.virtual 0)]]⟩
    ([f, g].map (·.virtualCount)).sum ≤ 2 ^ 31 ∧
      ∃ text x y, (s.compileTrace ⟨none, [f, g]⟩).result = .ok text ∧
        (s.textAlone f).result = .ok x ∧ (s.textAlone g).result = .ok y ∧
        text = "\t.text\n" ++ String.join ["\n" ++ x, "\n" ++ y] := by
  intro s f g
  have hcount : ([f, g].map (·.virtualCount)).sum ≤ 2 ^ 31 := by decide
  have hf : (s.textAlone f).result.toOption.isSome := by decide
  have hg : (s.textAlone g).result.toOption.isSome := by decide
  obtain ⟨x, hx⟩ := Option.isSome_iff_exists.1 hf
  obtain ⟨y, hy⟩ := Option.isSome_iff_exists.1 hg
  rw [toOption_eq_some] at hx hy
  obtain ⟨hiff, htexts⟩ := compileTrace_alone .x86 [X86.rax, X86.rdx] {} ⟨none, [f, g]⟩ hcount
  obtain ⟨text, htext⟩ := hiff.2 (List.forall_mem_cons.2 ⟨⟨x, hx⟩, by simpa using ⟨y, hy⟩⟩)
  obtain ⟨texts, hall, rfl⟩ := htexts text htext
  cases hall with
  | cons hx' hrest =>
    cases hrest with
    | cons hy' hnil =>
      cases hnil
      exact ⟨hcount, _, _, _, htext, hx', hy', rfl⟩

end MachineCode

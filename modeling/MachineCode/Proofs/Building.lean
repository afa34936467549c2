import MachineCode.Proofs.CodeSequence
import MachineCode.Proofs.Recording
import MachineCode.Trace.Replay

/-!
# Functions as they are built

A function comes about by appending instructions and noting call boundaries (`Function.build`). Its
instructions are numbered in the order of appending, so the points at which liveness is recorded
never go back. This order makes the liveness of a built function exact:

* a virtual register is live wherever an instruction names it (`Recorded.covers`);
* its range is marked if and only if a call lies in it (`Liveness.Exact.acrossCall_iff`). A call is
  noted at the point that the next instruction will have, which lies behind every range so far; a
  range that comes to hold it later is stretched later, and then the call is on record.

An instruction selector sees a builder, which also hands out virtual registers and emits calls as
one instruction with its boundary (`Function.Emission`). Its calls are all on record
(`recorded_of_emitAll`).
-/

namespace MachineCode

namespace Liveness

/-- The register is live at the point. -/
def Covers (l : Liveness) (r : Register) (p : Nat) : Prop := ∃ x ∈ l.ranges r, x.contains p

/-- A virtual register that is live before and after a point is live there: it has one range. -/
theorem WellFormed.covers_between {l : Liveness} (hl : l.WellFormed) {v : Register}
    (hv : v.isVirtual) {q p r : Nat} (hq : l.Covers v q) (hr : l.Covers v r) (hqp : q ≤ p)
    (hpr : p ≤ r) : l.Covers v p := by
  obtain ⟨x, hx, hxq⟩ := hq
  obtain ⟨y, hy, hyr⟩ := hr
  cases hl.ranges_subsingleton hv hx hy
  rw [LiveRange.contains_iff] at hxq hyr
  exact ⟨x, hx, LiveRange.contains_iff.2 ⟨by omega, by omega⟩⟩

/-- The record of a function whose points are below `p`: no range reaches further, and a range is
marked exactly if a call lies in it. -/
structure Exact (p : Nat) (l : Liveness) : Prop where
  wellFormed : l.WellFormed
  stop_le : ∀ v, v.isVirtual → ∀ x ∈ l.ranges v, x.stop ≤ p
  acrossCall_iff : ∀ v, v.isVirtual → ∀ x ∈ l.ranges v,
    x.acrossCall ↔ ∃ c ∈ l.calls, x.contains c

/-- A function without instructions has an exact record. -/
theorem exact_empty : Exact 0 {} where
  wellFormed := wellFormed_empty
  stop_le _ _ _ h := nomatch h
  acrossCall_iff _ _ _ h := nomatch h

/-- A record that is exact up to a point is so up to every later one. -/
theorem Exact.mono {l : Liveness} {p q : Nat} (h : l.Exact p) (hpq : p ≤ q) : l.Exact q :=
  ⟨h.wellFormed, fun v hv x hx ↦ Nat.le_trans (h.stop_le v hv x hx) hpq, h.acrossCall_iff⟩

/-- New ranges for one register leave those of the others. -/
theorem ranges_insert (l : Liveness) (r s : Register) (rs : List LiveRange) :
    Liveness.ranges { l with table := l.table.insert r rs } s =
      if r = s then rs else l.ranges s := by
  rw [ranges, get?, RegisterMap.get?_insert]
  split <;> rfl

/-! ### One use -/

/-- The range of a register that has one is stretched to its hull with the point. -/
theorem stretched_eq {l : Liveness} (hl : l.WellFormed) {v : Register} (hv : v.isVirtual)
    {x : LiveRange} (hx : x ∈ l.ranges v) (p : Nat) : l.stretched v p = x.hull p l.calls := by
  obtain ⟨rs, hget, hmem⟩ := mem_ranges_iff.1 hx
  obtain ⟨y, rfl, -⟩ := hl.single v rs hv hget
  rw [List.mem_singleton] at hmem
  rw [stretched, ranges, hget, hmem]
  rfl

/-- A range is opened or stretched. -/
theorem stretched_cases {l : Liveness} (hl : l.WellFormed) {v : Register} (hv : v.isVirtual)
    (p : Nat) : l.stretched v p = LiveRange.opened p l.calls ∨
      ∃ x ∈ l.ranges v, l.stretched v p = x.hull p l.calls := by
  rcases hr : l.ranges v with - | ⟨x, rest⟩
  · left
    rw [stretched, hr]
  · right
    exact ⟨x, by simp, stretched_eq hl hv (by rw [hr]; simp) p⟩

theorem contains_stretched {l : Liveness} (hl : l.WellFormed) {v : Register} (hv : v.isVirtual)
    (p : Nat) : (l.stretched v p).contains p := by
  rcases stretched_cases hl hv p with h | ⟨x, -, h⟩
  · rw [h]
    exact LiveRange.contains_opened p l.calls
  · rw [h]
    exact LiveRange.contains_hull (Or.inl rfl)

/-- What was live stays live, and so is now the register that was used. -/
theorem covers_recordUse {l l' : Liveness} (hl : l.WellFormed) {r : Register} {p : Nat}
    (h : l.recordUse r p = .ok l') {v : Register} (hv : v.isVirtual) {q : Nat}
    (hq : l.Covers v q ∨ v = r ∧ q = p) : l'.Covers v q := by
  -- only the first case concerns a virtual register, and its range can only grow
  rcases recordUse_cases hl h with ⟨hr, rfl⟩ | ⟨hr, rs, rfl⟩ | ⟨hr, rfl⟩
  · by_cases hrv : r = v
    · subst hrv
      refine ⟨l.stretched r p, by rw [ranges_insert, if_pos rfl]; simp, ?_⟩
      rcases hq with ⟨x, hx, hxq⟩ | ⟨-, rfl⟩
      · rw [stretched_eq hl hv hx]
        exact LiveRange.contains_hull (Or.inr hxq)
      · exact contains_stretched hl hr q
    · rcases hq with ⟨x, hx, hxq⟩ | ⟨hvr, -⟩
      · exact ⟨x, by rw [ranges_insert, if_neg hrv]; exact hx, hxq⟩
      · exact absurd hvr.symm hrv
  · have hne : r ≠ v := by
      rintro rfl
      exact Register.not_isVirtual_of_isPhysical hr hv
    rcases hq with ⟨x, hx, hxq⟩ | ⟨hvr, -⟩
    · exact ⟨x, by rw [ranges_insert, if_neg hne]; exact hx, hxq⟩
    · exact absurd hvr.symm hne
  · rcases hq with hq | ⟨rfl, -⟩
    · exact hq
    · exact absurd (by simp [tracks, hv]) hr

/-- The new range is marked exactly if a call lies in it: the calls on record are looked at again.
-/
theorem acrossCall_stretched_iff {l : Liveness} {n : Nat} (h : l.Exact n) {v : Register}
    (hv : v.isVirtual) (p : Nat) :
    (l.stretched v p).acrossCall ↔ ∃ c ∈ l.calls, (l.stretched v p).contains c := by
  rcases stretched_cases h.wellFormed hv p with heq | ⟨x, hx, heq⟩
  · rw [heq, LiveRange.acrossCall_opened, List.any_eq_true]
  · rw [heq, LiveRange.acrossCall_hull, Bool.or_eq_true, List.any_eq_true]
    refine or_iff_right_of_imp fun hmark ↦ ?_
    obtain ⟨c, hc, hxc⟩ := (h.acrossCall_iff v hv x hx).1 hmark
    exact ⟨c, hc, LiveRange.contains_hull (Or.inr hxc)⟩

/-- A use at the last point keeps the record exact. -/
theorem Exact.recordUse {l l' : Liveness} {p : Nat} (h : l.Exact (p + 1)) {r : Register}
    (hok : l.recordUse r p = .ok l') : l'.Exact (p + 1) ∧ l'.calls = l.calls := by
  have hwf := h.wellFormed.recordUse hok
  rcases recordUse_cases h.wellFormed hok with ⟨hr, rfl⟩ | ⟨hr, rs, rfl⟩ | ⟨-, rfl⟩
  · refine ⟨⟨hwf, ?_, ?_⟩, rfl⟩
    · intro v hv x hx
      rw [ranges_insert] at hx
      split at hx
      · rcases List.mem_singleton.1 hx with rfl
        rcases stretched_cases h.wellFormed hr p with heq | ⟨y, hy, heq⟩
        · rw [heq]
          exact Nat.le_refl _
        · rw [heq, LiveRange.stop_hull]
          exact Nat.max_le.2 ⟨h.stop_le r hr y hy, Nat.le_refl _⟩
      · exact h.stop_le v hv x hx
    · intro v hv x hx
      rw [ranges_insert] at hx
      split at hx
      · rcases List.mem_singleton.1 hx with rfl
        exact acrossCall_stretched_iff h hr p
      · exact h.acrossCall_iff v hv x hx
  · -- the ranges of a physical register are nothing to the virtual ones
    have hne : ∀ v, v.isVirtual → r ≠ v := by
      rintro v hv rfl
      exact Register.not_isVirtual_of_isPhysical hr hv
    refine ⟨⟨hwf, ?_, ?_⟩, rfl⟩
    · intro v hv x hx
      rw [ranges_insert, if_neg (hne v hv)] at hx
      exact h.stop_le v hv x hx
    · intro v hv x hx
      rw [ranges_insert, if_neg (hne v hv)] at hx
      exact h.acrossCall_iff v hv x hx
  · exact ⟨h, rfl⟩

/-- A call behind all ranges keeps the record exact: it lies in none of them. -/
theorem Exact.recordCall {l : Liveness} {p : Nat} (h : l.Exact p) : (l.recordCall p).Exact p := by
  refine ⟨⟨h.wellFormed.tracked, h.wellFormed.single⟩, h.stop_le, fun v hv x hx ↦ ?_⟩
  rw [h.acrossCall_iff v hv x hx]
  show _ ↔ ∃ c ∈ l.calls ++ [p], x.contains c
  constructor
  · rintro ⟨c, hc, hxc⟩
    exact ⟨c, List.mem_append_left _ hc, hxc⟩
  · rintro ⟨c, hc, hxc⟩
    rcases List.mem_append.1 hc with hc | hc
    · exact ⟨c, hc, hxc⟩
    · rcases List.mem_singleton.1 hc with rfl
      have hstop := h.stop_le v hv x hx
      have := (LiveRange.contains_iff.1 hxc).2
      omega

/-- All the registers of an instruction are recorded at its point. -/
theorem Exact.recordUses {l l' : Liveness} {p : Nat} (h : l.Exact (p + 1)) {rs : List Register}
    (hok : rs.foldlM (fun l r ↦ l.recordUse r p) l = .ok l') :
    l'.Exact (p + 1) ∧ l'.calls = l.calls ∧
      ∀ v q, v.isVirtual → (l.Covers v q ∨ v ∈ rs ∧ q = p) → l'.Covers v q := by
  refine foldlM_invariant (fun (done : List Register) (m : Liveness) ↦
    m.Exact (p + 1) ∧ m.calls = l.calls ∧
      ∀ v q, v.isVirtual → (l.Covers v q ∨ v ∈ done ∧ q = p) → m.Covers v q) ?_
    ⟨h, rfl, fun v q _ hq ↦ hq.resolve_right (by simp)⟩ hok
  rintro done r rest m m' - ⟨hexact, hcalls, hcovers⟩ hstep
  obtain ⟨hexact', hcalls'⟩ := hexact.recordUse hstep
  refine ⟨hexact', hcalls'.trans hcalls, fun v q hv hq ↦ ?_⟩
  refine covers_recordUse hexact.wellFormed hstep hv ?_
  rcases hq with hq | ⟨hmem, hqp⟩
  · exact Or.inl (hcovers v q hv (Or.inl hq))
  · rcases List.mem_append.1 hmem with hmem | hmem
    · exact Or.inl (hcovers v q hv (Or.inr ⟨hmem, hqp⟩))
    · exact Or.inr ⟨List.mem_singleton.1 hmem, hqp⟩

/-- Recording a use with messages records it. -/
theorem result_noteUse (l : Liveness) (r : Register) (p : Nat) :
    (l.noteUse r p).result = l.recordUse r p := by
  rw [noteUse, Logged.result_bind, Logged.result_ofExcept]
  cases l.recordUse r p <;> rfl

end Liveness

theorem getElem?_concat_eq_some {α : Type} {l : List α} {a b : α} {p : Nat}
    (h : (l ++ [a])[p]? = some b) : l[p]? = some b ∨ p = l.length ∧ b = a := by
  rw [List.getElem?_append] at h
  split at h
  · exact Or.inl h
  · have hlt := (List.getElem?_eq_some_iff.1 h).1
    have hp : p = l.length := by
      simp only [List.length_singleton] at hlt
      omega
    subst hp
    simp only [Nat.sub_self, List.getElem?_cons_zero, Option.some.injEq] at h
    exact Or.inr ⟨rfl, h.symm⟩

namespace Function

variable {Op : Type} {f f' : Function Op} {l : List (Handle × Instruction Op)}

/-! ### Building -/

/-- Do one thing to a function. -/
def perform (f : Function Op) : BuildStep Op → Except Fault (Function Op)
  | .append i => (·.2) <$> (f.append i).result
  | .callBoundary => f.callBoundary.result

/-- The function that comes about by some steps. -/
def build (name : String) (localBytes : Nat) (steps : List (BuildStep Op)) :
    Except Fault (Function Op) :=
  steps.foldlM perform { name, localBytes, liveness := { table := .empty } }

/-- Appending records the registers of the instruction at its point, and puts it at the end. -/
theorem result_append (f : Function Op) (i : Instruction Op) :
    (f.append i).result =
      i.registers.foldlM (fun m r ↦ m.recordUse r f.point) f.liveness >>= fun m ↦
        .ok ((f.code.pushBack i).1, { f with code := (f.code.pushBack i).2, liveness := m }) := by
  rw [append, Logged.result_bind, Logged.result_foldlM]
  simp only [Liveness.result_noteUse]
  rfl

theorem perform_append_eq_ok {i : Instruction Op} :
    f.perform (.append i) = .ok f' ↔
      ∃ m, i.registers.foldlM (fun m r ↦ m.recordUse r f.point) f.liveness = .ok m ∧
        f' = { f with code := (f.code.pushBack i).2, liveness := m } := by
  rw [perform, result_append, map_eq_ok]
  constructor
  · rintro ⟨⟨h, g⟩, hg, rfl⟩
    obtain ⟨m, hm, heq⟩ := bind_eq_ok.1 hg
    cases heq
    exact ⟨m, hm, rfl⟩
  · rintro ⟨m, hm, rfl⟩
    exact ⟨_, bind_eq_ok.2 ⟨m, hm, rfl⟩, rfl⟩

/-- The function has the instructions `l`, and its liveness is recorded exactly. -/
structure Recorded (f : Function Op) (l : List (Handle × Instruction Op)) : Prop where
  code : f.code.Represents l
  liveness : f.liveness.Exact f.point
  /-- A virtual register is live wherever it is named. -/
  covers : ∀ p e, l[p]? = some e → ∀ v ∈ e.2.registers, v.isVirtual → f.liveness.Covers v p

theorem Recorded.point_eq (h : f.Recorded l) : f.point = l.length := h.code.size

theorem recorded_empty (name : String) (localBytes : Nat) :
    Recorded ({ name, localBytes } : Function Op) [] where
  code := Code.represents_empty
  liveness := Liveness.exact_empty
  covers := by simp

/-- Appending an instruction: it stands at the end, and what it names is recorded there. -/
theorem Recorded.append (h : f.Recorded l) {i : Instruction Op}
    (hok : f.perform (.append i) = .ok f') :
    f'.Recorded (l ++ [(f.code.cells.size, i)]) ∧ f'.liveness.calls = f.liveness.calls := by
  obtain ⟨m, hm, rfl⟩ := perform_append_eq_ok.1 hok
  obtain ⟨hexact, hcalls, hcovers⟩ := (h.liveness.mono (Nat.le_succ _)).recordUses hm
  have hcode := h.code.pushBack i
  have hsize : (f.code.pushBack i).2.size = f.point + 1 := by
    rw [hcode.size, List.length_append, List.length_singleton, h.point_eq]
  refine ⟨⟨hcode, ?_, ?_⟩, hcalls⟩
  · show m.Exact (f.code.pushBack i).2.size
    rw [hsize]
    exact hexact
  · intro p e he v hv hvirt
    rcases getElem?_concat_eq_some he with he | ⟨rfl, rfl⟩
    · exact hcovers v p hvirt (Or.inl (h.covers p e he v hv hvirt))
    · exact hcovers v _ hvirt (Or.inr ⟨hv, h.point_eq.symm⟩)

/-- **A call boundary** adds a call at the next point, and no instruction. -/
theorem Recorded.callBoundary (h : f.Recorded l) (hok : f.perform .callBoundary = .ok f') :
    f'.Recorded l ∧ f'.liveness.calls = f.liveness.calls ++ [l.length] := by
  cases hok
  refine ⟨⟨h.code, h.liveness.recordCall, fun p e he v hv hvirt ↦ ?_⟩, ?_⟩
  · exact h.covers p e he v hv hvirt
  · show f.liveness.calls ++ [f.point] = _
    rw [h.point_eq]

/-- **A built function is recorded exactly**, whatever it was built from. -/
theorem recorded_of_build {name : String} {localBytes : Nat} {steps : List (BuildStep Op)}
    (h : build name localBytes steps = .ok f) : ∃ l, f.Recorded l := by
  refine foldlM_invariant (fun (_ : List (BuildStep Op)) (g : Function Op) ↦ ∃ l, g.Recorded l) ?_
    ⟨[], recorded_empty name localBytes⟩ h
  rintro done step rest g g' - ⟨l, hg⟩ hstep
  cases step with
  | append i => exact ⟨_, (hg.append hstep).1⟩
  | callBoundary => exact ⟨_, (hg.callBoundary hstep).1⟩

/-! ### Emitting -/

/-- What an instruction selector asks of a builder. -/
inductive Emission (Op : Type) where
  | newVirtual
  | emit (i : Instruction Op)
  | emitCall (opcode : Op) (callee : Operand) (count : Nat)
  | callBoundary

/-- Do what an instruction selector asks, with the supply of virtual registers at hand. -/
def emitOne (b : Function Op × Counter) : Emission Op → Except Fault (Function Op × Counter)
  | .newVirtual => (fun r ↦ (b.1, r.2)) <$> b.2.fresh
  | .emit i => (fun r ↦ (r.2, b.2)) <$> (b.1.append i).result
  | .emitCall opcode callee count =>
    (fun r ↦ (r.2, b.2)) <$> (b.1.appendCall opcode callee count).result
  | .callBoundary => (fun f ↦ (f, b.2)) <$> b.1.callBoundary.result

/-- The function that an instruction selector builds. -/
def emitAll (name : String) (localBytes : Nat) (counter : Counter)
    (emissions : List (Emission Op)) : Except Fault (Function Op × Counter) :=
  emissions.foldlM emitOne ({ name, localBytes, liveness := { table := .empty } }, counter)

/-- What one request does to a function: nothing, an instruction, a call boundary, or both. -/
theorem emitOne_cases {b b' : Function Op × Counter} {m : Emission Op}
    (h : emitOne b m = .ok b') :
    b'.1 = b.1 ∨ (∃ i, m = .emit i ∧ b.1.perform (.append i) = .ok b'.1) ∨
      b.1.perform .callBoundary = .ok b'.1 ∨
      ∃ f i, b.1.perform .callBoundary = .ok f ∧ f.perform (.append i) = .ok b'.1 := by
  cases m with
  | newVirtual =>
    obtain ⟨r, -, rfl⟩ := map_eq_ok.1 h
    exact Or.inl rfl
  | emit i =>
    obtain ⟨r, hr, rfl⟩ := map_eq_ok.1 h
    exact Or.inr (Or.inl ⟨i, rfl, map_eq_ok.2 ⟨r, hr, rfl⟩⟩)
  | emitCall opcode callee count =>
    obtain ⟨r, hr, rfl⟩ := map_eq_ok.1 h
    rw [appendCall, Logged.result_bind] at hr
    obtain ⟨f, hf, hr⟩ := bind_eq_ok.1 hr
    exact Or.inr (Or.inr (Or.inr ⟨f, _, hf, map_eq_ok.2 ⟨r, hr, rfl⟩⟩))
  | callBoundary =>
    obtain ⟨f, hf, rfl⟩ := map_eq_ok.1 h
    exact Or.inr (Or.inr (Or.inl hf))

/-- An instruction is either emitted by itself, or there is a call on record at its point. -/
def CallsRecorded (emissions : List (Emission Op)) (f : Function Op)
    (l : List (Handle × Instruction Op)) : Prop :=
  ∀ p e, l[p]? = some e → .emit e.2 ∈ emissions ∨ p ∈ f.liveness.calls

/-- One more instruction, which is emitted by itself or has its call on record. -/
theorem CallsRecorded.append {emissions emissions' : List (Emission Op)}
    (h : CallsRecorded emissions f l) (hsub : emissions ⊆ emissions')
    (hcalls : f'.liveness.calls = f.liveness.calls) {e : Handle × Instruction Op}
    (he : .emit e.2 ∈ emissions' ∨ l.length ∈ f.liveness.calls) :
    CallsRecorded emissions' f' (l ++ [e]) := by
  intro p e' hp
  rw [hcalls]
  rcases getElem?_concat_eq_some hp with hp | ⟨rfl, rfl⟩
  · exact (h p e' hp).imp_left fun hmem ↦ hsub hmem
  · exact he

theorem CallsRecorded.mono {emissions emissions' : List (Emission Op)}
    (h : CallsRecorded emissions f l) (hsub : emissions ⊆ emissions')
    (hcalls : f.liveness.calls ⊆ f'.liveness.calls) : CallsRecorded emissions' f' l :=
  fun p e hp ↦ (h p e hp).imp (fun hmem ↦ hsub hmem) fun hmem ↦ hcalls hmem

/-- **An emitted function is recorded exactly**, and where an instruction is not emitted by itself
there is a call on record. -/
theorem recorded_of_emitAll {name : String} {localBytes : Nat} {counter counter' : Counter}
    {emissions : List (Emission Op)}
    (h : emitAll name localBytes counter emissions = .ok (f, counter')) :
    ∃ l, f.Recorded l ∧ CallsRecorded emissions f l := by
  refine foldlM_invariant (fun (done : List (Emission Op)) (b : Function Op × Counter) ↦
    ∃ l, b.1.Recorded l ∧ CallsRecorded done b.1 l) ?_
    ⟨[], recorded_empty name localBytes, by simp [CallsRecorded]⟩ h
  rintro done m rest b b' - ⟨l, hrec, hcalls⟩ hstep
  have hsub : done ⊆ done ++ [m] := List.subset_append_left done [m]
  rcases emitOne_cases hstep with heq | ⟨i, rfl, happend⟩ | hboundary | ⟨f₁, i, hboundary, happend⟩
  · rw [heq]
    exact ⟨l, hrec, hcalls.mono hsub (List.Subset.refl _)⟩
  · obtain ⟨hrec', hsame⟩ := hrec.append happend
    exact ⟨_, hrec', hcalls.append hsub hsame (Or.inl (by simp))⟩
  · obtain ⟨hrec', hmore⟩ := hrec.callBoundary hboundary
    exact ⟨l, hrec', hcalls.mono hsub (hmore ▸ List.subset_append_left _ _)⟩
  · -- the boundary of a call is on record before the instruction comes to stand at its point
    obtain ⟨hrec₁, hmore⟩ := hrec.callBoundary hboundary
    obtain ⟨hrec', hsame⟩ := hrec₁.append happend
    have hcalls₁ : CallsRecorded (done ++ [m]) f₁ l :=
      hcalls.mono hsub (hmore ▸ List.subset_append_left _ _)
    refine ⟨_, hrec', hcalls₁.append (List.Subset.refl _) hsame (Or.inr ?_)⟩
    rw [hmore]
    simp

end Function

end MachineCode

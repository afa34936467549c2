import MachineCode.Proofs.Building

/-!
# The ranges of physical registers

A virtual register has one range, which also holds points at which the register is not named. The
ranges of a physical register keep the gaps: one use covers one more point and no other
(`LiveRange.extends_extendRuns`), so in an emitted function a physical register is live exactly
where an instruction names it (`Function.Pinned`, `pinned_of_emitAll`). What an instruction does to
registers that it does not name leaves no trace in the record.

A call that is emitted stays on record, whatever is emitted behind it
(`Function.point_mem_calls_of_emitAll`).
-/

namespace MachineCode

namespace LiveRange

/-- No range is empty. -/
def Nonempty (rs : List LiveRange) : Prop := ∀ x ∈ rs, x.start < x.stop

/-- Some range holds the point. -/
def Hold (rs : List LiveRange) (p : Nat) : Prop := ∃ x ∈ rs, x.contains p

/-- What one more use at `p` makes of the ranges of a physical register: they hold `p` as well, and
still no range is empty. -/
structure Extends (p : Nat) (rs rs' : List LiveRange) : Prop where
  nonempty : Nonempty rs'
  hold_iff : ∀ q, Hold rs' q ↔ Hold rs q ∨ q = p

theorem nonempty_append {rs ss : List LiveRange} :
    Nonempty (rs ++ ss) ↔ Nonempty rs ∧ Nonempty ss :=
  List.forall_mem_append

/-- Two lists of ranges hold the points of both. -/
theorem hold_append {rs ss : List LiveRange} {p : Nat} :
    Hold (rs ++ ss) p ↔ Hold rs p ∨ Hold ss p := by
  simp [Hold, or_and_right, exists_or]

theorem hold_singleton {r : LiveRange} {p : Nat} : Hold [r] p ↔ r.contains p := by
  simp [Hold]

/-- A new range holds its point only. -/
theorem contains_opened_iff {p q : Nat} {calls : List Nat} :
    (opened p calls).contains q ↔ q = p := by
  rw [contains_iff, start_opened, stop_opened]
  omega

/-- A range that grows holds one more point, the one where it ended. -/
theorem contains_grown_iff {r : LiveRange} (hr : r.start < r.stop) {calls : List Nat} {q : Nat} :
    (r.grown calls).contains q ↔ r.contains q ∨ q = r.stop := by
  rw [contains_iff, contains_iff, start_grown, stop_grown]
  omega

/-- **What a use does to the ranges of a physical register**: nothing at a point that is covered;
otherwise the last range grows if it ends there, and there is one more range if not. -/
theorem extendRuns_cases {p : Nat} {calls : List Nat} {rs rs' : List LiveRange}
    (h : extendRuns p calls rs = .ok rs') :
    (Hold rs p ∧ rs' = rs) ∨
    (¬ Hold rs p ∧
      ∃ before r, rs = before ++ [r] ∧ r.stop = p ∧ rs' = before ++ [r.grown calls]) ∨
    (¬ Hold rs p ∧ (∀ r ∈ rs.getLast?, r.stop ≠ p) ∧ rs' = rs ++ [opened p calls]) := by
  have hany : rs.any (·.contains p) = true ↔ Hold rs p := List.any_eq_true
  rw [extendRuns] at h
  split at h
  · rename_i hcovered
    cases h
    exact .inl ⟨hany.1 hcovered, rfl⟩
  · rename_i hopen
    rw [hany] at hopen
    exact .inr ((extendLast_cases h).imp (⟨hopen, ·⟩) (⟨hopen, ·⟩))

/-- **One use of a physical register covers one point**, whether or not it was covered before. -/
theorem extends_extendRuns {p : Nat} {calls : List Nat} {rs rs' : List LiveRange}
    (hrs : Nonempty rs) (h : extendRuns p calls rs = .ok rs') : Extends p rs rs' := by
  rcases extendRuns_cases h with
    ⟨hhold, rfl⟩ | ⟨-, before, r, rfl, rfl, rfl⟩ | ⟨-, -, rfl⟩
  · refine ⟨hrs, fun q ↦ ⟨Or.inl, ?_⟩⟩
    rintro (hq | rfl)
    · exact hq
    · exact hhold
  · obtain ⟨hbefore, hr⟩ := nonempty_append.1 hrs
    have hlt : r.start < r.stop := hr r (List.mem_singleton_self r)
    refine ⟨nonempty_append.2 ⟨hbefore, List.forall_mem_singleton.2 ?_⟩, fun q ↦ ?_⟩
    · rw [start_grown, stop_grown]
      omega
    · rw [hold_append, hold_append, hold_singleton, hold_singleton, contains_grown_iff hlt,
        or_assoc]
  · refine ⟨nonempty_append.2 ⟨hrs, List.forall_mem_singleton.2 ?_⟩, fun q ↦ ?_⟩
    · exact Nat.lt_succ_self p
    · rw [hold_append, hold_singleton, contains_opened_iff]

end LiveRange

namespace Liveness

/-- A use of another register leaves the ranges as they are. -/
theorem ranges_recordUse_of_ne {l l' : Liveness} (hl : l.WellFormed) {r s : Register} {p : Nat}
    (hne : s ≠ r) (h : l.recordUse s p = .ok l') : l'.ranges r = l.ranges r := by
  rcases recordUse_cases hl h with ⟨-, rfl⟩ | ⟨-, rs, rfl⟩ | ⟨-, rfl⟩
  · rw [ranges_insert, if_neg hne]
  · rw [ranges_insert, if_neg hne]
  · rfl

/-- A use of a physical register extends its runs. -/
theorem ranges_recordUse_physical {l l' : Liveness} {r : Register} (hr : r.isPhysical) {p : Nat}
    (h : l.recordUse r p = .ok l') :
    LiveRange.extendRuns p l.calls (l.ranges r) = .ok (l'.ranges r) := by
  rw [recordUse_physical l hr] at h
  obtain ⟨rs, hrs, heq⟩ := bind_eq_ok.1 h
  cases heq
  rw [ranges_insert, if_pos rfl]
  exact hrs

/-- What a use does to a physical register: its own point is covered, nothing else changes. -/
theorem covers_recordUse_iff {l l' : Liveness} (hl : l.WellFormed) {r s : Register} {p : Nat}
    (hr : r.isPhysical) (hne : LiveRange.Nonempty (l.ranges r))
    (h : l.recordUse s p = .ok l') :
    LiveRange.Nonempty (l'.ranges r) ∧ ∀ q, l'.Covers r q ↔ l.Covers r q ∨ r = s ∧ q = p := by
  by_cases hrs : s = r
  · subst hrs
    have hext := LiveRange.extends_extendRuns hne (ranges_recordUse_physical hr h)
    simp only [true_and]
    exact ⟨hext.nonempty, hext.hold_iff⟩
  · have hsame := ranges_recordUse_of_ne hl hrs h
    refine ⟨hsame ▸ hne, fun q ↦ ?_⟩
    simp [Covers, hsame, Ne.symm hrs]

/-- The registers of an instruction at `p` are recorded there. -/
theorem covers_recordUses_iff {l l' : Liveness} (hl : l.WellFormed) {r : Register} {p : Nat}
    (hr : r.isPhysical) (hne : LiveRange.Nonempty (l.ranges r)) {rs : List Register}
    (h : rs.foldlM (fun l s ↦ l.recordUse s p) l = .ok l') :
    LiveRange.Nonempty (l'.ranges r) ∧ ∀ q, l'.Covers r q ↔ l.Covers r q ∨ r ∈ rs ∧ q = p := by
  have hinv := foldlM_invariant (fun (done : List Register) (m : Liveness) ↦
    m.WellFormed ∧ LiveRange.Nonempty (m.ranges r) ∧
      ∀ q, m.Covers r q ↔ l.Covers r q ∨ r ∈ done ∧ q = p) ?_ ⟨hl, hne, by simp⟩ h
  · exact hinv.2
  · rintro done s rest m m' - ⟨hm, hnem, hcovers⟩ hstep
    obtain ⟨hne', hcovers'⟩ := covers_recordUse_iff hm hr hnem hstep
    refine ⟨hm.recordUse hstep, hne', fun q ↦ ?_⟩
    rw [hcovers', hcovers, List.mem_append, List.mem_singleton, or_and_right, or_assoc]

end Liveness

namespace Function

variable {Op : Type} {f f' : Function Op} {l : List (Handle × Instruction Op)}

/-- A physical register is live exactly at the points whose instruction names it. -/
def Pinned (f : Function Op) (l : List (Handle × Instruction Op)) : Prop :=
  ∀ r, r.isPhysical → LiveRange.Nonempty (f.liveness.ranges r) ∧
    ∀ q, f.liveness.Covers r q ↔ ∃ e, l[q]? = some e ∧ r ∈ e.2.registers

theorem getElem?_concat_iff {α : Type} {l : List α} {a b : α} {p : Nat} :
    (l ++ [a])[p]? = some b ↔ l[p]? = some b ∨ p = l.length ∧ b = a := by
  refine ⟨getElem?_concat_eq_some, ?_⟩
  rintro (h | ⟨rfl, rfl⟩)
  · exact List.getElem?_append_left (List.getElem?_eq_some_iff.1 h).1 ▸ h
  · simp

/-- **One more instruction**: the physical registers that it names are live at its point, and no
others. -/
theorem Pinned.append (hpin : f.Pinned l) (hrec : f.Recorded l) {i : Instruction Op}
    (hok : f.perform (.append i) = .ok f') : f'.Pinned (l ++ [(f.code.cells.size, i)]) := by
  obtain ⟨m, hm, rfl⟩ := perform_append_eq_ok.1 hok
  intro r hr
  obtain ⟨hne, hcovers⟩ := hpin r hr
  obtain ⟨hne', hcovers'⟩ :=
    Liveness.covers_recordUses_iff hrec.liveness.wellFormed hr hne hm
  refine ⟨hne', fun q ↦ ?_⟩
  simp only [hcovers', hcovers, getElem?_concat_iff, hrec.point_eq]
  constructor
  · rintro (⟨e, he, hmem⟩ | ⟨hmem, rfl⟩)
    · exact ⟨e, Or.inl he, hmem⟩
    · exact ⟨_, Or.inr ⟨rfl, rfl⟩, hmem⟩
  · rintro ⟨e, he | ⟨rfl, rfl⟩, hmem⟩
    · exact Or.inl ⟨e, he, hmem⟩
    · exact Or.inr ⟨hmem, rfl⟩

theorem Pinned.callBoundary (hpin : f.Pinned l) (hok : f.perform .callBoundary = .ok f') :
    f'.Pinned l := by
  cases hok
  exact hpin

/-- Without instructions no physical register is live. -/
theorem pinned_empty (name : String) (localBytes : Nat) :
    Pinned ({ name, localBytes } : Function Op) [] := by
  intro r _
  have hnone : ({} : Liveness).ranges r = [] := rfl
  refine ⟨?_, fun q ↦ ?_⟩
  · show LiveRange.Nonempty (({} : Liveness).ranges r)
    rw [hnone]
    exact fun x hx ↦ nomatch hx
  · show (∃ x ∈ ({} : Liveness).ranges r, x.contains q) ↔ _
    simp [hnone]

/-! ### Emitting -/

/-- The instructions `l` are recorded exactly, for virtual and for physical registers. -/
structure Tracked (f : Function Op) (l : List (Handle × Instruction Op)) : Prop extends
  f.Recorded l where
  pinned : f.Pinned l

theorem Tracked.entries_eq (h : f.Tracked l) : f.code.entries = l := h.code.entries_eq

/-- An instruction that is appended is tracked, and no call is recorded for it. -/
theorem Tracked.append (h : f.Tracked l) {i : Instruction Op}
    (hok : f.perform (.append i) = .ok f') :
    f'.Tracked (l ++ [(f.code.cells.size, i)]) ∧ f'.liveness.calls = f.liveness.calls := by
  obtain ⟨hrec, hcalls⟩ := h.toRecorded.append hok
  exact ⟨⟨hrec, h.pinned.append h.toRecorded hok⟩, hcalls⟩

/-- A call boundary keeps the instructions tracked, and adds its point to the calls. -/
theorem Tracked.callBoundary (h : f.Tracked l) (hok : f.perform .callBoundary = .ok f') :
    f'.Tracked l ∧ f'.liveness.calls = f.liveness.calls ++ [l.length] := by
  obtain ⟨hrec, hcalls⟩ := h.toRecorded.callBoundary hok
  exact ⟨⟨hrec, h.pinned.callBoundary hok⟩, hcalls⟩

/-- **One request** keeps the record exact, and the calls on it. -/
theorem Tracked.emitOne {b b' : Function Op × Counter} {m : Emission Op} (h : b.1.Tracked l)
    (hok : emitOne b m = .ok b') :
    (∃ l', b'.1.Tracked l') ∧ ∀ c ∈ b.1.liveness.calls, c ∈ b'.1.liveness.calls := by
  rcases emitOne_cases hok with heq | ⟨i, -, happend⟩ | hboundary | ⟨f₁, i, hboundary, happend⟩
  · rw [heq]
    exact ⟨⟨l, h⟩, fun _ hc ↦ hc⟩
  · obtain ⟨h', hcalls⟩ := h.append happend
    exact ⟨⟨_, h'⟩, fun c hc ↦ hcalls ▸ hc⟩
  · obtain ⟨h', hcalls⟩ := h.callBoundary hboundary
    exact ⟨⟨_, h'⟩, fun c hc ↦ hcalls ▸ List.mem_append_left _ hc⟩
  · obtain ⟨h₁, hcalls₁⟩ := h.callBoundary hboundary
    obtain ⟨h', hcalls⟩ := h₁.append happend
    exact ⟨⟨_, h'⟩, fun c hc ↦ hcalls ▸ hcalls₁ ▸ List.mem_append_left _ hc⟩

/-- **Any number of requests** do so. -/
theorem Tracked.emitMany {b b' : Function Op × Counter} {emissions : List (Emission Op)}
    (h : b.1.Tracked l) (hok : emissions.foldlM Function.emitOne b = .ok b') :
    (∃ l', b'.1.Tracked l') ∧ ∀ c ∈ b.1.liveness.calls, c ∈ b'.1.liveness.calls := by
  refine foldlM_invariant (fun (_ : List (Emission Op)) (b' : Function Op × Counter) ↦
    (∃ l', b'.1.Tracked l') ∧ ∀ c ∈ b.1.liveness.calls, c ∈ b'.1.liveness.calls) ?_
    ⟨⟨l, h⟩, fun _ hc ↦ hc⟩ hok
  rintro done m rest b₁ b₂ - ⟨⟨l', h₁⟩, hkept⟩ hstep
  obtain ⟨h₂, hkept'⟩ := h₁.emitOne hstep
  exact ⟨h₂, fun c hc ↦ hkept' c (hkept c hc)⟩

/-- **Whatever an instruction selector builds is tracked.** -/
theorem tracked_of_emitAll {name : String} {localBytes : Nat} {counter counter' : Counter}
    {emissions : List (Emission Op)}
    (h : emitAll name localBytes counter emissions = .ok (f, counter')) :
    f.Tracked f.code.entries := by
  have hempty : Tracked ({ name, localBytes } : Function Op) [] :=
    ⟨recorded_empty name localBytes, pinned_empty name localBytes⟩
  obtain ⟨⟨l, hl⟩, -⟩ := hempty.emitMany (b := (_, counter)) h
  rw [hl.entries_eq]
  exact hl

/-- A call that is emitted is on record at the point where the code ended before it. -/
theorem point_mem_calls_of_emitAll {name : String} {localBytes : Nat}
    {counter counter₁ counter₂ : Counter} {before after : List (Emission Op)} {opcode : Op}
    {callee : Operand} {count : Nat} {g : Function Op}
    (hg : emitAll name localBytes counter before = .ok (g, counter₁))
    (hf : emitAll name localBytes counter (before ++ .emitCall opcode callee count :: after) =
      .ok (f, counter₂)) : g.point ∈ f.liveness.calls := by
  rw [emitAll, List.foldlM_append] at hf
  obtain ⟨b, hb, hrest⟩ := bind_eq_ok.1 hf
  cases hb.symm.trans hg
  rw [List.foldlM_cons] at hrest
  obtain ⟨b', hcall, hafter⟩ := bind_eq_ok.1 hrest
  have htracked := tracked_of_emitAll hg
  obtain ⟨r, hr, rfl⟩ := map_eq_ok.1 hcall
  rw [appendCall, Logged.result_bind] at hr
  -- the boundary is recorded at the point of the call, and no later emission takes it back
  obtain ⟨f₁, hboundary, hr⟩ := bind_eq_ok.1 hr
  obtain ⟨h₁, hcalls₁⟩ := htracked.callBoundary hboundary
  obtain ⟨h₂, hcalls₂⟩ := h₁.append (map_eq_ok.2 ⟨r, hr, rfl⟩)
  obtain ⟨-, hkept⟩ := Tracked.emitMany (b := (r.2, counter₁)) h₂ hafter
  refine hkept _ ?_
  rw [hcalls₂, hcalls₁, htracked.point_eq]
  simp

end Function

end MachineCode

import MachineCode.Log

/-!
# Passes that may fail

Every pass of the compiler is a left fold whose step may fail. The rules about such folds have an
invariant that is indexed by the part of the list that is done. `foldlM_cases` says how a pass can
end, and two cases of it are used throughout:

* `exists_foldlM`: if no step fails under the invariant, then the whole pass succeeds, and the
  invariant holds of its outcome;
* `foldlM_invariant`: if the pass is known to succeed, then the invariant holds of its outcome as
  soon as every successful step keeps it.
-/

namespace MachineCode

variable {ε ε' α β : Type}

/-! ### Sequencing -/

/-- A sequence of two computations succeeds if both do. -/
theorem bind_eq_ok {x : Except ε α} {f : α → Except ε β} {b : β} :
    x >>= f = .ok b ↔ ∃ a, x = .ok a ∧ f a = .ok b := by
  cases x with
  | error e => simp [bind, Except.bind]
  | ok a => simp [bind, Except.bind]

theorem map_eq_ok {f : α → β} {x : Except ε α} {b : β} :
    f <$> x = .ok b ↔ ∃ a, x = .ok a ∧ f a = b := by
  cases x with
  | error e => simp [Functor.map, Except.map]
  | ok a => simp [Functor.map, Except.map]

/-- A success does not depend on how failures are seen. -/
theorem mapError_eq_ok {f : ε → ε'} {x : Except ε α} {a : α} :
    x.mapError f = .ok a ↔ x = .ok a := by
  cases x with
  | error e =>
    constructor <;> intro h <;> cases h
  | ok b =>
    constructor <;> intro h <;> cases h <;> rfl

theorem elim_eq_ok {x : Option α} {e : ε} {a : α} :
    x.elim (Except.error e) .ok = .ok a ↔ x = some a := by
  cases x with
  | none => simp
  | some b => simp

/-- A success is what is left when failures are forgotten. -/
theorem toOption_eq_some {x : Except ε α} {a : α} : x.toOption = some a ↔ x = .ok a := by
  cases x with
  | error e => simp [Except.toOption]
  | ok b => simp [Except.toOption]

/-- The outcome of a logged fold is the fold of the outcomes. -/
theorem Logged.result_foldlM (f : β → α → Logged ε β) (l : List α) (b : β) :
    (l.foldlM f b).result = l.foldlM (fun b a ↦ (f b a).result) b := by
  induction l generalizing b with
  | nil => rfl
  | cons a l ih =>
    rw [List.foldlM_cons, List.foldlM_cons, Logged.result_bind]
    simp only [ih]

/-! ### Folds -/

/-- **How a pass ends**, if every successful step keeps the invariant: it succeeds with an outcome
for which the invariant holds, or it fails at a member of the list up to which it held. -/
theorem foldlM_cases {f : β → α → Except ε β} {l : List α} (I : List α → β → Prop)
    (hstep : ∀ done a rest b b', l = done ++ a :: rest → I done b → f b a = .ok b' →
      I (done ++ [a]) b')
    {b : β} (hb : I [] b) :
    (∃ b', l.foldlM f b = .ok b' ∧ I l b') ∨
      ∃ done a rest b₁ e, l = done ++ a :: rest ∧ I done b₁ ∧ f b₁ a = .error e ∧
        l.foldlM f b = .error e := by
  -- generalised over the part that is done, so that the induction can move it along
  suffices h : ∀ (rest done : List α) (b : β), l = done ++ rest → I done b →
      (∃ b', rest.foldlM f b = .ok b' ∧ I l b') ∨
        ∃ done a rest' b₁ e, l = done ++ a :: rest' ∧ I done b₁ ∧ f b₁ a = .error e ∧
          rest.foldlM f b = .error e from h l [] b rfl hb
  intro rest
  induction rest with
  | nil =>
    intro done b hl hI
    rw [List.append_nil] at hl
    exact Or.inl ⟨b, rfl, hl ▸ hI⟩
  | cons a rest ih =>
    intro done b hl hI
    rw [List.foldlM_cons]
    cases ha : f b a with
    | error e => exact Or.inr ⟨done, a, rest, b, e, hl, hI, ha, rfl⟩
    | ok b₁ =>
      exact ih (done ++ [a]) b₁ (by rw [hl, List.append_cons]) (hstep done a rest b b₁ hl hI ha)

/-- A pass whose steps all succeed under the invariant succeeds. -/
theorem exists_foldlM {f : β → α → Except ε β} {l : List α} (I : List α → β → Prop)
    (hstep : ∀ done a rest b, l = done ++ a :: rest → I done b →
      ∃ b', f b a = .ok b' ∧ I (done ++ [a]) b')
    {b : β} (hb : I [] b) : ∃ b', l.foldlM f b = .ok b' ∧ I l b' := by
  refine (foldlM_cases I (fun done a rest b₁ b₂ hl hI hok ↦ ?_) hb).resolve_right ?_
  · obtain ⟨b', hok', hI'⟩ := hstep done a rest b₁ hl hI
    cases hok.symm.trans hok'
    exact hI'
  · rintro ⟨done, a, rest, b₁, e, hl, hI, herror, -⟩
    obtain ⟨b', hok, -⟩ := hstep done a rest b₁ hl hI
    cases herror.symm.trans hok

/-- What every successful step keeps holds after a successful pass. -/
theorem foldlM_invariant {f : β → α → Except ε β} {l : List α} (I : List α → β → Prop)
    (hstep : ∀ done a rest b b', l = done ++ a :: rest → I done b → f b a = .ok b' →
      I (done ++ [a]) b')
    {b b' : β} (hb : I [] b) (h : l.foldlM f b = .ok b') : I l b' := by
  rcases foldlM_cases I hstep hb with ⟨b₁, hok, hI⟩ | ⟨-, -, -, -, e, -, -, -, herror⟩
  · cases h.symm.trans hok
    exact hI
  · cases h.symm.trans herror

end MachineCode

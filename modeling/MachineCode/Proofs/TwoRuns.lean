import MachineCode.Proofs.Folds
import Mathlib.Data.List.Forall2

/-!
# Two runs side by side

Some properties of the compiler compare two runs of it, such as the runs on two functions that
differ only in the numbers of their virtual registers. `Alike R x y` says that two computations
succeed together, with values that are related by `R`, or fail together. How they fail is left
open, since a message may quote the numbers in which the runs differ.

Runs are compared as they are made up: `Alike.bind` for one pass after the other, and
`alike_foldlM` for the steps of a pass, with a relation that is indexed by what each pass still has
to do.
-/

namespace MachineCode

variable {ε ε' δ δ' α α' β β' : Type}

/-- Both computations succeed, with related values, or both fail. -/
inductive Alike (R : α → α' → Prop) : Except ε α → Except ε' α' → Prop where
  | ok {a : α} {a' : α'} (h : R a a') : Alike R (.ok a) (.ok a')
  | error (e : ε) (e' : ε') : Alike R (.error e) (.error e')

namespace Alike

variable {R : α → α' → Prop} {S : β → β' → Prop} {x : Except ε α} {y : Except ε' α'}

/-- What is related is related more loosely, too. -/
theorem mono {R' : α → α' → Prop} (h : Alike R x y) (himp : ∀ a a', R a a' → R' a a') :
    Alike R' x y := by
  cases h with
  | ok h => exact ok (himp _ _ h)
  | error e e' => exact error e e'

/-- Computations that go on alike from related values are alike as a whole. -/
theorem bind (h : Alike R x y) {f : α → Except ε β} {g : α' → Except ε' β'}
    (hfg : ∀ a a', R a a' → Alike S (f a) (g a')) : Alike S (x >>= f) (y >>= g) := by
  cases h with
  | ok h => exact hfg _ _ h
  | error e e' => exact error e e'

/-- Functions that keep values related keep computations alike. -/
theorem map (h : Alike R x y) {f : α → β} {g : α' → β'} (hfg : ∀ a a', R a a' → S (f a) (g a')) :
    Alike S (f <$> x) (g <$> y) := by
  cases h with
  | ok h => exact ok (hfg _ _ h)
  | error e e' => exact error e e'

/-- The errors need not be related. -/
theorem mapError (h : Alike R x y) (f : ε → δ) (g : ε' → δ') :
    Alike R (x.mapError f) (y.mapError g) := by
  cases h with
  | ok h => exact ok h
  | error e e' => exact error (f e) (g e')

/-- What is known of one value can go into the relation. -/
theorem and_left {P : α → Prop} (h : Alike R x y) (hP : ∀ a, x = .ok a → P a) :
    Alike (fun a a' ↦ P a ∧ R a a') x y := by
  cases h with
  | ok h => exact ok ⟨hP _ rfl, h⟩
  | error e e' => exact error e e'

/-- If one of two computations that are alike succeeds, so does the other. -/
theorem exists_ok (h : Alike R x y) {a : α} (hx : x = .ok a) : ∃ a', y = .ok a' ∧ R a a' := by
  subst hx
  cases h with
  | ok h => exact ⟨_, rfl, h⟩

theorem exists_ok_iff (h : Alike R x y) : (∃ a, x = .ok a) ↔ ∃ a', y = .ok a' := by
  cases h with
  | ok h => exact ⟨fun _ ↦ ⟨_, rfl⟩, fun _ ↦ ⟨_, rfl⟩⟩
  | error e e' => constructor <;> rintro ⟨_, ⟨⟩⟩

/-- Alike are computations of which the second succeeds exactly when the first does. -/
theorem of_exists (hxy : ∀ a, x = .ok a → ∃ a', y = .ok a' ∧ R a a')
    (hyx : ∀ a', y = .ok a' → ∃ a, x = .ok a) : Alike R x y := by
  cases x with
  | ok a =>
    obtain ⟨a', rfl, h⟩ := hxy a rfl
    exact ok h
  | error e =>
    cases y with
    | ok a' =>
      obtain ⟨a, ha⟩ := hyx a' rfl
      cases ha
    | error e' => exact error e e'

/-- A computation is like itself. -/
theorem refl (x : Except ε α) : Alike (· = ·) x x := by
  cases x with
  | ok a => exact ok rfl
  | error e => exact error e e

/-- The same option with two failures for its absence. -/
theorem elim (o : Option α) (e : ε) (e' : ε') :
    Alike (· = ·) (o.elim (Except.error e) .ok) (o.elim (Except.error e') .ok) := by
  cases o with
  | none => exact error e e'
  | some a => exact ok rfl

end Alike

/-- **Two passes with alike steps are alike.** The relation is indexed by what is left to do. -/
theorem alike_foldlM {f : β → α → Except ε β} {g : β' → α' → Except ε' β'} {T : α → α' → Prop}
    (R : List α → List α' → β → β' → Prop)
    (hstep : ∀ a a' rest rest' b b', T a a' → R (a :: rest) (a' :: rest') b b' →
      Alike (R rest rest') (f b a) (g b' a'))
    {l : List α} {l' : List α'} (hl : List.Forall₂ T l l') {b : β} {b' : β'} (hb : R l l' b b') :
    Alike (R [] []) (l.foldlM f b) (l'.foldlM g b') := by
  induction hl generalizing b b' with
  | nil => exact .ok hb
  | cons ha _ ih =>
    rw [List.foldlM_cons, List.foldlM_cons]
    exact (hstep _ _ _ _ b b' ha hb).bind fun _ _ ↦ ih

/-- A list is transformed if each of its members is. -/
theorem mapM_eq_ok {f : α → Except ε β} {l : List α} {l' : List β} :
    l.mapM f = .ok l' ↔ List.Forall₂ (fun a b ↦ f a = .ok b) l l' := by
  induction l generalizing l' with
  | nil =>
    rw [List.mapM_nil, List.forall₂_nil_left_iff]
    exact ⟨fun h ↦ by cases h; rfl, fun h ↦ h ▸ rfl⟩
  | cons a l ih =>
    rw [List.mapM_cons, bind_eq_ok, List.forall₂_cons_left_iff]
    constructor
    · rintro ⟨b, hb, h⟩
      obtain ⟨m, hm, heq⟩ := bind_eq_ok.1 h
      cases heq
      exact ⟨b, m, hb, ih.1 hm, rfl⟩
    · rintro ⟨b, m, hb, hm, rfl⟩
      exact ⟨b, hb, bind_eq_ok.2 ⟨m, ih.2 hm, rfl⟩⟩

/-- A computation for all members of a list succeeds if it does for each one. -/
theorem exists_mapM_eq_ok {f : α → Except ε β} {l : List α} :
    (∃ l', l.mapM f = .ok l') ↔ ∀ a ∈ l, ∃ b, f a = .ok b := by
  simp only [mapM_eq_ok]
  induction l with
  | nil => simp
  | cons a l ih => simp [List.forall₂_cons_left_iff, ← ih]

end MachineCode

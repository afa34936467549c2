import MachineCode.Register

/-!
# Maps keyed by registers

`RegisterMap α` holds at most one value for each register, and lists its entries by ascending
register id. The order is part of the type, so a map has exactly one list of entries. What an
insertion does is said by look-ups alone: `RegisterMap.get?_insert`.
-/

namespace MachineCode

/-- A finite map from registers, with its entries in ascending order of id. -/
structure RegisterMap (α : Type) where
  entries : List (Register × α) := []
  sorted : entries.Pairwise (fun a b ↦ a.1.number < b.1.number) := by simp

namespace RegisterMap

variable {α : Type}

/-- The map without entries. -/
def empty : RegisterMap α := {}

/-- The value of `r` in a list of entries. -/
def lookup (r : Register) : List (Register × α) → Option α
  | [] => none
  | (k, x) :: rest => if k = r then some x else lookup r rest

/-- Put the value `x` for `r` into an ordered list of entries, in the place of any value that `r`
has there. -/
def insertEntry (r : Register) (x : α) : List (Register × α) → List (Register × α)
  | [] => [(r, x)]
  | (k, y) :: rest =>
    if r.number < k.number then (r, x) :: (k, y) :: rest
    else if r = k then (r, x) :: rest
    else (k, y) :: insertEntry r x rest

theorem mem_insertEntry {r : Register} {x : α} {e : Register × α} :
    ∀ {l : List (Register × α)}, e ∈ insertEntry r x l → e = (r, x) ∨ e ∈ l
  | [], h => by simpa [insertEntry] using h
  | (k, y) :: rest, h => by
    have ih := @mem_insertEntry r x e rest
    grind [insertEntry]

theorem pairwise_insertEntry {r : Register} {x : α} {l : List (Register × α)}
    (h : l.Pairwise (fun a b ↦ a.1.number < b.1.number)) :
    (insertEntry r x l).Pairwise (fun a b ↦ a.1.number < b.1.number) := by
  induction l with
  | nil => simp [insertEntry]
  | cons e rest ih =>
    obtain ⟨k, y⟩ := e
    obtain ⟨hk, hrest⟩ := List.pairwise_cons.1 h
    rw [insertEntry]
    split
    · refine List.pairwise_cons.2 ⟨fun e he ↦ ?_, h⟩
      have := hk e
      grind
    · split
      · subst r
        exact List.pairwise_cons.2 ⟨hk, hrest⟩
      · refine List.pairwise_cons.2 ⟨fun e he ↦ ?_, ih hrest⟩
        have hne : r.number ≠ k.number := fun h ↦ ‹¬r = k› (Register.ext_number h)
        rcases mem_insertEntry he with rfl | he
        · show k.number < r.number
          omega
        · exact hk e he

theorem lookup_insertEntry (r s : Register) (x : α) (l : List (Register × α)) :
    lookup s (insertEntry r x l) = if r = s then some x else lookup s l := by
  induction l with
  | nil => simp [insertEntry, lookup]
  | cons e rest ih =>
    obtain ⟨k, y⟩ := e
    grind [insertEntry, lookup]

/-- The value of a register. -/
def get? (m : RegisterMap α) (r : Register) : Option α := lookup r m.entries

/-- Let `r` have the value `x`. -/
def insert (m : RegisterMap α) (r : Register) (x : α) : RegisterMap α :=
  ⟨insertEntry r x m.entries, pairwise_insertEntry m.sorted⟩

/-- How many registers have a value. -/
def size (m : RegisterMap α) : Nat := m.entries.length

/-- The map with the given entries. Of two for one register the later one counts. -/
def ofList (l : List (Register × α)) : RegisterMap α := l.foldl (fun m e ↦ m.insert e.1 e.2) {}

@[simp] theorem get?_empty (r : Register) : (empty : RegisterMap α).get? r = none := rfl

@[grind =] theorem get?_insert (m : RegisterMap α) (r s : Register) (x : α) :
    (m.insert r x).get? s = if r = s then some x else m.get? s :=
  lookup_insertEntry r s x m.entries

theorem mem_entries_iff {m : RegisterMap α} {r : Register} {x : α} :
    (r, x) ∈ m.entries ↔ m.get? r = some x := by
  obtain ⟨l, h⟩ := m
  show (r, x) ∈ l ↔ lookup r l = some x
  induction l with
  | nil => simp [lookup]
  | cons e rest ih =>
    obtain ⟨k, y⟩ := e
    obtain ⟨hk, hrest⟩ := List.pairwise_cons.1 h
    have := ih hrest
    have hr : k = r → (r, x) ∉ rest := by
      rintro rfl hmem
      exact absurd (hk _ hmem) (Nat.lt_irrefl _)
    grind [lookup]

end RegisterMap

end MachineCode

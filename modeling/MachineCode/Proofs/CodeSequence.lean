import MachineCode.Code
import MachineCode.Proofs.Folds
import Mathlib.Data.List.Nodup
import Mathlib.Data.Finset.Card
import Mathlib.Data.List.Basic

/-!
# Instruction lists as sequences

`c.Represents l` ties the cells of an instruction list to the plain sequence `l` of handles and
instructions that it stands for. The links are described by segments: `c.Segment prev l next` says
that the cells of `l` are linked to each other in the order of `l`, the first of them back to `prev`
and the last of them on to `next`. Segments split where lists split (`segment_append`), and do not
notice what happens to other cells (`Segment.congr`); so putting a cell between two others is a
matter of the two links that change.

A list that is represented reads as what it represents (`Represents.entries_eq`), and every
operation that the compiler uses acts on the sequence as its name says (`Represents.pushBack`,
`Represents.insertAllAt`, `Represents.modify`).
-/

namespace MachineCode.Code

variable {Op : Type}

/-! ### Segments -/

/-- The handle of the first entry, or `next` if there is none. -/
def firstHandle : List (Handle × Instruction Op) → Option Handle → Option Handle
  | [], next => next
  | e :: _, _ => some e.1

/-- The handle of the last entry, or `prev` if there is none. -/
def lastHandle : List (Handle × Instruction Op) → Option Handle → Option Handle
  | [], prev => prev
  | e :: rest, _ => lastHandle rest (some e.1)

/-- The entries of a list sit in cells that are linked in the order of the list, between `prev` and
`next`. -/
def Segment (c : Code Op) : Option Handle → List (Handle × Instruction Op) → Option Handle → Prop
  | _, [], _ => True
  | prev, e :: rest, next =>
    c.cells[e.1]? = some ⟨some e.2, prev, firstHandle rest next⟩ ∧ c.Segment (some e.1) rest next

/-- The first handle of two lists is that of the first one that is not empty. -/
theorem firstHandle_append (l₁ l₂ : List (Handle × Instruction Op)) (next : Option Handle) :
    firstHandle (l₁ ++ l₂) next = firstHandle l₁ (firstHandle l₂ next) := by
  cases l₁ <;> rfl

/-- The last handle is that of the last one that is not empty. -/
theorem lastHandle_append (l₁ l₂ : List (Handle × Instruction Op)) (prev : Option Handle) :
    lastHandle (l₁ ++ l₂) prev = lastHandle l₂ (lastHandle l₁ prev) := by
  induction l₁ generalizing prev with
  | nil => rfl
  | cons e rest ih => exact ih (some e.1)

@[simp] theorem lastHandle_concat (l : List (Handle × Instruction Op))
    (e : Handle × Instruction Op) (prev : Option Handle) :
    lastHandle (l ++ [e]) prev = some e.1 := by
  rw [lastHandle_append]
  rfl

/-- **Segments are joined and cut**: the links at the seam are those between the parts. -/
theorem segment_append {c : Code Op} {l₁ l₂ : List (Handle × Instruction Op)}
    {prev next : Option Handle} :
    c.Segment prev (l₁ ++ l₂) next ↔
      c.Segment prev l₁ (firstHandle l₂ next) ∧ c.Segment (lastHandle l₁ prev) l₂ next := by
  induction l₁ generalizing prev with
  | nil => simp [Segment, lastHandle]
  | cons e rest ih =>
    rw [List.cons_append, Segment, Segment, ih, firstHandle_append, and_assoc]
    rfl

/-- A segment depends on its own cells only. -/
theorem Segment.congr {c c' : Code Op} {l : List (Handle × Instruction Op)}
    {prev next : Option Handle} (h : c.Segment prev l next)
    (hcells : ∀ e ∈ l, c'.cells[e.1]? = c.cells[e.1]?) : c'.Segment prev l next := by
  induction l generalizing prev with
  | nil => trivial
  | cons e rest ih =>
    exact ⟨(hcells e (by simp)).trans h.1, ih h.2 fun e' he' ↦ hcells e' (by simp [he'])⟩

/-- Every entry of a segment sits in its cell. -/
theorem Segment.exists_cell {c : Code Op} {l : List (Handle × Instruction Op)}
    {prev next : Option Handle} (h : c.Segment prev l next) {e : Handle × Instruction Op}
    (he : e ∈ l) : ∃ p n, c.cells[e.1]? = some ⟨some e.2, p, n⟩ := by
  induction l generalizing prev with
  | nil => cases he
  | cons e' rest ih =>
    rcases List.mem_cons.1 he with rfl | he
    · exact ⟨_, _, h.1⟩
    · exact ih h.2 he

/-- Handles are numbers of cells. -/
theorem Segment.lt_size {c : Code Op} {l : List (Handle × Instruction Op)}
    {prev next : Option Handle} (h : c.Segment prev l next) {e : Handle × Instruction Op}
    (he : e ∈ l) : e.1 < c.cells.size := by
  obtain ⟨p, n, hcell⟩ := h.exists_cell he
  exact (Array.getElem?_eq_some_iff.1 hcell).1

/-! ### Representation -/

/-- The instruction list stands for the sequence `l`. -/
structure Represents (c : Code Op) (l : List (Handle × Instruction Op)) : Prop where
  nodup : (l.map (·.1)).Nodup
  segment : c.Segment none l none
  front : c.front = firstHandle l none
  back : c.back = lastHandle l none
  size : c.size = l.length
  /-- A handle that is not in the sequence denotes nothing. -/
  dead : ∀ h, h ∉ l.map (·.1) → c.get? h = none

variable {c : Code Op} {l : List (Handle × Instruction Op)}

/-- The empty instruction list stands for the empty sequence. -/
theorem represents_empty : (empty : Code Op).Represents [] where
  nodup := List.nodup_nil
  segment := trivial
  front := rfl
  back := rfl
  size := rfl
  dead _ _ := rfl

/-- A walk along the links meets the entries in order. -/
theorem walkForward_eq {n : Nat} {prev : Option Handle} (h : c.Segment prev l none)
    (hn : l.length ≤ n) : c.walkForward n (firstHandle l none) = l := by
  induction l generalizing n prev with
  | nil => cases n <;> rfl
  | cons e rest ih =>
    cases n with
    | zero => simp at hn
    | succ n =>
      rw [firstHandle, walkForward, h.1]
      show e :: c.walkForward n (firstHandle rest none) = e :: rest
      rw [ih h.2 (by simpa using hn)]

/-- There are at least as many cells as entries, since every entry has a cell of its own. -/
theorem Represents.length_le (h : c.Represents l) : l.length ≤ c.cells.size := by
  have hsub : (l.map (·.1)).toFinset ⊆ Finset.range c.cells.size := by
    intro x hx
    obtain ⟨e, he, rfl⟩ := List.mem_map.1 (List.mem_toFinset.1 hx)
    exact Finset.mem_range.2 (h.segment.lt_size he)
  calc l.length = (l.map (·.1)).length := (List.length_map _).symm
    _ = (l.map (·.1)).toFinset.card := (List.toFinset_card_of_nodup h.nodup).symm
    _ ≤ (Finset.range c.cells.size).card := Finset.card_le_card hsub
    _ = c.cells.size := Finset.card_range _

/-- **The sequence is what following the links reads.** -/
theorem Represents.entries_eq (h : c.Represents l) : c.entries = l := by
  rw [entries, h.front]
  exact walkForward_eq h.segment h.length_le

/-- The number of the next cell is not in use. -/
theorem Represents.fresh (h : c.Represents l) : c.cells.size ∉ l.map (·.1) := by
  intro hmem
  obtain ⟨e, he, heq⟩ := List.mem_map.1 hmem
  exact absurd heq (Nat.ne_of_lt (h.segment.lt_size he))

/-! ### A new cell between two neighbours -/

/-- Linking changes the link of one cell only. -/
theorem cells_linkNext (c : Code Op) (h other : Option Handle) (g : Handle) :
    (c.linkNext h other).cells[g]? = c.cells[g]?.map fun cell ↦
      { cell with next := if h = some g then other else cell.next } := by
  cases h with
  | none => cases hg : c.cells[g]? <;> simp [linkNext, hg]
  | some h =>
    rw [linkNext, Array.getElem?_modify]
    by_cases hh : h = g
    · simp [hh]
    · cases hg : c.cells[g]? <;> simp [hh]

theorem cells_linkPrev (c : Code Op) (h other : Option Handle) (g : Handle) :
    (c.linkPrev h other).cells[g]? = c.cells[g]?.map fun cell ↦
      { cell with prev := if h = some g then other else cell.prev } := by
  cases h with
  | none => cases hg : c.cells[g]? <;> simp [linkPrev, hg]
  | some h =>
    rw [linkPrev, Array.getElem?_modify]
    by_cases hh : h = g
    · simp [hh]
    · cases hg : c.cells[g]? <;> simp [hh]

/-- The cells after an insertion: the new one, and the old ones with the link of each neighbour
turned to the new one. -/
theorem cells_insertBetween {prev next : Option Handle} (hprev : prev ≠ some c.cells.size)
    (hnext : next ≠ some c.cells.size) (i : Instruction Op) (g : Handle) :
    (c.insertBetween prev next i).2.cells[g]? =
      if g = c.cells.size then some ⟨some i, prev, next⟩
      else c.cells[g]?.map fun cell ↦
        ⟨cell.instruction, if next = some g then some c.cells.size else cell.prev,
          if prev = some g then some c.cells.size else cell.next⟩ := by
  rw [insertBetween, cells_linkPrev, cells_linkNext, Array.getElem?_push]
  by_cases hg : g = c.cells.size
  · subst hg
    simp [hprev, hnext]
  · rw [if_neg hg, if_neg hg, Option.map_map]
    rfl

/-- A new cell without a previous one is the first. -/
theorem front_insertBetween (c : Code Op) (prev next : Option Handle) (i : Instruction Op) :
    (c.insertBetween prev next i).2.front =
      if prev = none then some c.cells.size else c.front := by
  cases prev <;> cases next <;> rfl

theorem back_insertBetween (c : Code Op) (prev next : Option Handle) (i : Instruction Op) :
    (c.insertBetween prev next i).2.back = if next = none then some c.cells.size else c.back := by
  cases prev <;> cases next <;> rfl

theorem size_insertBetween (c : Code Op) (prev next : Option Handle) (i : Instruction Op) :
    (c.insertBetween prev next i).2.size = c.size + 1 := by
  cases prev <;> cases next <;> rfl

theorem size_cells_insertBetween (c : Code Op) (prev next : Option Handle) (i : Instruction Op) :
    (c.insertBetween prev next i).2.cells.size = c.cells.size + 1 := by
  cases prev <;> cases next <;> simp [insertBetween, linkNext, linkPrev]

theorem lastHandle_mem {h : Handle} (hl : lastHandle l none = some h) : h ∈ l.map (·.1) := by
  rcases List.eq_nil_or_concat l with rfl | ⟨l', e, rfl⟩
  · cases hl
  · rw [List.concat_eq_append, lastHandle_concat] at hl
    cases hl
    simp

theorem firstHandle_mem {h : Handle} (hl : firstHandle l none = some h) : h ∈ l.map (·.1) := by
  cases l with
  | nil => cases hl
  | cons e rest =>
    cases hl
    simp

/-- A segment whose last cell is linked on to `n` instead. -/
theorem Segment.relinkLast {c' : Code Op} {prev next n : Option Handle}
    (h : c.Segment prev l next) (hnodup : (l.map (·.1)).Nodup)
    (hcells : ∀ e ∈ l, c'.cells[e.1]? = c.cells[e.1]?.map fun cell ↦
      ⟨cell.instruction, cell.prev, if lastHandle l none = some e.1 then n else cell.next⟩) :
    c'.Segment prev l n := by
  rcases List.eq_nil_or_concat l with rfl | ⟨l', e, rfl⟩
  · trivial
  · rw [List.concat_eq_append] at *
    rw [segment_append] at h ⊢
    rw [List.map_append, List.nodup_append] at hnodup
    refine ⟨h.1.congr fun e' he' ↦ ?_, ?_, trivial⟩
    · have hne : e.1 ≠ e'.1 := fun heq ↦
        hnodup.2.2 e'.1 (List.mem_map_of_mem he') e.1 (by simp) heq.symm
      rw [hcells e' (by simp [he']), lastHandle_concat]
      cases c.cells[e'.1]? <;> simp [hne]
    · rw [hcells e (by simp), lastHandle_concat, h.2.1]
      simp [firstHandle]

/-- A segment whose first cell is linked back to `p` instead. -/
theorem Segment.relinkFirst {c' : Code Op} {prev next p : Option Handle}
    (h : c.Segment prev l next) (hnodup : (l.map (·.1)).Nodup)
    (hcells : ∀ e ∈ l, c'.cells[e.1]? = c.cells[e.1]?.map fun cell ↦
      ⟨cell.instruction, if firstHandle l none = some e.1 then p else cell.prev, cell.next⟩) :
    c'.Segment p l next := by
  cases l with
  | nil => trivial
  | cons e rest =>
    rw [List.map_cons, List.nodup_cons] at hnodup
    refine ⟨?_, h.2.congr fun e' he' ↦ ?_⟩
    · rw [hcells e (by simp), h.1]
      simp [firstHandle]
    · have hne : e.1 ≠ e'.1 := fun heq ↦ hnodup.1 (heq ▸ List.mem_map_of_mem he')
      rw [hcells e' (by simp [he']), firstHandle]
      cases c.cells[e'.1]? <;> simp [hne]

/-- **An insertion between two neighbours puts the new instruction there.** -/
theorem Represents.insertBetween {pre post : List (Handle × Instruction Op)}
    (h : c.Represents (pre ++ post)) (i : Instruction Op) :
    (c.insertBetween (lastHandle pre none) (firstHandle post none) i).2.Represents
      (pre ++ (c.cells.size, i) :: post) := by
  have hfresh := h.fresh
  rw [List.map_append, List.mem_append, not_or] at hfresh
  have hnodup := h.nodup
  rw [List.map_append, List.nodup_append] at hnodup
  obtain ⟨hpre, hpost, hdisj⟩ := hnodup
  have hprev : lastHandle pre none ≠ some c.cells.size := fun heq ↦ hfresh.1 (lastHandle_mem heq)
  have hnext : firstHandle post none ≠ some c.cells.size :=
    fun heq ↦ hfresh.2 (firstHandle_mem heq)
  have hcells := cells_insertBetween hprev hnext i
  obtain ⟨hsegpre, hsegpost⟩ := segment_append.1 h.segment
  constructor
  · rw [List.map_append, List.map_cons, List.nodup_middle, ← List.map_append]
    exact List.nodup_cons.2 ⟨h.fresh, h.nodup⟩
  · -- only the last cell before and the first cell after have other links
    refine segment_append.2 ⟨hsegpre.relinkLast hpre fun e he ↦ ?_, ?_,
      hsegpost.relinkFirst hpost fun e he ↦ ?_⟩
    · have hne : e.1 ≠ c.cells.size := fun heq ↦ hfresh.1 (heq ▸ List.mem_map_of_mem he)
      have hother : firstHandle post none ≠ some e.1 := fun heq ↦
        hdisj e.1 (List.mem_map_of_mem he) e.1 (firstHandle_mem heq) rfl
      rw [hcells, if_neg hne]
      simp only [if_neg hother]
      rfl
    · rw [hcells, if_pos rfl]
    · have hne : e.1 ≠ c.cells.size := fun heq ↦ hfresh.2 (heq ▸ List.mem_map_of_mem he)
      have hother : lastHandle pre none ≠ some e.1 := fun heq ↦
        hdisj e.1 (lastHandle_mem heq) e.1 (List.mem_map_of_mem he) rfl
      rw [hcells, if_neg hne]
      simp only [if_neg hother]
  · rw [front_insertBetween, h.front]
    rcases List.eq_nil_or_concat pre with rfl | ⟨pre', e, rfl⟩
    · rfl
    · rw [List.concat_eq_append, lastHandle_concat, if_neg (by simp)]
      cases pre' <;> rfl
  · rw [back_insertBetween, h.back, lastHandle_append, lastHandle_append]
    cases post with
    | nil => rfl
    | cons e rest => rfl
  · rw [size_insertBetween, h.size]
    simp
    omega
  · -- relinking keeps a removed cell without an instruction
    intro g hg
    rw [List.map_append, List.map_cons, List.mem_append, List.mem_cons, not_or, not_or] at hg
    have hdead := h.dead g (by
      rw [List.map_append, List.mem_append, not_or]
      exact ⟨hg.1, hg.2.2⟩)
    rw [get?] at hdead ⊢
    rw [hcells, if_neg hg.2.1]
    cases hcell : c.cells[g]? with
    | none => rfl
    | some cell =>
      rw [hcell] at hdead
      exact hdead

/-! ### Operations by handle -/

section At

variable {pre post : List (Handle × Instruction Op)} {h : Handle} {j : Instruction Op}

/-- The cell of a handle in the list has the neighbours that the handle has there. -/
theorem Represents.liveCell (hc : c.Represents (pre ++ (h, j) :: post)) :
    c.liveCell h = .ok ⟨some j, lastHandle pre none, firstHandle post none⟩ := by
  obtain ⟨-, hcell, -⟩ := segment_append.1 hc.segment
  rw [Code.liveCell, hcell]
  rfl

theorem Represents.next (hc : c.Represents (pre ++ (h, j) :: post)) :
    c.next h = .ok (firstHandle post none) := by
  rw [Code.next, hc.liveCell]
  rfl

/-- Changing the instruction of a handle changes that one entry. -/
theorem Represents.modify (hc : c.Represents (pre ++ (h, j) :: post))
    (f : Instruction Op → Instruction Op) :
    (c.modify h f).Represents (pre ++ (h, f j) :: post) := by
  have hcells : ∀ g, (c.modify h f).cells[g]? =
      if h = g then c.cells[g]?.map fun cell ↦ { cell with instruction := cell.instruction.map f }
      else c.cells[g]? := fun g ↦ Array.getElem?_modify
  have hhandles : (pre ++ (h, f j) :: post).map (·.1) = (pre ++ (h, j) :: post).map (·.1) := by
    simp
  -- no other entry of the list sits in the cell that changes
  have hnodup := hc.nodup
  rw [List.map_append, List.map_cons, List.nodup_append, List.nodup_cons] at hnodup
  obtain ⟨-, ⟨hpost, -⟩, hpre⟩ := hnodup
  obtain ⟨hsegpre, hcell, hsegpost⟩ := segment_append.1 hc.segment
  constructor
  · rw [hhandles]
    exact hc.nodup
  · refine segment_append.2 ⟨hsegpre.congr fun e he ↦ ?_, ?_, hsegpost.congr fun e he ↦ ?_⟩
    · rw [hcells, if_neg fun heq ↦ hpre e.1 (List.mem_map_of_mem he) h (by simp) heq.symm]
    · rw [hcells, if_pos rfl, hcell]
      rfl
    · rw [hcells, if_neg]
      rintro rfl
      exact hpost (List.mem_map.2 ⟨e, he, rfl⟩)
  · rw [Code.modify, hc.front]
    cases pre <;> rfl
  · rw [Code.modify, hc.back, lastHandle_append, lastHandle_append]
    rfl
  · rw [Code.modify, hc.size]
    simp
  · intro g hg
    rw [hhandles] at hg
    have hne : h ≠ g := by
      rintro rfl
      simp at hg
    rw [Code.get?, hcells, if_neg hne]
    exact hc.dead g hg

end At

section Between

variable {pre post : List (Handle × Instruction Op)}

/-- An insertion at the first handle of the second part of a sequence goes between the two parts. -/
theorem Represents.insertAt (hc : c.Represents (pre ++ post)) (i : Instruction Op) :
    c.insertAt (firstHandle post none) i =
      (c.insertBetween (lastHandle pre none) (firstHandle post none) i).map .ok id := by
  cases post with
  | nil =>
    rw [List.append_nil] at hc
    show (c.insertBetween c.back none i).map Except.ok id = _
    rw [hc.back]
    rfl
  | cons e rest =>
    show c.insertBefore e.1 i = _
    rw [insertBefore, hc.liveCell]
    rfl

/-- **Instructions put in between come to stand there, in order, under new handles.** -/
theorem Represents.insertAllAt (hc : c.Represents (pre ++ post)) (is : List (Instruction Op)) :
    ∃ c' new, c.insertAllAt (firstHandle post none) is = .ok c' ∧
      c'.Represents (pre ++ new ++ post) ∧ new.map (·.2) = is ∧
      (∀ e ∈ new, c.cells.size ≤ e.1) ∧ c.cells.size ≤ c'.cells.size := by
  induction is generalizing c pre with
  | nil => exact ⟨c, [], rfl, by simpa using hc, rfl, by simp, Nat.le_refl _⟩
  | cons i rest ih =>
    have hc₁ := hc.insertBetween i
    rw [List.append_cons] at hc₁
    obtain ⟨c', new, hok, hc', hnew, hfresh, hsize⟩ := ih hc₁
    rw [size_cells_insertBetween] at hfresh hsize
    refine ⟨c', (c.cells.size, i) :: new, ?_, ?_, ?_, ?_, Nat.le_of_succ_le hsize⟩
    · rw [Code.insertAllAt, List.foldlM_cons, hc.insertAt]
      exact hok
    · rw [List.append_cons]
      exact hc'
    · rw [List.map_cons, hnew]
    · intro e he
      rcases List.mem_cons.1 he with rfl | he
      · exact Nat.le_refl _
      · exact Nat.le_of_succ_le (hfresh e he)

end Between

/-- Appending puts an instruction at the end. -/
theorem Represents.pushBack (hc : c.Represents l) (i : Instruction Op) :
    (c.pushBack i).2.Represents (l ++ [(c.cells.size, i)]) := by
  have hnil : c.Represents (l ++ []) := by rwa [List.append_nil]
  have := hnil.insertBetween i
  rwa [← hc.back] at this

end MachineCode.Code

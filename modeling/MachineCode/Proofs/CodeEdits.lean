import MachineCode.Proofs.CodeSequence
import Mathlib.Data.List.Range

/-!
# Edits by handle

An `Edit` is one request to change an instruction list: an insertion at an end or beside an anchor,
a removal, a change of the instruction of a handle. The handles in it are arbitrary; they may be of
instructions that are gone, or may never have been given out. `Code.edit` makes the edit on linked
cells, and `Edit.onList` makes it on an ordinary list of handles and instructions, where it is an
append, a `cons` or a `splice`.

The two never come apart: after any edits the answers are the same, and the cells read as the list,
forward and backward, by position and by handle (`Code.Reads`). Both follow from one step lemma,
`Represents.edit`: an edit of cells that represent a list gives cells that represent the edited
list.
-/

namespace MachineCode.Code

variable {Op : Type}

/-- A request to change an instruction list. -/
inductive Edit (Op : Type) where
  | pushBack (i : Instruction Op)
  | pushFront (i : Instruction Op)
  | insertBefore (anchor : Handle) (i : Instruction Op)
  | insertAfter (anchor : Handle) (i : Instruction Op)
  | remove (h : Handle)
  | modify (h : Handle) (f : Instruction Op → Instruction Op)
  | set (h : Handle) (i : Instruction Op)

/-- What the one who asks for an edit is told. -/
inductive Answer (Op : Type) where
  /-- The handle of the instruction that was put in. -/
  | inserted (h : Handle)
  /-- The instruction that the handle denoted before, if it denoted one. -/
  | found (i : Option (Instruction Op))
  | assigned
  | fault (f : Fault)

namespace Answer

/-- The handle that an answer gives out. -/
def handle? : Answer Op → Option Handle
  | .inserted h => some h
  | _ => none

/-- The answer to an insertion. -/
def ofInsertion : Except Fault Handle → Answer Op
  | .ok h => .inserted h
  | .error f => .fault f

/-- The answer to an assignment. -/
def ofAssignment : Except Fault Unit → Answer Op
  | .ok _ => .assigned
  | .error f => .fault f

end Answer

/-! ### Edits of linked cells -/

/-- Make one edit. The list is the one that the operation leaves behind, also after a fault. -/
def edit (c : Code Op) : Edit Op → Answer Op × Code Op
  | .pushBack i => (c.pushBack i).map .inserted id
  | .pushFront i => (c.pushFront i).map .inserted id
  | .insertBefore anchor i => (c.insertBefore anchor i).map .ofInsertion id
  | .insertAfter anchor i => (c.insertAfter anchor i).map .ofInsertion id
  | .remove h => (c.remove h).map .found id
  | .modify h f => (.found (c.get? h), c.modify h f)
  | .set h i => (c.set h i).map .ofAssignment id

/-- Make edits one after the other. Gives the answers in order and the list in the end. -/
def editAll (c : Code Op) : List (Edit Op) → List (Answer Op) × Code Op
  | [] => ([], c)
  | e :: rest =>
    let r := (c.edit e).2.editAll rest
    ((c.edit e).1 :: r.1, r.2)

/-! ### Edits of ordinary lists -/

/-- The list in which the entry of `h` gives way to what `g` makes of its instruction. -/
def splice (h : Handle) (g : Instruction Op → List (Handle × Instruction Op))
    (l : List (Handle × Instruction Op)) : List (Handle × Instruction Op) :=
  l.flatMap fun e ↦ if e.1 = h then g e.2 else [e]

namespace Edit

/-- Make an edit on an ordinary list, with `new` for the handle of an instruction that is put in. -/
def onList (new : Handle) (l : List (Handle × Instruction Op)) :
    Edit Op → Answer Op × List (Handle × Instruction Op)
  | .pushBack i => (.inserted new, l ++ [(new, i)])
  | .pushFront i => (.inserted new, (new, i) :: l)
  | .insertBefore a i =>
    if a ∈ l.map (·.1) then (.inserted new, splice a (fun j ↦ [(new, i), (a, j)]) l)
    else (.fault (.deadHandle a), l)
  | .insertAfter a i =>
    if a ∈ l.map (·.1) then (.inserted new, splice a (fun j ↦ [(a, j), (new, i)]) l)
    else (.fault (.deadHandle a), l)
  | .remove h => (.found (l.lookup h), splice h (fun _ ↦ []) l)
  | .modify h f => (.found (l.lookup h), splice h (fun j ↦ [(h, f j)]) l)
  | .set h i =>
    if h ∈ l.map (·.1) then (.assigned, splice h (fun _ ↦ [(h, i)]) l)
    else (.fault (.deadHandle h), l)

/-- Make edits one after the other on an ordinary list, with the handles from `new` on for the
instructions that are put in. -/
def onListAll (new : Handle) (l : List (Handle × Instruction Op)) :
    List (Edit Op) → List (Answer Op) × List (Handle × Instruction Op)
  | [] => ([], l)
  | e :: rest =>
    let r := onListAll (if (e.onList new l).1.handle?.isSome then new + 1 else new)
      (e.onList new l).2 rest
    ((e.onList new l).1 :: r.1, r.2)

/-- The handle whose instruction an edit takes out or changes. -/
def target? : Edit Op → Option Handle
  | .remove h => some h
  | .modify h _ => some h
  | .set h _ => some h
  | _ => none

end Edit

section List

variable {l pre post : List (Handle × Instruction Op)} {h new : Handle} {j : Instruction Op}
  {g : Instruction Op → List (Handle × Instruction Op)}

theorem splice_of_not_mem (hl : h ∉ l.map (·.1)) : splice h g l = l := by
  have hkeep : ∀ e ∈ l, (if e.1 = h then g e.2 else [e]) = [e] := by
    intro e he
    rw [if_neg]
    rintro rfl
    exact hl (List.mem_map_of_mem he)
  rw [splice, List.flatMap_congr hkeep]
  exact List.flatMap_singleton' l

/-- Handles are distinct, so exactly one entry is replaced. -/
theorem splice_append_cons (hnodup : ((pre ++ (h, j) :: post).map (·.1)).Nodup) :
    splice h g (pre ++ (h, j) :: post) = pre ++ g j ++ post := by
  rw [List.map_append, List.map_cons, List.nodup_append, List.nodup_cons] at hnodup
  obtain ⟨-, ⟨hpost, -⟩, hdisj⟩ := hnodup
  have hpre : h ∉ pre.map (·.1) := fun hmem ↦ hdisj h hmem h (by simp) rfl
  have hmiddle : splice h g ((h, j) :: post) = g j ++ splice h g post := by
    rw [splice, List.flatMap_cons, if_pos rfl]
    rfl
  calc splice h g (pre ++ (h, j) :: post)
      = splice h g pre ++ splice h g ((h, j) :: post) := List.flatMap_append
    _ = pre ++ (g j ++ post) := by rw [hmiddle, splice_of_not_mem hpre, splice_of_not_mem hpost]
    _ = pre ++ g j ++ post := (List.append_assoc ..).symm

theorem lookup_cons_eq (k : Handle) (e : Handle × Instruction Op) :
    (e :: l).lookup k = if k = e.1 then some e.2 else l.lookup k := by
  obtain ⟨h, j⟩ := e
  rw [List.lookup_cons]
  by_cases hk : k = h
  · simp [hk]
  · simp [hk, beq_false_of_ne hk]

theorem lookup_eq_none (hl : h ∉ l.map (·.1)) : l.lookup h = none := by
  rw [List.lookup_eq_none_iff]
  intro e he
  exact bne_iff_ne.2 fun heq ↦ hl (heq ▸ List.mem_map_of_mem he)

/-- A splice leaves what is found under `k`, if it keeps the instruction of `h` and brings nothing
new under `k`. -/
theorem lookup_splice {k : Handle} (hg : ∀ j, (g j).lookup k = if k = h then some j else none) :
    (splice h g l).lookup k = l.lookup k := by
  induction l with
  | nil => rfl
  | cons e rest ih =>
    have hcons : splice h g (e :: rest) = (if e.1 = h then g e.2 else [e]) ++ splice h g rest := by
      rw [splice, List.flatMap_cons]
      rfl
    rw [hcons, List.lookup_append, ih, lookup_cons_eq]
    by_cases hh : e.1 = h
    · rw [if_pos hh, hg, hh]
      split <;> simp
    · rw [if_neg hh, lookup_cons_eq]
      split <;> simp

/-- An edit leaves what it does not name, and what it does not put in, as it was. -/
theorem Edit.lookup_onList (e : Edit Op) {k : Handle} (htarget : e.target? ≠ some k)
    (hnew : (e.onList new l).1 ≠ .inserted k) : (e.onList new l).2.lookup k = l.lookup k := by
  cases e with
  | pushBack i =>
    have hk : k ≠ new := fun heq ↦ hnew (heq ▸ rfl)
    rw [onList, List.lookup_append, lookup_cons_eq, if_neg hk]
    simp
  | pushFront i =>
    have hk : k ≠ new := fun heq ↦ hnew (heq ▸ rfl)
    rw [onList, lookup_cons_eq, if_neg hk]
  | insertBefore a i =>
    by_cases ha : a ∈ l.map (·.1)
    · rw [onList, if_pos ha] at hnew ⊢
      have hk : k ≠ new := fun heq ↦ hnew (heq ▸ rfl)
      dsimp only
      refine lookup_splice fun j ↦ ?_
      simp only [lookup_cons_eq, if_neg hk]
      rfl
    · rw [onList, if_neg ha]
  | insertAfter a i =>
    by_cases ha : a ∈ l.map (·.1)
    · rw [onList, if_pos ha] at hnew ⊢
      have hk : k ≠ new := fun heq ↦ hnew (heq ▸ rfl)
      dsimp only
      refine lookup_splice fun j ↦ ?_
      simp only [lookup_cons_eq, if_neg hk]
      rfl
    · rw [onList, if_neg ha]
  -- from here on the handle is no new one, but may be the target
  | remove h =>
    have hk : k ≠ h := fun heq ↦ htarget (heq ▸ rfl)
    dsimp only [onList]
    exact lookup_splice fun j ↦ (if_neg hk).symm
  | modify h f =>
    have hk : k ≠ h := fun heq ↦ htarget (heq ▸ rfl)
    dsimp only [onList]
    refine lookup_splice fun j ↦ ?_
    rw [lookup_cons_eq, if_neg hk, if_neg hk]
    rfl
  | set h i =>
    have hk : k ≠ h := fun heq ↦ htarget (heq ▸ rfl)
    by_cases hh : h ∈ l.map (·.1)
    · rw [onList, if_pos hh]
      dsimp only
      refine lookup_splice fun j ↦ ?_
      rw [lookup_cons_eq, if_neg hk, if_neg hk]
      rfl
    · rw [onList, if_neg hh]

end List

/-! ### Every edit keeps the representation -/

section Represents

variable {c : Code Op} {l pre post : List (Handle × Instruction Op)} {h : Handle}
  {j : Instruction Op}

theorem firstHandle_none (l : List (Handle × Instruction Op)) :
    firstHandle l none = (l.map (·.1)).head? := by
  cases l <;> rfl

theorem lastHandle_none (l : List (Handle × Instruction Op)) :
    lastHandle l none = (l.map (·.1)).getLast? := by
  rcases List.eq_nil_or_concat l with rfl | ⟨rest, e, rfl⟩
  · rfl
  · simp [List.concat_eq_append]

/-- A handle of a list splits it. -/
theorem exists_split (hh : h ∈ l.map (·.1)) : ∃ pre j post, l = pre ++ (h, j) :: post := by
  obtain ⟨e, he, rfl⟩ := List.mem_map.1 hh
  obtain ⟨pre, post, rfl⟩ := List.append_of_mem he
  exact ⟨pre, e.2, post, rfl⟩

/-- A handle in the list denotes its instruction. -/
theorem Represents.get?_of_split (hc : c.Represents (pre ++ (h, j) :: post)) :
    c.get? h = some j := by
  obtain ⟨-, hcell, -⟩ := segment_append.1 hc.segment
  rw [get?, hcell]
  rfl

/-- **Handles are looked up in the cells as in the list.** -/
theorem Represents.get?_eq (hc : c.Represents l) (h : Handle) : c.get? h = l.lookup h := by
  by_cases hh : h ∈ l.map (·.1)
  · obtain ⟨pre, j, post, rfl⟩ := exists_split hh
    have hnodup := hc.nodup
    rw [List.map_append, List.map_cons, List.nodup_append] at hnodup
    have hpre : h ∉ pre.map (·.1) := fun hmem ↦ hnodup.2.2 h hmem h (by simp) rfl
    rw [hc.get?_of_split, List.lookup_append, lookup_eq_none hpre, lookup_cons_eq, if_pos rfl]
    rfl
  · rw [hc.dead h hh, lookup_eq_none hh]

/-- A handle is valid exactly if it is in the list. -/
theorem Represents.contains_iff (hc : c.Represents l) (h : Handle) :
    c.contains h ↔ h ∈ l.map (·.1) := by
  rw [contains, hc.get?_eq, List.lookup_isSome_iff, List.mem_map]
  exact ⟨fun ⟨e, he, heq⟩ ↦ ⟨e, he, (beq_iff_eq.1 heq).symm⟩,
    fun ⟨e, he, heq⟩ ↦ ⟨e, he, beq_iff_eq.2 heq.symm⟩⟩

/-- A handle that is not in the sequence has no live cell. -/
theorem Represents.liveCell_eq_error (hc : c.Represents l) (hh : h ∉ l.map (·.1)) :
    c.liveCell h = .error (.deadHandle h) := by
  have hdead := hc.dead h hh
  rw [get?] at hdead
  rw [Code.liveCell]
  cases hcell : c.cells[h]? with
  | none => rfl
  | some cell =>
    rw [hcell, Option.bind_some] at hdead
    simp [hdead]

theorem Represents.prev (hc : c.Represents (pre ++ (h, j) :: post)) :
    c.prev h = .ok (lastHandle pre none) := by
  rw [Code.prev, hc.liveCell]
  rfl

/-- A walk along the links to the previous cell meets the entries in reverse order. -/
theorem walkBackward_eq {n : Nat} {next : Option Handle} (hl : c.Segment none l next)
    (hn : l.length ≤ n) : c.walkBackward n (lastHandle l none) = (l.map (·.1)).reverse := by
  induction l using List.reverseRecOn generalizing n next with
  | nil => cases n <;> rfl
  | append_singleton rest e ih =>
    cases n with
    | zero => simp at hn
    | succ n =>
      obtain ⟨hrest, hcell, -⟩ := segment_append.1 hl
      rw [lastHandle_concat, walkBackward, hcell]
      show e.1 :: c.walkBackward n (lastHandle rest none) = _
      rw [ih hrest (by simpa using hn)]
      simp

theorem Represents.backward_eq (hc : c.Represents l) : c.backward = (l.map (·.1)).reverse := by
  rw [backward, hc.back]
  exact walkBackward_eq hc.segment hc.length_le

/-- An instruction at the front comes before all others. -/
theorem Represents.pushFront (hc : c.Represents l) (i : Instruction Op) :
    (c.pushFront i).2.Represents ((c.cells.size, i) :: l) := by
  have hnil : c.Represents ([] ++ l) := hc
  have hinsert := hnil.insertBetween i
  rwa [← hc.front] at hinsert

/-- An insertion in front of a handle that is in the list. -/
theorem Represents.insertBefore (hc : c.Represents (pre ++ (h, j) :: post)) (i : Instruction Op) :
    ∃ c', c.insertBefore h i = (.ok c.cells.size, c') ∧ c'.cells.size = c.cells.size + 1 ∧
      c'.Represents (pre ++ [(c.cells.size, i), (h, j)] ++ post) := by
  refine ⟨(c.insertBetween (lastHandle pre none) (some h) i).2, ?_, size_cells_insertBetween .., ?_⟩
  · rw [Code.insertBefore, hc.liveCell]
    rfl
  · rw [List.append_assoc]
    exact hc.insertBetween i

/-- An insertion behind a handle that is in the list. -/
theorem Represents.insertAfter (hc : c.Represents (pre ++ (h, j) :: post)) (i : Instruction Op) :
    ∃ c', c.insertAfter h i = (.ok c.cells.size, c') ∧ c'.cells.size = c.cells.size + 1 ∧
      c'.Represents (pre ++ [(h, j), (c.cells.size, i)] ++ post) := by
  refine ⟨(c.insertBetween (some h) (firstHandle post none) i).2, ?_, size_cells_insertBetween ..,
    ?_⟩
  · rw [Code.insertAfter, hc.liveCell]
    rfl
  · rw [List.append_cons] at hc
    have hinsert := hc.insertBetween i
    rw [lastHandle_concat] at hinsert
    simpa using hinsert

/-- The cells after a removal: that of the handle is blank, and the neighbours are linked to each
other. -/
theorem cells_remove {i : Instruction Op} {prev next : Option Handle}
    (hcell : c.cells[h]? = some ⟨some i, prev, next⟩) (g : Handle) (hg : h ≠ g) :
    (c.remove h).2.cells[g]? = c.cells[g]?.map fun cell ↦
      ⟨cell.instruction, if next = some g then prev else cell.prev,
        if prev = some g then next else cell.next⟩ := by
  rw [remove, hcell]
  dsimp only
  rw [cells_linkPrev, cells_linkNext, Array.getElem?_modify, if_neg hg, Option.map_map]
  rfl

/-- If the first cell goes, the next one is the first. -/
theorem front_remove {i : Instruction Op} {prev next : Option Handle}
    (hcell : c.cells[h]? = some ⟨some i, prev, next⟩) :
    (c.remove h).2.front = if prev = none then next else c.front := by
  rw [remove, hcell]
  cases prev <;> cases next <;> rfl

theorem back_remove {i : Instruction Op} {prev next : Option Handle}
    (hcell : c.cells[h]? = some ⟨some i, prev, next⟩) :
    (c.remove h).2.back = if next = none then prev else c.back := by
  rw [remove, hcell]
  cases prev <;> cases next <;> rfl

theorem size_remove {i : Instruction Op} {prev next : Option Handle}
    (hcell : c.cells[h]? = some ⟨some i, prev, next⟩) :
    (c.remove h).2.size = c.size - 1 ∧ (c.remove h).2.cells.size = c.cells.size := by
  rw [remove, hcell]
  cases prev <;> cases next <;> simp [linkNext, linkPrev]

/-- A handle that was removed denotes nothing. -/
theorem get?_remove_self {i : Instruction Op} {prev next : Option Handle}
    (hcell : c.cells[h]? = some ⟨some i, prev, next⟩) : (c.remove h).2.get? h = none := by
  rw [remove, hcell]
  dsimp only
  rw [get?, cells_linkPrev, cells_linkNext, Array.getElem?_modify, if_pos rfl, hcell]
  rfl

/-- **A removal closes the gap.** -/
theorem Represents.remove (hc : c.Represents (pre ++ (h, j) :: post)) :
    (c.remove h).1 = some j ∧ (c.remove h).2.cells.size = c.cells.size ∧
      (c.remove h).2.Represents (pre ++ post) := by
  have hnodup := hc.nodup
  rw [List.map_append, List.map_cons, List.nodup_append, List.nodup_cons] at hnodup
  obtain ⟨hpre, ⟨hhpost, hpost⟩, hdisj⟩ := hnodup
  have hhpre : h ∉ pre.map (·.1) := fun hmem ↦ hdisj h hmem h (by simp) rfl
  have hapart : ∀ g ∈ pre.map (·.1), g ∉ post.map (·.1) := fun g hg hg' ↦
    hdisj g hg g (List.mem_cons_of_mem _ hg') rfl
  obtain ⟨hsegpre, hcell, hsegpost⟩ := segment_append.1 hc.segment
  have hcells := cells_remove (h := h) hcell
  refine ⟨by rw [Code.remove, hcell], (size_remove hcell).2, ?_⟩
  constructor
  · rw [List.map_append]
    exact List.nodup_append.2 ⟨hpre, hpost, fun a ha b hb heq ↦ hapart a ha (heq ▸ hb)⟩
  · -- only the neighbours of the removed cell have other links
    refine segment_append.2 ⟨hsegpre.relinkLast hpre fun e he ↦ ?_,
      hsegpost.relinkFirst hpost fun e he ↦ ?_⟩
    · have hmem := List.mem_map_of_mem (f := (·.1)) he
      have hother : firstHandle post none ≠ some e.1 := fun heq ↦
        hapart e.1 hmem (firstHandle_mem heq)
      rw [hcells e.1 fun heq ↦ hhpre (heq ▸ hmem)]
      simp only [if_neg hother]
    · have hmem := List.mem_map_of_mem (f := (·.1)) he
      have hother : lastHandle pre none ≠ some e.1 := fun heq ↦
        hapart e.1 (lastHandle_mem heq) hmem
      rw [hcells e.1 fun heq ↦ hhpost (heq ▸ hmem)]
      simp only [if_neg hother]
  · rw [front_remove hcell, hc.front]
    rcases List.eq_nil_or_concat pre with rfl | ⟨pre', e, rfl⟩
    · rfl
    · rw [List.concat_eq_append, lastHandle_concat, if_neg (by simp)]
      cases pre' <;> rfl
  · rw [back_remove hcell, hc.back, lastHandle_append, lastHandle_append]
    cases post <;> rfl
  · rw [(size_remove hcell).1, hc.size]
    simp
  · intro g hg
    rw [List.map_append, List.mem_append, not_or] at hg
    by_cases heq : h = g
    · exact heq ▸ get?_remove_self hcell
    · have hdead := hc.dead g (by simp [hg, Ne.symm heq])
      rw [get?] at hdead ⊢
      rw [hcells g heq]
      cases hcell : c.cells[g]? with
      | none => rfl
      | some cell =>
        rw [hcell] at hdead
        exact hdead

theorem modify_eq_self (hh : c.get? h = none) (f : Instruction Op → Instruction Op) :
    c.modify h f = c := by
  have hcells : c.cells.modify h
      (fun cell ↦ { cell with instruction := cell.instruction.map f }) = c.cells := by
    refine Array.ext_getElem? fun g ↦ ?_
    rw [Array.getElem?_modify]
    split
    · next heq =>
      subst heq
      rw [get?] at hh
      cases hcell : c.cells[h]? with
      | none => rfl
      | some cell =>
        obtain ⟨instruction, prev, next⟩ := cell
        rw [hcell, Option.bind_some] at hh
        subst hh
        rfl
    · rfl
  rw [modify, hcells]

/-- A removal of such a handle finds nothing and changes nothing. -/
theorem remove_eq_self (hh : c.get? h = none) : c.remove h = (none, c) := by
  rw [get?] at hh
  rw [remove]
  split
  · next hcell =>
    rw [hcell] at hh
    cases hh
  · rfl

/-! An operation that needs the instruction of a handle faults if there is none, and leaves the list
as it was. -/

theorem Represents.insertBefore_eq_error (hc : c.Represents l) (hh : h ∉ l.map (·.1))
    (i : Instruction Op) : c.insertBefore h i = (.error (.deadHandle h), c) := by
  rw [Code.insertBefore, hc.liveCell_eq_error hh]

theorem Represents.insertAfter_eq_error (hc : c.Represents l) (hh : h ∉ l.map (·.1))
    (i : Instruction Op) : c.insertAfter h i = (.error (.deadHandle h), c) := by
  rw [Code.insertAfter, hc.liveCell_eq_error hh]

theorem Represents.set_eq_error (hc : c.Represents l) (hh : h ∉ l.map (·.1))
    (i : Instruction Op) : c.set h i = (.error (.deadHandle h), c) := by
  rw [Code.set, get, hc.dead h hh]
  rfl

/-- **One edit of the cells is the same edit of the list.** -/
theorem Represents.edit (hc : c.Represents l) (e : Edit Op) :
    (c.edit e).1 = (e.onList c.cells.size l).1 ∧
      (c.edit e).2.Represents (e.onList c.cells.size l).2 ∧
      (c.edit e).2.cells.size =
        if (c.edit e).1.handle?.isSome then c.cells.size + 1 else c.cells.size := by
  cases e with
  | pushBack i => exact ⟨rfl, hc.pushBack i, size_cells_insertBetween ..⟩
  | pushFront i => exact ⟨rfl, hc.pushFront i, size_cells_insertBetween ..⟩
  -- each edit at a handle either finds it and splits the list there, or changes nothing
  | insertBefore a i =>
    by_cases ha : a ∈ l.map (·.1)
    · obtain ⟨pre, j, post, rfl⟩ := exists_split ha
      obtain ⟨c', hok, hsize, hc'⟩ := hc.insertBefore i
      rw [Code.edit, hok, Edit.onList, if_pos ha, splice_append_cons hc.nodup]
      exact ⟨rfl, hc', hsize⟩
    · rw [Code.edit, hc.insertBefore_eq_error ha, Edit.onList, if_neg ha]
      exact ⟨rfl, hc, rfl⟩
  | insertAfter a i =>
    by_cases ha : a ∈ l.map (·.1)
    · obtain ⟨pre, j, post, rfl⟩ := exists_split ha
      obtain ⟨c', hok, hsize, hc'⟩ := hc.insertAfter i
      rw [Code.edit, hok, Edit.onList, if_pos ha, splice_append_cons hc.nodup]
      exact ⟨rfl, hc', hsize⟩
    · rw [Code.edit, hc.insertAfter_eq_error ha, Edit.onList, if_neg ha]
      exact ⟨rfl, hc, rfl⟩
  | remove h =>
    rw [Code.edit, Edit.onList, ← hc.get?_eq]
    by_cases hh : h ∈ l.map (·.1)
    · obtain ⟨pre, j, post, rfl⟩ := exists_split hh
      obtain ⟨hfound, hsize, hc'⟩ := hc.remove
      rw [Prod.map_fst, Prod.map_snd, hfound, hc.get?_of_split, splice_append_cons hc.nodup,
        List.append_nil]
      exact ⟨rfl, hc', hsize⟩
    · rw [remove_eq_self (hc.dead h hh), splice_of_not_mem hh, hc.dead h hh]
      exact ⟨rfl, hc, rfl⟩
  | modify h f =>
    rw [Code.edit, Edit.onList, hc.get?_eq]
    by_cases hh : h ∈ l.map (·.1)
    · obtain ⟨pre, j, post, rfl⟩ := exists_split hh
      rw [splice_append_cons hc.nodup, List.append_assoc]
      exact ⟨rfl, hc.modify f, Array.size_modify⟩
    · rw [modify_eq_self (hc.dead h hh), splice_of_not_mem hh]
      exact ⟨rfl, hc, rfl⟩
  | set h i =>
    by_cases hh : h ∈ l.map (·.1)
    · obtain ⟨pre, j, post, rfl⟩ := exists_split hh
      have hok : c.set h i = (.ok (), c.modify h fun _ ↦ i) := by
        rw [Code.set, get, hc.get?_of_split]
        rfl
      rw [Code.edit, hok, Edit.onList, if_pos hh, splice_append_cons hc.nodup, List.append_assoc]
      exact ⟨rfl, hc.modify _, Array.size_modify⟩
    · rw [Code.edit, hc.set_eq_error hh, Edit.onList, if_neg hh]
      exact ⟨rfl, hc, rfl⟩

/-- **Edits of the cells are the same edits of the list**, with the numbers of the new cells for the
new handles. -/
theorem Represents.editAll (hc : c.Represents l) (edits : List (Edit Op)) :
    (c.editAll edits).1 = (Edit.onListAll c.cells.size l edits).1 ∧
      (c.editAll edits).2.Represents (Edit.onListAll c.cells.size l edits).2 := by
  induction edits generalizing c l with
  | nil => exact ⟨rfl, hc⟩
  | cons e rest ih =>
    obtain ⟨hanswer, hc', hsize⟩ := hc.edit e
    obtain ⟨hanswers, hend⟩ := ih hc'
    rw [hsize, hanswer] at hanswers hend
    exact ⟨congrArg₂ _ hanswer hanswers, hend⟩

end Represents

/-- If an edit gives out a handle, it is the new one. -/
theorem Edit.handle?_onList (new : Handle) (l : List (Handle × Instruction Op)) (e : Edit Op) :
    (e.onList new l).1.handle? = none ∨ (e.onList new l).1.handle? = some new := by
  cases e with
  | pushBack i => exact .inr rfl
  | pushFront i => exact .inr rfl
  | insertBefore a i =>
    rw [onList]
    split
    · exact .inr rfl
    · exact .inl rfl
  | insertAfter a i =>
    rw [onList]
    split
    · exact .inr rfl
    · exact .inl rfl
  | remove h => exact .inl rfl
  | modify h f => exact .inl rfl
  | set h i =>
    rw [onList]
    split <;> exact .inl rfl

/-- The handles that edits give out are consecutive numbers. -/
theorem handles_onListAll (new : Handle) (l : List (Handle × Instruction Op))
    (edits : List (Edit Op)) :
    ∃ n, (Edit.onListAll new l edits).1.filterMap Answer.handle? = List.range' new n := by
  induction edits generalizing new l with
  | nil => exact ⟨0, rfl⟩
  | cons e rest ih =>
    obtain ⟨n, hn⟩ := ih (if (e.onList new l).1.handle?.isSome then new + 1 else new)
      (e.onList new l).2
    rw [Edit.onListAll, List.filterMap_cons, hn]
    rcases e.handle?_onList new l with hnone | hsome
    · rw [hnone]
      exact ⟨n, rfl⟩
    · rw [hsome]
      exact ⟨n + 1, rfl⟩

/-! ### What can be read -/

/-- Whatever is asked of the instruction list is answered from the list `l`. -/
structure Reads (c : Code Op) (l : List (Handle × Instruction Op)) : Prop where
  /-- A walk from the front meets the entries in order. -/
  entries : c.entries = l
  /-- A walk from the back meets them in reverse order. -/
  backward : c.backward = (l.map (·.1)).reverse
  size : c.size = l.length
  front : c.front = (l.map (·.1)).head?
  back : c.back = (l.map (·.1)).getLast?
  /-- The neighbours of a handle are those in the list. -/
  neighbours : ∀ pre e post, l = pre ++ e :: post →
    c.next e.1 = .ok (post.map (·.1)).head? ∧ c.prev e.1 = .ok (pre.map (·.1)).getLast?
  get? : ∀ h, c.get? h = l.lookup h
  contains : ∀ h, c.contains h ↔ h ∈ l.map (·.1)
  /-- Other handles have no neighbours and denote nothing. -/
  dead : ∀ h, h ∉ l.map (·.1) → c.get h = .error (.deadHandle h) ∧
    c.next h = .error (.deadHandle h) ∧ c.prev h = .error (.deadHandle h)

/-- **What can be asked of the cells is answered from the list.** -/
theorem Represents.reads {c : Code Op} {l : List (Handle × Instruction Op)}
    (hc : c.Represents l) : c.Reads l where
  entries := hc.entries_eq
  backward := hc.backward_eq
  size := hc.size
  front := by rw [hc.front, firstHandle_none]
  back := by rw [hc.back, lastHandle_none]
  neighbours := by
    rintro pre ⟨h, j⟩ post rfl
    rw [hc.next, hc.prev, firstHandle_none, lastHandle_none]
    exact ⟨rfl, rfl⟩
  get? := hc.get?_eq
  contains := hc.contains_iff
  dead := by
    intro h hh
    have hcell := hc.liveCell_eq_error hh
    refine ⟨?_, ?_, ?_⟩
    · rw [get, hc.dead h hh]
      rfl
    · rw [Code.next, hcell]
      rfl
    · rw [Code.prev, hcell]
      rfl

/-- **An instruction list is an ordinary list with stable handles.** After any edits from the empty
list, with any handles in them:

* the answers are those of the same edits of an ordinary list, and the cells read as that list;
* the handles given out are distinct, and fit wherever their number fits;
* a further edit leaves every handle other than the one that it takes out, changes or gives out, as
  it was;
* at a handle that is not in the list, an insertion or an assignment faults, a removal or a change
  finds nothing, and the list stays as it was. -/
theorem editAll_refines_list (edits : List (Edit Op)) :
    let run := (empty : Code Op).editAll edits
    let plain := Edit.onListAll 0 [] edits
    let issued := run.1.filterMap Answer.handle?
    (run.1 = plain.1 ∧ run.2.Reads plain.2) ∧
      (issued.Nodup ∧ ∀ h ∈ issued, h < issued.length) ∧
      (∀ (e : Edit Op) (h : Handle), e.target? ≠ some h → (run.2.edit e).1 ≠ .inserted h →
        (run.2.edit e).2.get? h = run.2.get? h) ∧
      ∀ h, ¬ run.2.contains h →
        (∀ i, run.2.edit (.insertBefore h i) = (.fault (.deadHandle h), run.2)) ∧
        (∀ i, run.2.edit (.insertAfter h i) = (.fault (.deadHandle h), run.2)) ∧
        (∀ i, run.2.edit (.set h i) = (.fault (.deadHandle h), run.2)) ∧
        run.2.edit (.remove h) = (.found none, run.2) ∧
        ∀ f, run.2.edit (.modify h f) = (.found none, run.2) := by
  intro run plain issued
  obtain ⟨hanswers, hc⟩ := represents_empty.editAll edits
  refine ⟨⟨hanswers, hc.reads⟩, ?_, fun e h htarget hnew ↦ ?_, fun h hh ↦ ?_⟩
  -- the handles are the numbers of the cells, in the order in which these were made
  · obtain ⟨n, hn⟩ := handles_onListAll 0 [] edits
    have hissued : issued = List.range' 0 n := by
      rw [← hn]
      exact congrArg _ hanswers
    rw [hissued]
    refine ⟨List.nodup_range', fun h hmem ↦ ?_⟩
    simpa using hmem
  · obtain ⟨hanswer, hc', -⟩ := hc.edit e
    rw [hc'.get?_eq, hc.get?_eq]
    exact e.lookup_onList htarget (hanswer ▸ hnew)
  · rw [hc.contains_iff] at hh
    have hdead := hc.dead h hh
    refine ⟨fun i ↦ ?_, fun i ↦ ?_, fun i ↦ ?_, ?_, fun f ↦ ?_⟩
    · rw [edit, hc.insertBefore_eq_error hh]
      rfl
    · rw [edit, hc.insertAfter_eq_error hh]
      rfl
    · rw [edit, hc.set_eq_error hh]
      rfl
    · rw [edit, remove_eq_self hdead]
      rfl
    · rw [edit, modify_eq_self hdead, hdead]

end MachineCode.Code

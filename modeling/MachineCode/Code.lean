import MachineCode.Fault
import MachineCode.Instruction

/-!
# Instruction lists with stable handles

`Code Op` is the body of a function: a sequence of instructions in which every instruction keeps
one handle for life. A handle is the number of the cell that the instruction was put into. Cells
are linked to their neighbours, so an instruction can be put in anywhere by touching two cells;
cells are never used again, so a handle of a removed instruction never comes to denote another
one.

The sequence itself is `Code.entries`, read by following the links from the front; `Code.backward`
reads it from the back. An operation that needs the instruction of a handle faults if there is none.
One that changes the list gives the list that it leaves behind in any case, with its answer or with
the fault.
-/

namespace MachineCode

/-- The number of a cell, which denotes the instruction that was put into it. -/
abbrev Handle := Nat

/-- A cell: the instruction in it, until it is removed, and its neighbours in the sequence. -/
structure Cell (Op : Type) where
  instruction : Option (Instruction Op) := none
  prev : Option Handle := none
  next : Option Handle := none

/-- A sequence of instructions with stable handles. -/
structure Code (Op : Type) where
  /-- The cells, by handle. -/
  cells : Array (Cell Op) := #[]
  /-- The handle of the first instruction. -/
  front : Option Handle := none
  /-- The handle of the last instruction. -/
  back : Option Handle := none
  /-- How many instructions there are. -/
  size : Nat := 0

namespace Code

variable {Op : Type}

/-- The list without instructions. -/
def empty : Code Op := {}

/-- There is no instruction. -/
def isEmpty (c : Code Op) : Bool := c.size = 0

/-- The instruction that a handle denotes. -/
def get? (c : Code Op) (h : Handle) : Option (Instruction Op) := c.cells[h]?.bind (·.instruction)

/-- The handle denotes an instruction of the list. -/
def contains (c : Code Op) (h : Handle) : Bool := (c.get? h).isSome

/-- The instruction that a handle has to denote. -/
def get (c : Code Op) (h : Handle) : Except Fault (Instruction Op) :=
  (c.get? h).elim (.error (.deadHandle h)) .ok

/-- The cell of a handle that has to denote an instruction. -/
def liveCell (c : Code Op) (h : Handle) : Except Fault (Cell Op) :=
  match c.cells[h]? with
  | some cell => if cell.instruction.isSome then .ok cell else .error (.deadHandle h)
  | none => .error (.deadHandle h)

/-- The handle after `h`, if `h` is not the last. -/
def next (c : Code Op) (h : Handle) : Except Fault (Option Handle) := (·.next) <$> c.liveCell h

/-- The handle before `h`, if `h` is not the first. -/
def prev (c : Code Op) (h : Handle) : Except Fault (Option Handle) := (·.prev) <$> c.liveCell h

/-! ### Links -/

/-- Let `other` follow `h`, or stand first if there is no `h`. -/
def linkNext (c : Code Op) (h other : Option Handle) : Code Op :=
  match h with
  | some h => { c with cells := c.cells.modify h fun cell ↦ { cell with next := other } }
  | none => { c with front := other }

/-- Let `other` precede `h`, or stand last if there is no `h`. -/
def linkPrev (c : Code Op) (h other : Option Handle) : Code Op :=
  match h with
  | some h => { c with cells := c.cells.modify h fun cell ↦ { cell with prev := other } }
  | none => { c with back := other }

/-- Put an instruction into a new cell between two neighbours. -/
def insertBetween (c : Code Op) (prev next : Option Handle) (i : Instruction Op) :
    Handle × Code Op :=
  let h := c.cells.size
  let c := { c with cells := c.cells.push ⟨some i, prev, next⟩, size := c.size + 1 }
  (h, (c.linkNext prev (some h)).linkPrev next (some h))

/-! ### Insertion and removal -/

/-- Put an instruction at the end. Gives its handle. -/
def pushBack (c : Code Op) (i : Instruction Op) : Handle × Code Op :=
  c.insertBetween c.back none i

/-- Put an instruction at the front. Gives its handle. -/
def pushFront (c : Code Op) (i : Instruction Op) : Handle × Code Op :=
  c.insertBetween none c.front i

/-- Put an instruction right before `anchor`. Gives its handle. -/
def insertBefore (c : Code Op) (anchor : Handle) (i : Instruction Op) :
    Except Fault Handle × Code Op :=
  match c.liveCell anchor with
  | .error f => (.error f, c)
  | .ok cell => (c.insertBetween cell.prev (some anchor) i).map .ok id

/-- Put an instruction right after `anchor`. Gives its handle. -/
def insertAfter (c : Code Op) (anchor : Handle) (i : Instruction Op) :
    Except Fault Handle × Code Op :=
  match c.liveCell anchor with
  | .error f => (.error f, c)
  | .ok cell => (c.insertBetween (some anchor) cell.next i).map .ok id

/-- Put an instruction right before `anchor`, or at the end if there is no anchor. -/
def insertAt (c : Code Op) (anchor : Option Handle) (i : Instruction Op) :
    Except Fault Handle × Code Op :=
  match anchor with
  | some h => c.insertBefore h i
  | none => (c.pushBack i).map .ok id

/-- Put instructions, in order, right before `anchor`, or at the end if there is no anchor. -/
def insertAllAt (c : Code Op) (anchor : Option Handle) (is : List (Instruction Op)) :
    Except Fault (Code Op) :=
  is.foldlM (fun c i ↦ let r := c.insertAt anchor i; r.1.map fun _ ↦ r.2) c

/-- Take an instruction out. Gives the instruction, or nothing if the handle denotes none. -/
def remove (c : Code Op) (h : Handle) : Option (Instruction Op) × Code Op :=
  match c.cells[h]? with
  | some ⟨some i, prev, next⟩ =>
    let c := { c with cells := c.cells.modify h fun _ ↦ {}, size := c.size - 1 }
    (some i, (c.linkNext prev next).linkPrev next prev)
  | _ => (none, c)

/-- Change the instruction of a handle by `f`, if the handle denotes one. -/
def modify (c : Code Op) (h : Handle) (f : Instruction Op → Instruction Op) : Code Op :=
  { c with cells := c.cells.modify h fun cell ↦
      { cell with instruction := cell.instruction.map f } }

/-- Let a handle denote another instruction. -/
def set (c : Code Op) (h : Handle) (i : Instruction Op) : Except Fault Unit × Code Op :=
  match c.get h with
  | .error f => (.error f, c)
  | .ok _ => (.ok (), c.modify h fun _ ↦ i)

/-! ### The sequence -/

/-- The handles and instructions met by following at most `n` links forward from `h`. -/
def walkForward (c : Code Op) : Nat → Option Handle → List (Handle × Instruction Op)
  | n + 1, some h =>
    match c.cells[h]? with
    | some ⟨some i, _, next⟩ => (h, i) :: walkForward c n next
    | _ => []
  | _, _ => []

/-- The handles met by following at most `n` links backward from `h`. -/
def walkBackward (c : Code Op) : Nat → Option Handle → List Handle
  | n + 1, some h =>
    match c.cells[h]? with
    | some ⟨some _, prev, _⟩ => h :: walkBackward c n prev
    | _ => []
  | _, _ => []

/-- The handles and instructions in order. A walk meets no cell twice, so it is over after as many
steps as there are cells. -/
def entries (c : Code Op) : List (Handle × Instruction Op) := c.walkForward c.cells.size c.front

/-- The handles in order. -/
def handles (c : Code Op) : List Handle := c.entries.map (·.1)

/-- The instructions in order. -/
def instructions (c : Code Op) : List (Instruction Op) := c.entries.map (·.2)

/-- The handles from the last to the first. -/
def backward (c : Code Op) : List Handle := c.walkBackward c.cells.size c.back

end Code

end MachineCode

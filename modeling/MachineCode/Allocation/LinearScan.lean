import MachineCode.Allocation
import MachineCode.Liveness

/-!
# Linear scan

The allocator goes once through the intervals of the virtual registers, by ascending start, and
keeps the intervals that hold a register at the current point (`Scan.active`). The intervals of
physical registers are *fixed*: they only restrict what a virtual interval may take.

An interval that crosses a call has to live in a callee-saved register, any other in a
caller-saved one. If no such register is free, then of the intervals that hold one the interval
could take, the one that ends last gives it up, provided it ends after the interval itself;
otherwise the interval is spilled. Whoever goes without a register gets the next stack slot.

Each step is one function on the state of the scan (`Scan.step`), which also keeps the history of
what was decided; the messages of the allocator are read off that history.
-/

namespace MachineCode

/-- A live range of one register. -/
structure Interval where
  reg : Register
  range : LiveRange
  deriving DecidableEq

namespace Interval

/-- The ranges of the two intervals overlap. -/
def overlaps (i j : Interval) : Bool := i.range.overlaps j.range

/-- The order of the scan: by start, then by end, then by register. -/
def precedes (i j : Interval) : Bool :=
  i.range.start < j.range.start ∨ i.range.start = j.range.start ∧
    (i.range.stop < j.range.stop ∨ i.range.stop = j.range.stop ∧ i.reg.number ≤ j.reg.number)

/-- Put an interval before the first of an ordered list that it precedes. -/
def insertSorted (i : Interval) : List Interval → List Interval
  | [] => [i]
  | j :: rest => if i.precedes j then i :: j :: rest else j :: insertSorted i rest

/-- The intervals in the order of the scan. -/
def sort (l : List Interval) : List Interval := l.foldr insertSorted []

/-- The intervals of a part of a liveness table, register by register. -/
def ofTable (l : List (Register × List LiveRange)) : List Interval :=
  l.flatMap fun e ↦ e.2.map fun range ↦ ⟨e.1, range⟩

/-- An interval with its end points, as messages show it. -/
def text (i : Interval) : String :=
  i.reg.text ++ " " ++ LiveRange.interval i.range.start i.range.stop

end Interval

/-- What a scan decides. -/
inductive Decision where
  /-- The interval of the virtual register is over, and the physical register is free. -/
  | expired (vreg freed : Register)
  /-- The interval gets a free register. -/
  | assigned (interval : Interval) (reg : Register)
  /-- An earlier interval goes to a stack slot, and a virtual register gets its register. -/
  | evicted (victim : Interval) (slot vreg : Register)
  /-- The interval goes to a stack slot. -/
  | spilled (interval : Interval) (slot : Register)
  deriving DecidableEq

/-- The message about a decision. -/
def Decision.entry (rf : RegisterFile) : Decision → Entry
  | .expired v r => ⟨.trace, "  expire " ++ v.text ++ " (frees " ++ r.text ++ ")"⟩
  | .assigned i r => ⟨.trace, "  " ++ i.text ++ " -> " ++ rf.display r⟩
  | .evicted i slot v =>
    ⟨.debug, "  evict " ++ i.text ++ " to " ++ slot.text ++ " in favour of " ++ v.text⟩
  | .spilled i slot => ⟨.debug, "  spill " ++ i.text ++ " to " ++ slot.text⟩

/-- An interval that holds a register. -/
structure Active where
  interval : Interval
  reg : Register
  deriving DecidableEq

/-- The state of a scan. -/
structure Scan where
  /-- The intervals that hold a register, in the order in which they got it. -/
  active : List Active := []
  /-- The places given so far. -/
  places : RegisterMap Register := {}
  /-- The number of stack slots given so far. -/
  slots : Nat := 0
  /-- What was decided so far, the latest first. -/
  history : List Decision := []

namespace Scan

/-- The register has the saving class that the interval needs, and no fixed interval of the
register overlaps it. -/
def eligible (rf : RegisterFile) (fixed : List Interval) (r : Register) (i : Interval) : Bool :=
  (if i.range.acrossCall then rf.isCalleeSaved r else rf.isCallerSaved r) &&
    !fixed.any fun f ↦ f.reg = r && f.overlaps i

/-- The register is held by an active interval. -/
def isHeld (s : Scan) (r : Register) : Bool := s.active.any (·.reg = r)

/-- Free the registers of the intervals that end at or before `p`. -/
def expire (s : Scan) (p : Nat) : Scan :=
  let ended := s.active.filter (·.interval.range.stop ≤ p)
  { s with
    active := s.active.filter (p < ·.interval.range.stop)
    history := (ended.map fun a ↦ .expired a.interval.reg a.reg).reverse ++ s.history }

/-- The first allocatable register that is free and eligible. -/
def freeRegister? (rf : RegisterFile) (fixed : List Interval) (s : Scan) (i : Interval) :
    Option Register :=
  rf.allocatable.find? fun r ↦ !s.isHeld r && eligible rf fixed r i

/-- The interval of `a` ends after that of `b`, or with it and has no smaller register. -/
def outlives (a b : Active) : Bool :=
  b.interval.range.stop < a.interval.range.stop ∨
    b.interval.range.stop = a.interval.range.stop ∧ b.interval.reg.number ≤ a.interval.reg.number

/-- The member of a list that outlives the others. -/
def longest? (l : List Active) : Option Active :=
  l.foldl (fun best a ↦
    match best with
    | none => some a
    | some b => if outlives a b then some a else some b) none

/-- The active interval that gives up its register for `i`: of those whose register `i` could take
and that end after `i`, the one that ends last. -/
def victim? (rf : RegisterFile) (fixed : List Interval) (s : Scan) (i : Interval) :
    Option Active :=
  longest? (s.active.filter fun a ↦
    decide (i.range.stop < a.interval.range.stop) && eligible rf fixed a.reg i)

/-- Let an interval hold a register. No two intervals may hold one register. -/
def activate (s : Scan) (i : Interval) (r : Register) : Except Fault Scan :=
  if s.isHeld r then .error (.sharedRegister r)
  else .ok { s with active := s.active ++ [⟨i, r⟩], places := s.places.insert i.reg r }

/-- Hand out the next stack slot. -/
def newSlot (s : Scan) : Except Fault (Register × Scan) := do
  let slot ← Register.slot s.slots
  return (slot, { s with slots := s.slots + 1 })

/-- Note a decision. -/
def note (s : Scan) (d : Decision) : Scan := { s with history := d :: s.history }

/-- Give `i` the register of the active interval `a`, which goes to a stack slot. -/
def evict (s : Scan) (a : Active) (i : Interval) : Except Fault Scan := do
  let (slot, s) ← s.newSlot
  let s := { s with
    active := s.active.erase a
    places := s.places.insert a.interval.reg slot }
  (s.note (.evicted a.interval slot i.reg)).activate i a.reg

/-- Put `i` into a stack slot. -/
def spill (s : Scan) (i : Interval) : Except Fault Scan := do
  let (slot, s) ← s.newSlot
  return { s with places := s.places.insert i.reg slot }.note (.spilled i slot)

/-- Find a place for the next interval. -/
def step (rf : RegisterFile) (fixed : List Interval) (s : Scan) (i : Interval) :
    Except Fault Scan :=
  let s := s.expire i.range.start
  match freeRegister? rf fixed s i with
  | some r => (s.note (.assigned i r)).activate i r
  | none =>
    match victim? rf fixed s i with
    | some a => s.evict a i
    | none => s.spill i

/-- Find a place for each interval of a list, in order. -/
def run (rf : RegisterFile) (fixed : List Interval) (l : List Interval) : Except Fault Scan :=
  l.foldlM (step rf fixed) {}

/-- The allocation that a scan has come to. -/
def allocation (s : Scan) : Allocation := ⟨s.places, s.slots⟩

end Scan

namespace Liveness

/-- The intervals of the virtual registers, in the order of the scan. -/
def virtualIntervals (l : Liveness) : List Interval :=
  Interval.sort (Interval.ofTable l.virtualRegisters)

/-- The intervals of the physical registers. -/
def fixedIntervals (l : Liveness) : List Interval := Interval.ofTable l.physicalRegisters

/-- The scan over the intervals of a function. -/
def scan (rf : RegisterFile) (l : Liveness) : Except Fault Scan :=
  Scan.run rf l.fixedIntervals l.virtualIntervals

/-- A place for every virtual register of a function. -/
def allocate (rf : RegisterFile) (l : Liveness) : Except Fault Allocation :=
  (·.allocation) <$> l.scan rf

/-- A place for every virtual register of a function, with the messages of the allocator. -/
def noteAllocate (rf : RegisterFile) (l : Liveness) : Logged Fault Allocation := do
  Logged.say .debug ("Allocating " ++ toString l.virtualIntervals.length ++
    " virtual intervals against " ++ toString l.fixedIntervals.length ++ " fixed intervals")
  let s ← Logged.ofExcept (l.scan rf)
  Logged.sayAll (s.history.reverse.map (·.entry rf))
  Logged.say .debug ("Allocation done: " ++ toString s.places.size ++ " virtual registers, " ++
    toString s.slots ++ " spill slots")
  return s.allocation

end Liveness

end MachineCode

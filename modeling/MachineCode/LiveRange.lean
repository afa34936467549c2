import MachineCode.Word

/-!
# Live ranges

A live range is a half-open interval `[start, stop)` of program points at which a register holds
a value that is still wanted. A range remembers whether a call was seen inside it
(`LiveRange.acrossCall`); once seen, a call is never forgotten.

Ranges grow as uses are recorded. The ranges of a virtual register are one interval from the first
to the last use (`LiveRange.extendHull`); those of a physical register keep the gaps between uses
(`LiveRange.extendRuns`).
-/

namespace MachineCode

/-- A half-open interval of program points. -/
structure LiveRange where
  start : Nat
  stop : Nat
  /-- A call was seen inside the range. -/
  acrossCall : Bool := false
  deriving DecidableEq

namespace LiveRange

/-- The range that holds one point. The point after it has to be a program point too. -/
def point (p : Nat) : Except Fault LiveRange := do
  return { start := p, stop := ← Unsigned32.add p 1 }

/-- The point lies in the range. -/
def contains (r : LiveRange) (p : Nat) : Bool := r.start ≤ p ∧ p < r.stop

/-- The two ranges have a point in common, if neither is empty. -/
def overlaps (r s : LiveRange) : Bool := r.start < s.stop ∧ s.start < r.stop

/-- The number of points in the range. -/
def length (r : LiveRange) : Except Fault Nat := Unsigned32.sub r.stop r.start

/-- The range holds no point. -/
def isEmpty (r : LiveRange) : Bool := r.stop ≤ r.start

/-- Note the calls that lie in the range. -/
def markCalls (calls : List Nat) (r : LiveRange) : LiveRange :=
  { r with acrossCall := r.acrossCall || calls.any r.contains }

/-- The range, as it is written in messages. -/
def text (r : LiveRange) : String :=
  "LiveRange \x7b start: " ++ toString r.start ++ ", end: " ++ toString r.stop ++
    ", used_across_call: " ++ (if r.acrossCall then "true" else "false") ++ " \x7d"

/-- The interval in mathematical writing. -/
def interval (start stop : Nat) : String :=
  "[" ++ toString start ++ ", " ++ toString stop ++ ")"

/-- Stretch the first range to the point `p`, or open a range at `p` if there is none. -/
def extendHull (p : Nat) (calls : List Nat) : List LiveRange → Except Fault (List LiveRange)
  | [] => do return [(← point p).markCalls calls]
  | r :: rest => do
    let stop ← Unsigned32.add p 1
    return { r with start := min r.start p, stop := max r.stop stop }.markCalls calls :: rest

/-- Open a new range at `p` behind the ranges, or stretch the last one if it ends at `p`. -/
def extendLast (p : Nat) (calls : List Nat) : List LiveRange → Except Fault (List LiveRange)
  | [] => do return [(← point p).markCalls calls]
  | [r] => do
    if r.stop = p then
      return [{ r with stop := ← Unsigned32.add p 1 }.markCalls calls]
    else
      return [r, (← point p).markCalls calls]
  | r :: rest => do return r :: (← extendLast p calls rest)

/-- Let the ranges cover the point `p`, and no other point that they did not cover. A point that
is covered already changes nothing. -/
def extendRuns (p : Nat) (calls : List Nat) (rs : List LiveRange) :
    Except Fault (List LiveRange) :=
  if rs.any (·.contains p) then .ok rs else extendLast p calls rs

/-! ### Points of a range -/

theorem contains_iff {r : LiveRange} {p : Nat} : r.contains p ↔ r.start ≤ p ∧ p < r.stop := by
  simp [contains]

theorem overlaps_iff {r s : LiveRange} :
    r.overlaps s ↔ r.start < s.stop ∧ s.start < r.stop := by
  simp [overlaps]

theorem overlaps_comm (r s : LiveRange) : r.overlaps s = s.overlaps r := by
  rw [Bool.eq_iff_iff, overlaps_iff, overlaps_iff]
  exact And.comm

@[simp] theorem start_markCalls (calls : List Nat) (r : LiveRange) :
    (r.markCalls calls).start = r.start := rfl

@[simp] theorem stop_markCalls (calls : List Nat) (r : LiveRange) :
    (r.markCalls calls).stop = r.stop := rfl

end LiveRange

end MachineCode

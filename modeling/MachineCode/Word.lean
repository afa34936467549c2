import MachineCode.Fault

/-!
# Arithmetic in words

Sizes and program points are natural numbers and offsets are integers, but they are computed in
words of fixed width. A checked operation gives the exact value, or the fault of the step that
leaves the word; a computation in several steps faults at the first such step.
-/

namespace MachineCode

/-! ### Words of 32 bits without sign -/

namespace Unsigned32

/-- The words are the numbers below this bound, which is `2 ^ 32`. -/
def bound : Nat := 4294967296

/-- The sum, if it is below the bound. -/
def add (a b : Nat) : Except Fault Nat :=
  if a + b < bound then .ok (a + b) else .error .addOverflow

/-- The difference, if it is not negative. -/
def sub (a b : Nat) : Except Fault Nat :=
  if b ≤ a then .ok (a - b) else .error .subOverflow

/-- The product, if it is below the bound. -/
def mul (a b : Nat) : Except Fault Nat :=
  if a * b < bound then .ok (a * b) else .error .mulOverflow

theorem add_eq_ok_iff {a b c : Nat} : add a b = .ok c ↔ a + b < bound ∧ c = a + b := by
  grind [add]

theorem sub_eq_ok_iff {a b c : Nat} : sub a b = .ok c ↔ b ≤ a ∧ c = a - b := by
  grind [sub]

theorem mul_eq_ok_iff {a b c : Nat} : mul a b = .ok c ↔ a * b < bound ∧ c = a * b := by
  grind [mul]

end Unsigned32

/-! ### Words of 64 bits with sign -/

namespace Signed64

/-- The words are the integers from minus this bound up to it, which is `2 ^ 63`. -/
def bound : Int := 9223372036854775808

/-- The integer has a 64-bit word. -/
def Fits (a : Int) : Prop := -bound ≤ a ∧ a < bound

instance (a : Int) : Decidable (Fits a) := inferInstanceAs (Decidable (_ ∧ _))

/-- The sum, if it fits. -/
def add (a b : Int) : Except Fault Int :=
  if Fits (a + b) then .ok (a + b) else .error .addOverflow

/-- The product, if it fits. -/
def mul (a b : Int) : Except Fault Int :=
  if Fits (a * b) then .ok (a * b) else .error .mulOverflow

/-- The integer that the 64 low bits of `a` stand for. -/
def wrap (a : Int) : Int := a.bmod 18446744073709551616

end Signed64

end MachineCode

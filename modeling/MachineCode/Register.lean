import MachineCode.Text

/-!
# Registers

A register is a 32-bit id, and the id alone says what the register stands for. The id space is
cut into four classes:

* `0` is the *absent* register, which fills a register position that names nothing;
* `[1, 2 ^ 30)` are the physical registers of the machine, numbered from one;
* `[2 ^ 30, 2 ^ 31)` are the stack slots, numbered from zero;
* `[2 ^ 31, 2 ^ 32)` are the virtual registers, numbered from zero.

The neutral text of a register (`Register.text`) spells out its class and its number, and needs
no machine to be written. Every register has exactly one class (`Register.kind`), and inside a
class the number determines the id. A neutral text can be read back (`Register.ofText?`); only what
`Register.text` writes is accepted, so a number has no needless zero before it.
-/

namespace MachineCode

/-- A register, given by its id. Registers are compared and ordered by id. -/
structure Register where
  /-- The place of the register in the id space. -/
  id : UInt32
  deriving DecidableEq

/-- The four classes of registers. -/
inductive RegisterClass where
  | absent
  | physical
  | stackSlot
  | virtual
  deriving DecidableEq

namespace Register

/-- The id of stack slot `0`. -/
def firstSlot : Nat := 1073741824

/-- The id of virtual register `0`. -/
def firstVirtual : Nat := 2147483648

/-- All ids are below this bound. -/
def idBound : Nat := 4294967296

/-- The register that names nothing. -/
def absent : Register := ⟨0⟩

/-- The id as a natural number. -/
def number (r : Register) : Nat := r.id.toNat

/-- The class whose range holds the id. -/
def kind (r : Register) : RegisterClass :=
  if r.number = 0 then .absent
  else if r.number < firstSlot then .physical
  else if r.number < firstVirtual then .stackSlot
  else .virtual

/-- The register names nothing. -/
def isAbsent (r : Register) : Bool := r.kind = .absent

/-- The register is one of the machine. -/
def isPhysical (r : Register) : Bool := r.kind = .physical

/-- The register is a stack slot. -/
def isStackSlot (r : Register) : Bool := r.kind = .stackSlot

/-- The register is a virtual one. -/
def isVirtual (r : Register) : Bool := r.kind = .virtual

/-- The number of a stack slot among the stack slots. -/
def slotIndex? (r : Register) : Option Nat :=
  if r.isStackSlot then some (r.number - firstSlot) else none

/-- The number of a virtual register among the virtual registers. -/
def virtualIndex? (r : Register) : Option Nat :=
  if r.isVirtual then some (r.number - firstVirtual) else none

/-- The register with id `n`, for an `n` below `idBound`. -/
def ofNumber (n : Nat) : Register := ⟨UInt32.ofNat n⟩

/-- Stack slot `index`, if there are that many. -/
def slot? (index : Nat) : Option Register :=
  if index < firstVirtual - firstSlot then some (ofNumber (firstSlot + index)) else none

/-- Virtual register `index`, if there are that many. -/
def virtual? (index : Nat) : Option Register :=
  if index < idBound - firstVirtual then some (ofNumber (firstVirtual + index)) else none

/-- Physical register `n`, if `n` is a number of the physical range. -/
def physical? (n : Nat) : Option Register :=
  if 0 < n ∧ n < firstSlot then some (ofNumber n) else none

/-- The neutral text: the class and the number in it. -/
def text (r : Register) : String :=
  match r.kind with
  | .absent => "%noreg"
  | .physical => "%phys" ++ toString r.number
  | .stackSlot => "%stackslot" ++ toString (r.number - firstSlot)
  | .virtual => "%vreg" ++ toString (r.number - firstVirtual)

/-- The register with a given neutral text. -/
def ofText? (text : String) : Option Register :=
  let mark := text.toList.takeWhile (!·.isDigit)
  let number := Text.decimal (text.toList.dropWhile (!·.isDigit))
  let candidate := match String.ofList mark with
    | "%noreg" => some absent
    | "%phys" => physical? number
    | "%stackslot" => slot? number
    | "%vreg" => virtual? number
    | _ => none
  candidate.filter (·.text = text)

/-- The members of a list, each once, in the order of their first occurrence. -/
def distinct (rs : List Register) : List Register :=
  rs.foldl (fun seen r ↦ if seen.contains r then seen else seen ++ [r]) []

/-! ### The id and the class -/

@[ext] theorem ext_number {r s : Register} (h : r.number = s.number) : r = s := by
  cases r
  cases s
  simpa [number, UInt32.toNat_inj] using h

theorem number_lt (r : Register) : r.number < idBound := r.id.toNat_lt

theorem number_ofNumber {n : Nat} (h : n < idBound) : (ofNumber n).number = n := by
  exact UInt32.toNat_ofNat_of_lt' h

@[simp] theorem number_absent : absent.number = 0 := rfl

@[simp] theorem kind_absent : absent.kind = .absent := rfl

theorem ofNumber_number (r : Register) : ofNumber r.number = r :=
  ext_number (number_ofNumber r.number_lt)

theorem eq_absent_of_isAbsent {r : Register} (h : r.isAbsent) : r = absent := by
  have hnumber : r.number = 0 := by grind [isAbsent, kind]
  exact ext_number hnumber

theorem isPhysical_iff {r : Register} : r.isPhysical ↔ 0 < r.number ∧ r.number < firstSlot := by
  grind [isPhysical, kind]

theorem isStackSlot_iff {r : Register} :
    r.isStackSlot ↔ firstSlot ≤ r.number ∧ r.number < firstVirtual := by
  grind [isStackSlot, kind, firstSlot]

theorem isVirtual_iff {r : Register} : r.isVirtual ↔ firstVirtual ≤ r.number := by
  grind [isVirtual, kind, firstSlot, firstVirtual]

theorem text_of_ofText? {text : String} {r : Register} (h : ofText? text = some r) :
    r.text = text := by
  simpa using (Option.filter_eq_some_iff.1 h).2

end Register

end MachineCode

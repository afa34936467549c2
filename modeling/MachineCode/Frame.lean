import MachineCode.Word

/-!
# Stack frames

The frame of a function, from higher to lower addresses:

* the save area: return address, saved frame pointer, saved callee-saved registers;
* the frame pointer points at the bottom of the save area; below it the body begins with
  `localBytes` bytes of locals;
* spill slot `i` ends `localBytes + registerSize * i` bytes below the frame pointer;
* reserved slot `n`, counted from one, comes after all spill slots: spill code keeps the registers
  that it borrows there;
* padding up to the stack alignment, and the stack pointer.

Sizes are natural numbers computed step by step in 32-bit words: the first step that does not fit
decides the fault. Offsets from the frame pointer are integers; `spillOffset` and `reservedOffset`
give them exactly, and `spillOffsetChecked` and `reservedOffsetChecked` compute them in 64-bit
words.
-/

namespace MachineCode

/-- The layout of a stack frame. -/
structure Frame where
  localBytes : Nat
  spillSlots : Nat
  /-- The largest number of registers that spill code borrows around one instruction. -/
  reservedSlots : Nat
  /-- The callee-saved registers that the function preserves, in the order of saving. -/
  saved : List Register
  registerSize : Nat
  alignment : Nat
  deriving DecidableEq

namespace Frame

/-! ### Sizes -/

/-- The number is a power of two. -/
def isPowerOfTwo (n : Nat) : Bool := n ≠ 0 && Nat.pow 2 n.log2 = n

/-- The least multiple of `align` that is not below `value`, for a power of two `align`. -/
def alignUp (value align : Nat) : Except Fault Nat := do
  if isPowerOfTwo align then
    let sum ← Unsigned32.add value align
    return (sum - 1) / align * align
  else
    .error .alignment

/-- The bytes below the frame pointer: locals, spill slots and reserved slots. -/
def bodyBytes (f : Frame) : Except Fault Nat := do
  let slots ← Unsigned32.add f.spillSlots f.reservedSlots
  let size ← Unsigned32.mul f.registerSize slots
  Unsigned32.add f.localBytes size

/-- The bytes of the return address, the saved frame pointer and the saved registers. -/
def saveBytes (f : Frame) : Except Fault Nat := do
  let registers ← Unsigned32.add 2 f.saved.length
  Unsigned32.mul f.registerSize registers

/-- The bytes of the whole frame, up to the stack alignment. -/
def totalBytes (f : Frame) : Except Fault Nat := do
  let body ← f.bodyBytes
  let save ← f.saveBytes
  let sum ← Unsigned32.add body save
  alignUp sum f.alignment

/-- The bytes below the frame pointer with the padding. -/
def paddedBodyBytes (f : Frame) : Except Fault Nat := do
  let total ← f.totalBytes
  let save ← f.saveBytes
  Unsigned32.sub total save

/-! ### Offsets -/

/-- The offset of spill slot `index` from the frame pointer. -/
def spillOffset (localBytes registerSize index : Nat) : Int :=
  -((localBytes : Int) + registerSize * (index + 1))

/-- The offset of reserved slot `nth` from the frame pointer, behind `spills` spill slots. -/
def reservedOffset (localBytes registerSize spills nth : Nat) : Int :=
  -((localBytes : Int) + registerSize * spills + registerSize * nth)

/-- The value of `spillOffset`, computed in 64-bit words. -/
def spillOffsetChecked (localBytes registerSize index : Nat) : Except Fault Int := do
  let size ← Signed64.mul registerSize (index + 1)
  let depth ← Signed64.add localBytes size
  return -depth

/-- The value of `reservedOffset`, computed in 64-bit words. Reserved slots are counted from
one. -/
def reservedOffsetChecked (localBytes registerSize spills nth : Nat) : Except Fault Int := do
  if nth = 0 then
    .error .reservedNumbering
  else
    let spilled ← Signed64.mul registerSize spills
    let top ← Signed64.add localBytes spilled
    let size ← Signed64.mul registerSize nth
    let depth ← Signed64.add top size
    return -depth

end Frame

end MachineCode

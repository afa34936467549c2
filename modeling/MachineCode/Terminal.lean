/-!
# The visible part of a text

A text may hold characters that only steer a terminal. `Terminal.visible` leaves them out: the
control characters, and the control sequences that the escape character starts. Tabs and the ends
of lines and pages are kept, for they lay the text out.

How far a sequence goes is decided by the characters behind the escape character (`Sequence.next`).
A character of layout is visible inside the shorter kinds of sequence. The text behind it is visible
too, up to the next control character, and there the sequence goes on.
-/

namespace MachineCode.Terminal

/-- A tab, or the end of a line or of a page. -/
def isLayout (c : Char) : Bool := c = '\t' || c = '\n' || c = '\x0C' || c = '\r'

/-- The characters that are kept outside of sequences: all but the control characters, and of these
the ones of layout. -/
def isVisible (c : Char) : Bool := isLayout c || (0x20 ≤ c.toNat && c.toNat ≠ 0x7F)

/-! ### Control sequences -/

/-- How far a control sequence has come. -/
inductive Sequence where
  /-- There is none. -/
  | outside
  /-- The escape character has been read. -/
  | escape
  /-- Marks have followed the escape character. The next other character is the last one. -/
  | marks
  /-- Parameters are being read. A letter is the last character. -/
  | parameters
  /-- A string for a device starts. -/
  | device
  /-- The parameters of a string for a device are being read. -/
  | deviceParameters
  /-- The marks of a string for a device are being read. -/
  | deviceMarks
  /-- The inside of a string is being read, up to a terminator. -/
  | string
  /-- A command for the system is being read, up to a terminator or a bell. -/
  | command
  deriving DecidableEq

namespace Sequence

/-- The string terminator of one byte stands in the encoding of the character. -/
def holdsTerminator (c : Char) : Bool := (String.utf8EncodeChar c).contains 0x9C

/-- What the character behind the escape character starts. -/
def start (c : Char) : Sequence :=
  if c.toNat < 0x30 then .marks
  else if c = '[' then .parameters
  else if c = ']' then .command
  else if c = 'P' then .device
  else if c = 'X' || c = '^' || c = '_' then .string
  else .outside

/-- The sequence after a character that is not a control character, and is one of ASCII. -/
def take (s : Sequence) (c : Char) : Sequence :=
  let n := c.toNat
  match s with
  | outside => outside
  | escape => start c
  | marks => if n < 0x30 then marks else outside
  | parameters => if n < 0x40 then parameters else outside
  | device => if n < 0x30 then deviceMarks else if n < 0x40 then deviceParameters else string
  | deviceParameters =>
    if n < 0x30 then deviceMarks else if n < 0x3C then deviceParameters else string
  | deviceMarks => if n < 0x30 then deviceMarks else string
  | string => string
  | command => command

/-- The sequence after one more character. The escape character starts a new sequence anywhere, and
two other control characters cancel any. -/
def next (s : Sequence) (c : Char) : Sequence :=
  let n := c.toNat
  if n = 0x1B then escape
  else if n = 0x18 ∨ n = 0x1A then outside
  else if n < 0x20 ∨ n = 0x7F then
    if s = command ∧ n = 0x07 then outside else s
  else if 0x7F < n then
    if s = string ∧ holdsTerminator c then outside else s
  else s.take c

/-- The character is visible where it stands. -/
def shows (s : Sequence) (c : Char) : Bool :=
  match s with
  | outside => isVisible c
  | escape | marks | parameters => isLayout c
  | _ => false

end Sequence

/-! ### Reading a text -/

/-- What is known after a part of a text. -/
structure Reader where
  sequence : Sequence := .outside
  /-- The last character was visible. -/
  showing : Bool := true

/-- Read one more character. Visible text goes on up to a control character. -/
def Reader.step (r : Reader) (c : Char) : Reader :=
  if r.showing && isVisible c then
    { r with sequence := if 0x7F < c.toNat then .outside else r.sequence }
  else
    ⟨r.sequence.next c, r.sequence.shows c⟩

/-- The visible ones of the characters that follow. -/
def Reader.visible (r : Reader) : List Char → List Char
  | [] => []
  | c :: cs =>
    let r := r.step c
    if r.showing then c :: r.visible cs else r.visible cs

/-- The visible part of a text. -/
def visible (text : String) : String := String.ofList (Reader.visible {} text.toList)

/-- A text without control characters is visible as it is. -/
theorem Reader.visible_eq_self {r : Reader} (hr : r.showing = true) {cs : List Char}
    (h : ∀ c ∈ cs, isVisible c = true) : r.visible cs = cs := by
  induction cs generalizing r with
  | nil => rfl
  | cons c cs ih =>
    have hc : isVisible c = true := h c (by simp)
    have hstep : (r.step c).showing = true := by simp [step, hr, hc]
    simp only [visible, hstep, if_true]
    rw [ih hstep fun d hd ↦ h d (by simp [hd])]

end MachineCode.Terminal

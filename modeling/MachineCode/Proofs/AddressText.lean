import MachineCode.Proofs.RegisterText

/-!
# Addresses by their texts

An address is written as its parts, one behind the other, and parts that are not there are left out.
Still each machine's text says which parts it has (`TargetKind.memory_text_iff`): the part up to a
mark has none of that mark in it, so the mark tells where the next part begins
(`Text.append_inj_of_mark`). For the machine RISC-V the index is never written.
-/

namespace MachineCode

/-! ### Marks in a text -/

namespace Text

/-- The text is empty or starts with the given character. -/
def StartsWith (c : Char) (s : String) : Prop := ∀ d ∈ s.toList.head?, d = c

theorem startsWith_empty (c : Char) : StartsWith c "" := nofun

/-- A text behind a mark starts with the mark. -/
theorem startsWith_append {c : Char} {mark : String} (h : mark.toList = [c]) (s : String) :
    StartsWith c (mark ++ s) := by
  simp [StartsWith, h]

/-- **Two texts with a mark between their parts have the same parts**, if the mark is not in the
first one. -/
theorem append_inj_of_mark {c : Char} {s t s' t' : String} (hs : c ∉ s.toList)
    (hs' : c ∉ s'.toList) (ht : StartsWith c t) (ht' : StartsWith c t') :
    s ++ t = s' ++ t' ↔ s = s' ∧ t = t' := by
  -- the first part is what stands before the mark
  have hfirst {s t : String} (hs : c ∉ s.toList) (ht : StartsWith c t) :
      (s ++ t).toList.takeWhile (· ≠ c) = s.toList := by
    have hbefore : ∀ d ∈ s.toList, decide (d ≠ c) = true := fun d hd ↦
      decide_eq_true fun heq ↦ hs (heq ▸ hd)
    rw [String.toList_append, List.takeWhile_append_of_pos hbefore]
    cases hcs : t.toList with
    | nil => simp
    | cons d ds =>
      have hd : d = c := ht d (by rw [hcs]; rfl)
      simp [hd]
  constructor
  · intro h
    have heq : s = s' := by rw [← String.toList_inj, ← hfirst hs ht, h, hfirst hs' ht']
    subst heq
    exact ⟨rfl, (String.append_right_inj s).1 h⟩
  · rintro ⟨rfl, rfl⟩
    rfl

/-- A number is told from its digits. -/
theorem toString_int_inj {m n : Int} : toString m = toString n ↔ m = n := by
  refine ⟨fun h ↦ ?_, congrArg _⟩
  have hm := Token.word?_toString m
  rw [h, Token.word?_toString] at hm
  cases hm
  rfl

theorem toString_nat_inj {m n : Nat} : toString m = toString n ↔ m = n := by
  refine ⟨fun h ↦ ?_, congrArg _⟩
  exact Int.ofNat.inj (toString_int_inj.1 h)

theorem toString_int_ne_empty (n : Int) : toString n ≠ "" := by
  intro h
  have hn := Token.word?_toString n
  rw [h] at hn
  cases (show Token.word? "".toList = none from rfl).symm.trans hn

/-- Brackets and commas are no part of a number. -/
theorem notMem_toString {c : Char} (hc : Token.isWordChar c = false) (n : Int) :
    c ∉ (toString n).toList := by
  intro hmem
  have hword := List.all_eq_true.1 (Token.all_isWordChar_toString n) c hmem
  rw [hc] at hword
  cases hword

end Text

open Text

theorem Operand.registers_mem_ne_nil {a : Address} (h : (Operand.mem a).registers ≠ []) :
    ¬ (a.base.isAbsent ∧ a.index.isAbsent) := by
  rintro ⟨hbase, hindex⟩
  exact h (by simp [registers, hbase, hindex])

/-- The text of a register, if there is one. -/
def Register.optionalText (write : Register → String) (r : Register) : String :=
  if r.isAbsent then "" else write r

/-- A part that may be left out still tells its register, if it is empty for no register that is
present. -/
theorem Register.optionalText_inj {write : Register → String} (hinj : Function.Injective write)
    (hne : ∀ r, write r ≠ "") {r s : Register} :
    optionalText write r = optionalText write s ↔ r = s := by
  refine ⟨fun h ↦ ?_, congrArg _⟩
  rw [optionalText, optionalText] at h
  split at h <;> split at h
  · rename_i hr hs
    rw [eq_absent_of_isAbsent hr, eq_absent_of_isAbsent hs]
  · exact absurd h.symm (hne s)
  · exact absurd h (hne r)
  · exact hinj h

/-! ### Addresses with an index -/

namespace X86

/-- The displacement, which is left out if it is zero. -/
def dispText (d : Int) : String := if d = 0 then "" else toString d

/-- The base register, if there is one. -/
def baseText (r : Register) : String := r.optionalText formatRegister

/-- The index register and its scale, if there is one. -/
def indexText (index : Register) (scale : Nat) : String :=
  index.optionalText fun r ↦ "," ++ (formatRegister r ++ ("," ++ toString scale))

variable {r r' : Register} {a b : Address}

/-- **The parts of an address** with a register in it. -/
theorem formatAddress_eq (h : ¬ (a.base.isAbsent ∧ a.index.isAbsent)) :
    formatAddress a =
      dispText a.disp ++ ("(" ++ (baseText a.base ++ indexText a.index a.scale ++ ")")) := by
  rw [formatAddress, if_neg h]
  simp only [dispText, baseText, Register.optionalText, indexText, String.append_assoc]

/-- A register is told from its text behind the percent sign. -/
theorem formatRegister_injective : Function.Injective formatRegister :=
  Register.injective_of_read TargetKind.x86.operandRegister?_formatOperand

/-- Register names have no commas in them. -/
theorem comma_notMem_formatRegister (r : Register) : ',' ∉ (formatRegister r).toList := by
  have hdigits (n : Nat) : ',' ∉ Nat.toDigits 10 n := fun hmem ↦
    absurd (isDigit_of_mem hmem) (by decide)
  cases h : registerFile.name? r with
  | some name =>
    have hnames : ∀ name ∈ registerFile.names, ',' ∉ name.toList := by decide
    have hname := hnames name (RegisterFile.mem_names_of_name? h)
    rw [formatRegister_of_name? h]
    simp [hname]
  | none =>
    rw [formatRegister_of_none h]
    rcases r.text_cases with ⟨-, htext⟩ | ⟨n, -, htext⟩ | ⟨n, -, htext⟩ | ⟨n, -, htext⟩
    all_goals simp [htext, hdigits]

/-- A displacement that is left out is zero, and no other one is written as nothing. -/
theorem dispText_inj {m n : Int} : dispText m = dispText n ↔ m = n := by
  refine ⟨fun h ↦ ?_, congrArg _⟩
  rw [dispText, dispText] at h
  split at h <;> split at h
  · omega
  · exact absurd h.symm (toString_int_ne_empty n)
  · exact absurd h (toString_int_ne_empty m)
  · exact toString_int_inj.1 h

theorem baseText_inj : baseText r = baseText r' ↔ r = r' :=
  Register.optionalText_inj formatRegister_injective fun r ↦ by simp [formatRegister]

theorem indexText_absent (scale : Nat) : indexText .absent scale = "" := rfl

/-- An index comes with its scale, behind commas. -/
theorem indexText_of_ne (h : r ≠ .absent) (scale : Nat) :
    indexText r scale = "," ++ (formatRegister r ++ ("," ++ toString scale)) :=
  if_neg fun hr ↦ h (Register.eq_absent_of_isAbsent hr)

/-- The part behind the base is empty or starts with a comma. -/
theorem startsWith_indexText (r : Register) (scale : Nat) : StartsWith ',' (indexText r scale) := by
  by_cases h : r = .absent
  · subst h
    exact startsWith_empty ','
  · rw [indexText_of_ne h]
    exact startsWith_append rfl _

/-- An index part tells the index, and the scale if there is an index. -/
theorem indexText_inj {m n : Nat} :
    indexText r m = indexText r' n ↔ r = r' ∧ (r ≠ .absent → m = n) := by
  by_cases h : r = .absent <;> by_cases h' : r' = .absent
  · simp [h, h', indexText_absent]
  · simp [h, indexText_absent, indexText_of_ne h', Ne.symm h']
  · simp [h', indexText_absent, indexText_of_ne h, h]
  · rw [indexText_of_ne h, indexText_of_ne h', String.append_right_inj,
      append_inj_of_mark (comma_notMem_formatRegister r) (comma_notMem_formatRegister r')
        (startsWith_append rfl _) (startsWith_append rfl _),
      formatRegister_injective.eq_iff, String.append_right_inj, toString_nat_inj]
    simp [h]

/-- The displacement ends where the bracket opens. -/
theorem bracket_notMem_dispText (d : Int) : '(' ∉ (dispText d).toList := by
  rw [dispText]
  split
  · simp
  · exact notMem_toString (by decide) d

/-- The base ends where the comma stands. -/
theorem comma_notMem_baseText (r : Register) : ',' ∉ (baseText r).toList := by
  rw [baseText, Register.optionalText]
  split
  · simp
  · exact comma_notMem_formatRegister r

/-- **An address that names a register is read off its text.** -/
theorem formatAddress_inj (ha : ¬ (a.base.isAbsent ∧ a.index.isAbsent))
    (hb : ¬ (b.base.isAbsent ∧ b.index.isAbsent)) :
    formatAddress a = formatAddress b ↔ a.disp = b.disp ∧ a.base = b.base ∧ a.index = b.index ∧
      (a.index ≠ .absent → a.scale = b.scale) := by
  rw [formatAddress_eq ha, formatAddress_eq hb,
    append_inj_of_mark (bracket_notMem_dispText _) (bracket_notMem_dispText _)
      (startsWith_append rfl _) (startsWith_append rfl _),
    String.append_right_inj, String.append_left_inj,
    append_inj_of_mark (comma_notMem_baseText _) (comma_notMem_baseText _)
      (startsWith_indexText _ _) (startsWith_indexText _ _),
    dispText_inj, baseText_inj, indexText_inj]

end X86

/-! ### Addresses without an index -/

namespace RiscV

/-- The base register in brackets, if there is one. -/
def baseText (r : Register) : String :=
  r.optionalText fun r ↦ "(" ++ (registerFile.display r ++ ")")

variable {r r' : Register} {a b : Address}

/-- An address on RISC-V is a displacement and a base. The index is not written. -/
theorem formatOperand_mem (a : Address) :
    formatOperand (.mem a) = toString a.disp ++ baseText a.base := by
  rw [formatOperand, baseText, Register.optionalText]
  split
  · rw [String.append_empty]
  · simp only [String.append_assoc]

theorem baseText_inj : baseText r = baseText r' ↔ r = r' := by
  refine Register.optionalText_inj (fun r s h ↦ ?_) fun r ↦ by simp
  rw [String.append_right_inj, String.append_left_inj] at h
  exact Register.injective_of_read TargetKind.riscV.displayed?_display h

/-- The base part is empty or starts with a bracket. -/
theorem startsWith_baseText (r : Register) : StartsWith '(' (baseText r) := by
  rw [baseText, Register.optionalText]
  split
  · exact startsWith_empty '('
  · exact startsWith_append rfl _

/-- **An address without its index is read off its text.** -/
theorem formatOperand_mem_inj : formatOperand (.mem a) = formatOperand (.mem b) ↔
    a.disp = b.disp ∧ a.base = b.base := by
  rw [formatOperand_mem, formatOperand_mem,
    append_inj_of_mark (notMem_toString (by decide) _) (notMem_toString (by decide) _)
      (startsWith_baseText _) (startsWith_baseText _),
    toString_int_inj, baseText_inj]

/-- An index that is not written: two addresses with the same text. -/
theorem formatOperand_drops_index :
    let a : Address := { disp := 8, base := a0, index := a1, scale := 8 }
    let b : Address := { disp := 8, base := a0 }
    ((Operand.mem a).registers ≠ [] ∧ (Operand.mem b).registers ≠ []) ∧
      (target.formatOperand (.mem a) = "8(a0)" ∧ target.formatOperand (.mem b) = "8(a0)") ∧
      ¬ (a.disp = b.disp ∧ a.base = b.base ∧ a.index = b.index ∧
        (a.index ≠ .absent → a.scale = b.scale)) := by
  decide

end RiscV

namespace TargetKind

/-- **Texts identify addresses.** Let two addresses each name a register. On the machine x86-64 they
have the same text if and only if they have the same displacement, the same base, the same index
and, if there is one, the same scale. On the machine RISC-V, which writes no index, they have the
same text if and only if they have the same displacement and the same base. -/
theorem memory_text_iff {a b : Address} (ha : (Operand.mem a).registers ≠ [])
    (hb : (Operand.mem b).registers ≠ []) :
    (x86.target.formatOperand (.mem a) = x86.target.formatOperand (.mem b) ↔
      a.disp = b.disp ∧ a.base = b.base ∧ a.index = b.index ∧
        (a.index ≠ .absent → a.scale = b.scale)) ∧
    (riscV.target.formatOperand (.mem a) = riscV.target.formatOperand (.mem b) ↔
      a.disp = b.disp ∧ a.base = b.base) :=
  ⟨X86.formatAddress_inj (Operand.registers_mem_ne_nil ha) (Operand.registers_mem_ne_nil hb),
    RiscV.formatOperand_mem_inj⟩

/-- The same register as a base, and as an index with scale one. -/
theorem memory_text_iff_swapped :
    let a : Address := { base := X86.rcx }
    let b : Address := { index := X86.rcx }
    ((Operand.mem a).registers ≠ [] ∧ (Operand.mem b).registers ≠ []) ∧
      x86.target.formatOperand (.mem a) ≠ x86.target.formatOperand (.mem b) ∧
      riscV.target.formatOperand (.mem a) ≠ riscV.target.formatOperand (.mem b) := by
  intro a b
  have ha : (Operand.mem a).registers ≠ [] := by decide
  have hb : (Operand.mem b).registers ≠ [] := by decide
  obtain ⟨hx86, hriscV⟩ := memory_text_iff ha hb
  exact ⟨⟨ha, hb⟩, fun h ↦ absurd (hx86.1 h) (by decide), fun h ↦ absurd (hriscV.1 h) (by decide)⟩

end TargetKind

end MachineCode

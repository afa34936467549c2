import MachineCode.Proofs.JsonText
import MachineCode.Target.RiscV
import Mathlib.Data.List.Nodup

/-!
# Registers by their texts

A register is written in three ways: neutrally, under the name that a machine has for it, and as an
operand of an instruction. Each of the texts can be read back (`TargetKind.registers_identified`),
so no two of the `2 ^ 32` registers share one.

The neutral text is a percent sign, the tag of a class and the number in the class
(`Register.text_cases`): the tag ends where the digits begin. A machine replaces it by a name, which
has no percent sign; and where a percent sign is put before the name again, the name still differs
from every tag by its first letter.
-/

namespace MachineCode

namespace Register

/-- What can be read back is written for one register only. -/
theorem injective_of_read {write : Register → String} {read : String → Option Register}
    (h : ∀ r, read (write r) = some r) : Function.Injective write := by
  intro r s hrs
  have hread := congrArg read hrs
  rw [h, h] at hread
  exact Option.some.inj hread

/-! ### Neutral texts -/

/-- **How a register is written**: by its class and, but for the absent one, its number in it. -/
theorem text_cases (r : Register) :
    (r = absent ∧ r.text = "%noreg") ∨
    (∃ n, physical? n = some r ∧ r.text = "%phys" ++ toString n) ∨
    (∃ n, slot? n = some r ∧ r.text = "%stackslot" ++ toString n) ∨
    ∃ n, virtual? n = some r ∧ r.text = "%vreg" ++ toString n := by
  have hself := r.ofNumber_number
  cases h : r.kind with
  | absent => exact Or.inl ⟨eq_absent_of_isAbsent (by simp [isAbsent, h]), by simp [text, h]⟩
  | physical =>
    have hrange := isPhysical_iff.1 (show r.isPhysical by simp [isPhysical, h])
    refine Or.inr (Or.inl ⟨r.number, ?_, by simp [text, h]⟩)
    rw [physical?, if_pos hrange, hself]
  | stackSlot =>
    have hrange := isStackSlot_iff.1 (show r.isStackSlot by simp [isStackSlot, h])
    refine Or.inr (Or.inr (Or.inl ⟨r.number - firstSlot, ?_, by simp [text, h]⟩))
    rw [slot?, if_pos (by omega), Nat.add_sub_cancel' hrange.1, hself]
  | virtual =>
    have hrange := isVirtual_iff.1 (show r.isVirtual by simp [isVirtual, h])
    have hbound := r.number_lt
    refine Or.inr (Or.inr (Or.inr ⟨r.number - firstVirtual, ?_, by simp [text, h]⟩))
    rw [virtual?, if_pos (by omega), Nat.add_sub_cancel' hrange, hself]

/-- A text is cut where its digits begin. -/
theorem cut_text {text mark : String} {n : Nat} (htext : text = mark ++ toString n)
    (hmark : mark.toList.all (!·.isDigit)) :
    text.toList.takeWhile (!·.isDigit) = mark.toList ∧
      Text.decimal (text.toList.dropWhile (!·.isDigit)) = n := by
  have hchars : text.toList = mark.toList ++ Nat.toDigits 10 n := by
    rw [htext, String.toList_append, Nat.toString_eq_repr, Nat.toList_repr]
  have hdigits : (Nat.toDigits 10 n).takeWhile (!·.isDigit) = [] ∧
      (Nat.toDigits 10 n).dropWhile (!·.isDigit) = Nat.toDigits 10 n := by
    obtain ⟨c, cs, hcs⟩ := Text.exists_cons_toDigits n
    have hc : c.isDigit := Text.isDigit_of_mem (hcs ▸ List.mem_cons_self)
    simp [hcs, hc]
  rw [List.all_eq_true] at hmark
  rw [hchars, List.takeWhile_append_of_pos hmark, List.dropWhile_append_of_pos hmark, hdigits.1,
    hdigits.2, List.append_nil, Text.decimal_toDigits]
  exact ⟨rfl, rfl⟩

/-- **The neutral text of a register is read back.** -/
theorem ofText?_text (r : Register) : ofText? r.text = some r := by
  rcases r.text_cases with ⟨rfl, -⟩ | ⟨n, hn, htext⟩ | ⟨n, hn, htext⟩ | ⟨n, hn, htext⟩
  · decide
  all_goals
    obtain ⟨hmark, hnumber⟩ := cut_text htext (by decide)
    simp [ofText?, hmark, hnumber, hn]

/-- Behind the percent sign stands a tag, whose first letter is one of four. -/
theorem exists_tail (r : Register) : ∃ tail : String, r.text = "%" ++ tail ∧
    ∃ c ∈ ['n', 'p', 's', 'v'], tail.toList.head? = some c := by
  rcases r.text_cases with ⟨-, htext⟩ | ⟨n, -, htext⟩ | ⟨n, -, htext⟩ | ⟨n, -, htext⟩
  · exact ⟨"noreg", htext, 'n', by simp, rfl⟩
  · exact ⟨"phys" ++ toString n, by rw [htext, ← String.append_assoc]; rfl, 'p', by simp, by simp⟩
  · exact ⟨"stackslot" ++ toString n, by rw [htext, ← String.append_assoc]; rfl, 's', by simp,
      by simp⟩
  · exact ⟨"vreg" ++ toString n, by rw [htext, ← String.append_assoc]; rfl, 'v', by simp, by simp⟩

end Register

/-! ### Names -/

namespace RegisterFile

variable {rf : RegisterFile} {r : Register} {name : String}

/-- The name of a register is one of the names of the register file. -/
theorem mem_names_of_name? (h : rf.name? r = some name) : name ∈ rf.names := by
  rw [name?] at h
  split at h
  · exact List.mem_of_getElem? h
  · cases h

theorem display_of_name? (h : rf.name? r = some name) : rf.display r = name := by
  rw [display, h, Option.getD_some]

theorem display_of_none (h : rf.name? r = none) : rf.display r = r.text := by
  rw [display, h, Option.getD_none]

theorem named?_eq_none (h : name ∉ rf.names) : rf.named? name = none := by
  have hidx : rf.names.findIdx? (· = name) = none := by
    refine List.findIdx?_eq_none_iff.2 fun s hs ↦ decide_eq_false ?_
    rintro rfl
    exact h hs
  rw [named?, hidx, Option.map_none]

/-- If no two registers share a name, then a register is found under its name. -/
theorem named?_of_name? (hnodup : rf.names.Nodup) (h : rf.name? r = some name) :
    rf.named? name = some r := by
  rw [name?] at h
  split at h
  · rename_i hr
    obtain ⟨hlt, hname⟩ := List.getElem?_eq_some_iff.1 h
    have hidx : rf.names.findIdx? (· = name) = some (r.number - 1) := by
      refine List.findIdx?_eq_some_iff_getElem.2 ⟨hlt, decide_eq_true hname, fun j hj heq ↦ ?_⟩
      have hsame := hnodup.getElem_inj_iff.1 ((of_decide_eq_true heq).trans hname.symm)
      omega
    have hpos := (Register.isPhysical_iff.1 hr).1
    rw [named?, hidx, Option.map_some, Nat.sub_add_cancel hpos, r.ofNumber_number]
  · cases h

/-- **What is displayed for a register is read back**, since no name starts like a neutral text. -/
theorem displayed?_display (hnodup : rf.names.Nodup)
    (hplain : ∀ name ∈ rf.names, name.toList.head? ≠ some '%') (r : Register) :
    rf.displayed? (rf.display r) = some r := by
  cases h : rf.name? r with
  | some name =>
    rw [displayed?, display_of_name? h, named?_of_name? hnodup h]
    rfl
  | none =>
    have hunnamed : r.text ∉ rf.names := by
      obtain ⟨tail, htail, -⟩ := r.exists_tail
      exact fun hmem ↦ hplain _ hmem (by simp [htail])
    have hdisplay := display_of_none h
    simp [displayed?, hdisplay, named?_eq_none hunnamed, r.ofText?_text]

end RegisterFile

/-! ### Percent signs -/

namespace X86

variable {r : Register} {name : String}

theorem withoutPercent_eq_self {s : String} (h : s.toList.head? ≠ some '%') :
    withoutPercent s = s := by
  cases hs : s.toList with
  | nil => rw [withoutPercent, hs, List.dropWhile_nil, ← hs, String.ofList_toList]
  | cons c cs =>
    have hc : ¬ c = '%' := fun heq ↦ h (by rw [hs, heq]; rfl)
    rw [withoutPercent, hs, List.dropWhile_cons_of_neg (by simp [hc]), ← hs, String.ofList_toList]

/-- The name is what is left without the percent sign. -/
theorem withoutPercent_append {s : String} (h : s.toList.head? ≠ some '%') :
    withoutPercent ("%" ++ s) = s := by
  have hdrop : withoutPercent ("%" ++ s) = withoutPercent s := by simp [withoutPercent]
  rw [hdrop, withoutPercent_eq_self h]

/-- The names of the x86 registers start with an `r`, so none starts with a percent sign. -/
theorem head?_of_mem_names (h : name ∈ registerFile.names) : name.toList.head? = some 'r' := by
  have hall : ∀ name ∈ registerFile.names, name.toList.head? = some 'r' := by decide
  exact hall name h

/-- Operands of x86 show a named register with a percent sign. -/
theorem formatRegister_of_name? (h : registerFile.name? r = some name) :
    formatRegister r = "%" ++ name := by
  have hhead := head?_of_mem_names (RegisterFile.mem_names_of_name? h)
  rw [formatRegister, RegisterFile.display_of_name? h, withoutPercent_eq_self (by simp [hhead])]

/-- Behind the percent sign of a neutral text there is neither another one nor a name. -/
theorem exists_unnamed_tail (r : Register) : ∃ tail : String, r.text = "%" ++ tail ∧
    tail.toList.head? ≠ some '%' ∧ tail ∉ registerFile.names := by
  obtain ⟨tail, htail, c, hc, hhead⟩ := r.exists_tail
  have hother (d : Char) (hd : d ∉ ['n', 'p', 's', 'v']) : tail.toList.head? ≠ some d := by
    rw [hhead]
    rintro ⟨⟩
    exact hd hc
  exact ⟨tail, htail, hother '%' (by decide), fun hmem ↦
    hother 'r' (by decide) (head?_of_mem_names hmem)⟩

/-- Virtual registers and stack slots have no percent sign. -/
theorem formatRegister_of_none (h : registerFile.name? r = none) : formatRegister r = r.text := by
  obtain ⟨tail, htail, hplain, -⟩ := exists_unnamed_tail r
  rw [formatRegister, RegisterFile.display_of_none h, htail, withoutPercent_append hplain]

/-- **A register with its percent sign is read back**: it is looked up by name, and only then taken
for a neutral text. -/
theorem read_formatRegister (r : Register) :
    ((register? (formatRegister r)).orElse fun _ ↦ Register.ofText? (formatRegister r)) =
      some r := by
  cases h : registerFile.name? r with
  | some name =>
    have hhead := head?_of_mem_names (RegisterFile.mem_names_of_name? h)
    have hnamed : register? ("%" ++ name) = some r := by
      rw [register?, withoutPercent_append (by simp [hhead])]
      exact RegisterFile.named?_of_name? (by decide) h
    rw [formatRegister_of_name? h, hnamed]
    rfl
  -- this text starts with a percent sign as well, so what follows it must not be a name
  | none =>
    obtain ⟨tail, htail, hplain, hmem⟩ := exists_unnamed_tail r
    have hunnamed : register? r.text = none := by
      rw [register?, htail, withoutPercent_append hplain]
      exact RegisterFile.named?_eq_none hmem
    rw [formatRegister_of_none h, hunnamed, r.ofText?_text]
    rfl

end X86

namespace TargetKind

open Register

/-- The register that is written as the given operand on a machine. -/
def operandRegister? : TargetKind → String → Option Register
  | x86, text => (X86.register? text).orElse fun _ ↦ Register.ofText? text
  | riscV, text => RiscV.registerFile.displayed? text

/-- On both machines the register can be read off its display. -/
theorem displayed?_display (k : TargetKind) (r : Register) :
    k.target.displayed? (k.target.display r) = some r := by
  cases k with
  | x86 => exact RegisterFile.displayed?_display (by decide) (by decide) r
  | riscV => exact RegisterFile.displayed?_display (by decide) (by decide) r

/-- On both machines the register can be read off the operand that names it. -/
theorem operandRegister?_formatOperand (k : TargetKind) (r : Register) :
    k.operandRegister? (k.target.formatOperand (.reg r)) = some r := by
  cases k with
  | x86 => exact X86.read_formatRegister r
  | riscV => exact riscV.displayed?_display r

/-- **Texts identify registers.** Every register can be read off its neutral text, off what either
machine displays for it, and off the operand that it is on either machine; so no two registers have
the same text. -/
theorem registers_identified :
    (∀ r, ofText? (text r) = some r) ∧ Function.Injective text ∧
    ∀ k : TargetKind,
      ((∀ r, k.target.displayed? (k.target.display r) = some r) ∧
        Function.Injective k.target.display) ∧
      (∀ r, k.operandRegister? (k.target.formatOperand (.reg r)) = some r) ∧
        Function.Injective fun r ↦ k.target.formatOperand (.reg r) := by
  refine ⟨ofText?_text, injective_of_read ofText?_text, fun k ↦ ?_⟩
  exact ⟨⟨k.displayed?_display, injective_of_read k.displayed?_display⟩,
    k.operandRegister?_formatOperand, injective_of_read k.operandRegister?_formatOperand⟩

end TargetKind

end MachineCode

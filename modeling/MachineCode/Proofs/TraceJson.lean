import MachineCode.Proofs.JsonText
import MachineCode.Trace

/-!
# Traces as documents

Every trace is written as one JSON value, and read back from it (`Trace.inverse_json`). The law is
the same for each kind of part: what is written is read (`Json.Inverse`). It passes from the parts
to lists and to optional parts, so the proof follows the format from the registers up. Registers
and operands share tags, and are told apart by where they stand.

A trace has no numbers but integers, so its value is also read back from the text of the document
(`Json.IsPlain.parse?_render`).
-/

namespace MachineCode

namespace Json

variable {α : Type}

/-- What `write` writes, `read` reads back. -/
def Inverse (read : Json → Option α) (write : α → Json) : Prop := ∀ a, read (write a) = some a

@[simp] theorem toUInt32?_int (n : UInt32) : toUInt32? (int n.toNat) = some n := by
  have hlt := n.toNat_lt
  rw [toUInt32?, if_pos (by omega), Int.toNat_natCast, UInt32.ofNat_toNat]

@[simp] theorem toInt64?_int (n : Int64) : toInt64? (int n.toInt) = some n := by
  have hle := n.le_toInt
  have hlt := n.toInt_lt
  rw [toInt64?, if_pos (by omega), Int64.ofInt_toInt]

@[simp] theorem toText?_str (s : String) : toText? (str s) = some s := rfl

/-- What reads back member by member reads back as a list. -/
theorem Inverse.list {read : Json → Option α} {write : α → Json} (h : Inverse read write) :
    Inverse (toList? read) fun l ↦ arr (l.map write) := by
  intro l
  show (l.map write).mapM read = some l
  induction l with
  | nil => rfl
  | cons a l ih =>
    rw [List.map_cons, List.mapM_cons, h a, ih]
    rfl

/-- A value that is never written as null may be left out. -/
theorem Inverse.option {read : Json → Option α} {write : α → Json} (h : Inverse read write)
    (hnull : ∀ a, write a ≠ null) : Inverse (toOption? read) fun o ↦ o.elim null write := by
  intro o
  cases o with
  | none => rfl
  | some a =>
    show toOption? read (write a) = some (some a)
    rw [toOption?, h a]
    · rfl
    · exact hnull a

end Json

open Json

/-- A machine is written by the name that it is read by. -/
theorem TargetKind.inverse_json : Inverse ofJson? fun k ↦ str k.name := by
  intro k
  cases k <;> rfl

/-- A register is an object with one key: the index of a virtual register, or another one's name. -/
theorem TraceRegister.inverse_json : Inverse ofJson? toJson := by
  intro r
  cases r with
  | named name => rfl
  | virtual index =>
    have htag : ∀ v, ofJson? (obj [("vreg", v)]) = virtual <$> toUInt32? v := fun _ ↦ rfl
    rw [toJson, htag, toUInt32?_int]
    rfl

/-- An absent register is written as `null`. -/
theorem TraceRegister.inverse_option :
    Inverse (toOption? ofJson?) fun o ↦ o.elim null toJson := by
  refine inverse_json.option fun r ↦ ?_
  cases r <;> exact nofun

/-- All fields of an address are written, also those that may be left out. -/
theorem TraceAddress.inverse_json : Inverse ofJson? toJson := by
  intro a
  have hfields : ∀ d b i s,
      ofJson? (obj [("disp", d), ("base", b), ("index", i), ("scale", s)]) = do
        let disp ← toInt64? d
        let base ← toOption? TraceRegister.ofJson? b
        let index ← toOption? TraceRegister.ofJson? i
        let scale ← toUInt32? s
        return { disp, base, index, scale } := fun _ _ _ _ ↦ rfl
  rw [toJson, hfields, toInt64?_int, TraceRegister.inverse_option a.base,
    TraceRegister.inverse_option a.index, toUInt32?_int]
  rfl

/-- An operand is an object with one key, which says what sort of operand it is. -/
theorem TraceOperand.inverse_json : Inverse ofJson? toJson := by
  intro x
  cases x with
  | reg r =>
    cases r with
    | named name => rfl
    | virtual index =>
      have htag : ∀ v, ofJson? (obj [("vreg", v)]) = (reg <| .virtual ·) <$> toUInt32? v :=
        fun _ ↦ rfl
      rw [toJson, TraceRegister.toJson, htag, toUInt32?_int]
      rfl
  | imm value =>
    have htag : ∀ v, ofJson? (obj [("imm", v)]) = imm <$> toInt64? v := fun _ ↦ rfl
    rw [toJson, htag, toInt64?_int]
    rfl
  | label name => rfl
  | mem a =>
    have htag : ∀ v, ofJson? (obj [("mem", v)]) = mem <$> TraceAddress.ofJson? v := fun _ ↦ rfl
    rw [toJson, htag, TraceAddress.inverse_json a]
    rfl

/-- A call boundary is written as a string, an instruction as an object with one key. -/
theorem TraceStep.inverse_json : Inverse ofJson? toJson := by
  intro x
  cases x with
  | callBoundary => rfl
  | emit opcode operands =>
    have hfields : ∀ o os, ofJson? (obj [("emit", obj [("opcode", o), ("operands", os)])]) = do
        let opcode ← toText? o
        let operands ← toList? TraceOperand.ofJson? os
        return emit opcode operands := fun _ _ ↦ rfl
    rw [toJson, hfields, toText?_str, TraceOperand.inverse_json.list operands]
    rfl

/-- All fields of a function are written, also those with a default. -/
theorem TraceFunction.inverse_json : Inverse ofJson? toJson := by
  intro f
  have hfields : ∀ n b os, ofJson? (obj [("name", n), ("local_frame_bytes", b), ("ops", os)]) = do
      let name ← toText? n
      let localBytes ← toUInt32? b
      let steps ← toList? TraceStep.ofJson? os
      return { name, localBytes, steps } := fun _ _ _ ↦ rfl
  rw [toJson, hfields, toText?_str, toUInt32?_int, TraceStep.inverse_json.list f.steps]
  rfl

/-- **Every trace is read back from the value that it is written as.** -/
theorem Trace.inverse_json : Inverse ofJson? toJson := by
  intro t
  have hfields : ∀ k fs, ofJson? (obj [("target", k), ("functions", fs)]) = do
      let target ← toOption? TargetKind.ofJson? k
      let functions ← toList? TraceFunction.ofJson? fs
      return { target, functions } := fun _ _ ↦ rfl
  rw [toJson, hfields, TargetKind.inverse_json.option (fun _ ↦ nofun) t.target,
    TraceFunction.inverse_json.list t.functions]
  rfl

/-! ### Documents -/

namespace Json

variable {α : Type} {write : α → Json}

/-- A list of plain values is plain. -/
theorem isPlain_list (h : ∀ a, IsPlain (write a)) (l : List α) : IsPlain (arr (l.map write)) := by
  refine .arr fun v hv ↦ ?_
  obtain ⟨a, -, rfl⟩ := List.mem_map.1 hv
  exact h a

theorem isPlain_option (h : ∀ a, IsPlain (write a)) (o : Option α) :
    IsPlain (o.elim null write) := by
  cases o with
  | none => exact .null
  | some a => exact h a

end Json

/-- What a register is written as has no numbers but integers, and no part that denotes nothing. -/
theorem TraceRegister.isPlain_json (r : TraceRegister) : IsPlain r.toJson := by
  cases r <;> exact .obj (by simp [IsPlain.str, IsPlain.int])

theorem TraceAddress.isPlain_json (a : TraceAddress) : IsPlain a.toJson := by
  have hbase := isPlain_option TraceRegister.isPlain_json a.base
  have hindex := isPlain_option TraceRegister.isPlain_json a.index
  exact .obj (by simp [IsPlain.int, hbase, hindex])

theorem TraceOperand.isPlain_json (x : TraceOperand) : IsPlain x.toJson := by
  cases x with
  | reg r => exact r.isPlain_json
  | imm value => exact .obj (by simp [IsPlain.int])
  | label name => exact .obj (by simp [IsPlain.str])
  | mem a => exact .obj (by simp [a.isPlain_json])

theorem TraceStep.isPlain_json (x : TraceStep) : IsPlain x.toJson := by
  cases x with
  | callBoundary => exact .str _
  | emit opcode operands =>
    have hoperands := isPlain_list TraceOperand.isPlain_json operands
    have hfields : IsPlain (obj [("opcode", str opcode),
        ("operands", arr (operands.map (·.toJson)))]) := .obj (by simp [IsPlain.str, hoperands])
    exact .obj (by simp [hfields])

/-- The value of a function is plain, since all its parts are. -/
theorem TraceFunction.isPlain_json (f : TraceFunction) : IsPlain f.toJson := by
  have hsteps := isPlain_list TraceStep.isPlain_json f.steps
  exact .obj (by simp [IsPlain.str, IsPlain.int, hsteps])

theorem Trace.isPlain_json (t : Trace) : IsPlain t.toJson := by
  have htarget := isPlain_option (fun k : TargetKind ↦ IsPlain.str k.name) t.target
  have hfunctions := isPlain_list TraceFunction.isPlain_json t.functions
  exact .obj (by simp [htarget, hfunctions])

/-- The trace that a document describes. -/
def Trace.ofText? (text : String) : Option Trace := (Json.parse? text).bind ofJson?

/-- The document that a trace is written as. -/
def Trace.text (t : Trace) : String := t.toJson.render

/-- **A trace is read back as it was written**, from the value and from the document. So for every
document that is accepted, in any spelling of the format, writing its trace and reading that again
gives the same trace; and so it is with values. -/
theorem Trace.document_roundTrip :
    (∀ t : Trace, ofJson? t.toJson = some t ∧ ofText? t.text = some t) ∧
    (∀ j, (ofJson? j).bind (fun t ↦ ofJson? t.toJson) = ofJson? j) ∧
    ∀ text, (ofText? text).bind (fun t ↦ ofText? t.text) = ofText? text := by
  have htext (t : Trace) : ofText? t.text = some t := by
    rw [ofText?, text, t.isPlain_json.parse?_render]
    exact inverse_json t
  refine ⟨fun t ↦ ⟨inverse_json t, htext t⟩, fun j ↦ ?_, fun text ↦ ?_⟩
  · simp only [inverse_json _, Option.bind_fun_some]
  · simp only [htext, Option.bind_fun_some]

-- a record may also be an array of its fields, but it is not written as one
example : (Trace.ofText? "[\"riscv64\", []]").map (·.text) =
    some "\x7b\"target\":\"riscv64\",\"functions\":[]\x7d" := by
  cbv

end MachineCode

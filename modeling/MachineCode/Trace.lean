import MachineCode.Json.Decode
import MachineCode.Target

/-!
# Traces

A trace records what an instruction selector did: for each function, which instructions it
appended and where it announced calls. Virtual registers are numbered within a function, machine
registers and opcodes are given by name. Numbers have the width that the format allows.

Every trace is written as one JSON value (`Trace.toJson`), and `Trace.ofJson?` reads it back.
Reading also takes the other spellings of the format: records as arrays, fields left out for their
default, null for no value.
-/

namespace MachineCode

/-- A register in a trace. -/
inductive TraceRegister where
  /-- A machine register, by name. -/
  | named (name : String)
  /-- A virtual register, by its number in the function. -/
  | virtual (index : UInt32)
  deriving DecidableEq

/-- A memory address in a trace. -/
structure TraceAddress where
  disp : Int64 := 0
  base : Option TraceRegister := none
  index : Option TraceRegister := none
  scale : UInt32 := 1
  deriving DecidableEq

/-- An operand in a trace. -/
inductive TraceOperand where
  | reg (r : TraceRegister)
  | imm (value : Int64)
  | label (name : String)
  | mem (a : TraceAddress)
  deriving DecidableEq

/-- A step of an instruction selector. -/
inductive TraceStep where
  | emit (opcode : String) (operands : List TraceOperand)
  | callBoundary
  deriving DecidableEq

/-- What an instruction selector did for one function. -/
structure TraceFunction where
  name : String
  localBytes : UInt32 := 0
  steps : List TraceStep
  deriving DecidableEq

/-- What an instruction selector did, and the machine that it did it for, if that is known. -/
structure Trace where
  target : Option TargetKind := none
  functions : List TraceFunction
  deriving DecidableEq

open Json

/-! ### Writing -/

/-- A register as a JSON value. -/
def TraceRegister.toJson : TraceRegister → Json
  | named name => obj [("reg", str name)]
  | virtual index => obj [("vreg", int index.toNat)]

/-- An address as a JSON value. -/
def TraceAddress.toJson (a : TraceAddress) : Json :=
  obj [("disp", int a.disp.toInt), ("base", a.base.elim null TraceRegister.toJson),
    ("index", a.index.elim null TraceRegister.toJson), ("scale", int a.scale.toNat)]

/-- An operand as a JSON value. -/
def TraceOperand.toJson : TraceOperand → Json
  | reg r => r.toJson
  | imm value => obj [("imm", int value.toInt)]
  | label name => obj [("label", str name)]
  | mem a => obj [("mem", a.toJson)]

/-- A step as a JSON value. -/
def TraceStep.toJson : TraceStep → Json
  | emit opcode operands =>
    obj [("emit", obj [("opcode", str opcode), ("operands", arr (operands.map (·.toJson)))])]
  | callBoundary => str "call_boundary"

/-- A function as a JSON value. -/
def TraceFunction.toJson (f : TraceFunction) : Json :=
  obj [("name", str f.name), ("local_frame_bytes", int f.localBytes.toNat),
    ("ops", arr (f.steps.map (·.toJson)))]

/-- A trace as a JSON value. -/
def Trace.toJson (t : Trace) : Json :=
  obj [("target", t.target.elim null fun k ↦ str k.name),
    ("functions", arr (t.functions.map (·.toJson)))]

/-! ### Reading -/

/-- The machine of a JSON value. -/
def TargetKind.ofJson? (j : Json) : Option TargetKind := do
  let (name, payload) ← variant? j
  if isUnit payload then ofName? name else none

/-- The register of a JSON value. -/
def TraceRegister.ofJson? (j : Json) : Option TraceRegister := do
  match ← variant? j with
  | ("reg", some v) => named <$> toText? v
  | ("vreg", some v) => virtual <$> toUInt32? v
  | _ => none

/-- The address of a JSON value. -/
def TraceAddress.ofJson? (j : Json) : Option TraceAddress := do
  match ← record? ["disp", "base", "index", "scale"] j with
  | [disp, base, index, scale] =>
    let disp ← orDefault 0 toInt64? disp
    let base ← orDefault none (toOption? TraceRegister.ofJson?) base
    let index ← orDefault none (toOption? TraceRegister.ofJson?) index
    let scale ← orDefault 1 toUInt32? scale
    return { disp, base, index, scale }
  | _ => none

/-- The operand of a JSON value. -/
def TraceOperand.ofJson? (j : Json) : Option TraceOperand := do
  match ← variant? j with
  | ("reg", some v) => (reg <| .named ·) <$> toText? v
  | ("vreg", some v) => (reg <| .virtual ·) <$> toUInt32? v
  | ("imm", some v) => imm <$> toInt64? v
  | ("label", some v) => label <$> toText? v
  | ("mem", some v) => mem <$> TraceAddress.ofJson? v
  | _ => none

/-- The step of a JSON value. -/
def TraceStep.ofJson? (j : Json) : Option TraceStep := do
  match ← variant? j with
  | ("emit", some v) =>
    match ← record? ["opcode", "operands"] v with
    | [opcode, operands] =>
      let opcode ← required toText? opcode
      let operands ← orDefault [] (toList? TraceOperand.ofJson?) operands
      return emit opcode operands
    | _ => none
  | ("call_boundary", payload) => if isUnit payload then some callBoundary else none
  | _ => none

/-- The function of a JSON value. -/
def TraceFunction.ofJson? (j : Json) : Option TraceFunction := do
  match ← record? ["name", "local_frame_bytes", "ops"] j with
  | [name, localBytes, steps] =>
    let name ← required toText? name
    let localBytes ← orDefault 0 toUInt32? localBytes
    let steps ← required (toList? TraceStep.ofJson?) steps
    return { name, localBytes, steps }
  | _ => none

/-- The trace of a JSON value. -/
def Trace.ofJson? (j : Json) : Option Trace := do
  match ← record? ["target", "functions"] j with
  | [target, functions] =>
    let target ← orDefault none (toOption? TargetKind.ofJson?) target
    let functions ← required (toList? TraceFunction.ofJson?) functions
    return { target, functions }
  | _ => none

end MachineCode

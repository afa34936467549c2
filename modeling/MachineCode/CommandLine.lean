import MachineCode.CommandLine.Arguments
import MachineCode.CommandLine.Files
import MachineCode.Json.Reader
import MachineCode.Target.RiscV
import MachineCode.Terminal
import MachineCode.Trace.Replay

/-!
# The command line program

`CommandLine.run` is the whole program as a function of its arguments, over any file access: it
reads the arguments, does what they ask for, and says how it ended (`Outcome`).
-/

namespace MachineCode.CommandLine

/-- Why a command did not do its job. -/
inductive CommandError where
  | file (e : FileError)
  /-- A document is not of the form that it should have. -/
  | document
  | compile (e : CompileError)
  deriving DecidableEq

/-- The text of a command error. -/
def CommandError.message : CommandError → String
  | file e => e.message
  | document => "json"
  | compile e => e.message

/-- How the program ends. -/
inductive Ending where
  /-- With something to print. -/
  | done (text : String)
  | usage (e : UsageError)
  | error (e : CommandError)
  | fault (f : Fault)
  deriving DecidableEq

/-- The exit code of an ending. -/
def Ending.exitCode : Ending → Nat
  | done _ => 0
  | error _ => 1
  | usage _ => 2
  | fault _ => 101

/-- What is said about an ending on the stream for messages. -/
def Ending.report : Ending → String
  | done _ => ""
  | usage e => "error: " ++ e.message ++ "\n"
  | error e => "Error: " ++ e.message ++ "\n"
  | fault f => "\n" ++ f.message ++ "\n"

/-- How the program ended, and the entries of its log that were asked for. -/
structure Outcome where
  ending : Ending
  log : List Entry

/-! ### Texts -/

/-- The answer to a request for the version. -/
def versionText : String := "mcb 0.1.0\n"

/-- The answer to a request for help. -/
def helpText : Topic → String
  | .program => Text.lines [
      "Machine code backend: register allocation and rewriting", "",
      "Usage: mcb [OPTIONS] <COMMAND>", "",
      "Commands:",
      "  compile    Compile a JSON selector trace to assembly",
      "  registers  Print a target's register table",
      "  help       Print this message or the help of the given subcommand(s)", "",
      "Options:",
      "  -v, --verbose...  Verbose logging (-v debug, -vv trace)",
      "  -h, --help        Print help",
      "  -V, --version     Print version"]
  | .compile => Text.lines [
      "Compile a JSON selector trace to assembly", "",
      "Usage: mcb compile [OPTIONS] <INPUT>", "",
      "Arguments:",
      "  <INPUT>  Input trace file", "",
      "Options:",
      "  -t, --target <TARGET>  Target architecture (x86_64 or riscv64); overrides the trace",
      "  -o, --output <OUTPUT>  Output assembly file (defaults to stdout)",
      "      --config <CONFIG>  Backend configuration file (JSON)",
      "      --dump-alloc       Log every function's register allocation",
      "  -v, --verbose...       Verbose logging (-v debug, -vv trace)",
      "  -h, --help             Print help"]
  | .registers => Text.lines [
      "Print a target's register table", "",
      "Usage: mcb registers [OPTIONS]", "",
      "Options:",
      "  -t, --target <TARGET>  Target architecture (x86_64 or riscv64) [default: x86_64]",
      "  -v, --verbose...       Verbose logging (-v debug, -vv trace)",
      "  -h, --help             Print help"]
  | .help => Text.lines [
      "Print this message or the help of the given subcommand(s)", "",
      "Usage: mcb help [COMMAND]...", "",
      "Arguments:",
      "  [COMMAND]...  Print help for the subcommand(s)"]

/-- A row of the register table. -/
def tableRow (name id savedBy argument allocatable : String) : String :=
  Text.padRight 6 name ++ " " ++ Text.padLeft 3 id ++ "  " ++ Text.padRight 12 savedBy ++ " " ++
    Text.padRight 4 argument ++ " " ++ allocatable

/-- The table of the registers of a machine. -/
def registerTable (rf : RegisterFile) : String :=
  let mark (b : Bool) := if b then "yes" else ""
  Text.lines (tableRow "name" "id" "saved by" "arg" "allocatable" ::
    rf.named.map fun (r, name) ↦
      tableRow name (toString r.number) (if rf.isCalleeSaved r then "callee" else "caller")
        (mark (rf.isArgument r)) (mark (rf.allocatable.contains r)))

/-! ### The log -/

/-- The levels that a setting of the log names, whatever the case of the letters. -/
def levelOf? (setting : String) : Option Level :=
  Level.all.find? fun l ↦ l.label = setting.map Char.toUpper

/-- The least severe level to be shown: by the count of requests, or else by the setting. -/
def logLimit? (verbosity : Nat) (setting : Option String) : Option Level :=
  match verbosity with
  | 0 => setting.elim (some .error) levelOf?
  | 1 => some .debug
  | _ => some .trace

/-- What stands before a message of a level. -/
def recordHead (level : Level) : String := "[" ++ level.label ++ "] "

/-- An entry as it is written: the further lines of its message are indented, and nothing in it
steers a terminal. A control sequence that is left open takes the end of the line with it. -/
def record (e : Entry) : String :=
  recordHead e.level ++ Terminal.visible (Text.indentRest 4 e.message ++ "\n")

/-- What the program prints. -/
def Outcome.output (o : Outcome) : String :=
  match o.ending with
  | .done text => text
  | _ => ""

/-- What the program writes to the stream for messages: its log, and how it ended. -/
def Outcome.messages (o : Outcome) : String :=
  String.join (o.log.map record) ++ o.ending.report

/-! ### Commands -/

section

variable {m : Type → Type} [Monad m] (files : FileAccess m)

/-- The value of a document in a file. -/
def readDocument {α : Type} (decode : Json → Option α) (path : String) :
    ExceptT CommandError m α := do
  match ← files.read path with
  | .error e => throw (.file e)
  | .ok text =>
    match (Json.parse? text).bind decode with
    | none => throw .document
    | some a => return a

/-- The configuration for compiling. -/
def readConfig (o : CompileOptions) : ExceptT CommandError m Config := do
  let config ← match o.config with
    | none => pure {}
    | some path => readDocument files Config.ofJson? path
  return { config with traceAllocation := config.traceAllocation || o.dumpAllocation }

/-- Put the assembly text where it was asked for. -/
def deliver (o : CompileOptions) (log : List Entry) (text : String) : m (List Entry × Ending) := do
  match o.output with
  | none => return (log, .done text)
  | some path =>
    match ← files.write path text with
    | .error e => return (log, .error (.file e))
    | .ok _ => return (log ++ [⟨.info, "Assembly written to: " ++ path⟩], .done "")

/-- Compile a trace file. -/
def compile (o : CompileOptions) : m (List Entry × Ending) := do
  let documents : ExceptT CommandError m (Trace × Config) := do
    let trace ← readDocument files Trace.ofJson? o.input
    let config ← readConfig files o
    return (trace, config)
  match ← documents.run with
  | .error e => return ([], .error e)
  | .ok (trace, config) =>
    let kind := (o.target.orElse fun _ ↦ trace.target).getD .x86
    let opening : Entry := ⟨.info, "Compiling " ++ o.input ++ " for " ++ kind.name⟩
    let compiled := Session.compileTrace { target := kind.target, config } trace
    let log := opening :: compiled.log
    match compiled.result with
    | .error (.error e) => return (log, .error (.compile e))
    | .error (.fault f) => return (log, .fault f)
    | .ok text => deliver files o log text

/-- Do what a command asks for. -/
def perform : Command → m (List Entry × Ending)
  | .compile o => compile files o
  | .registers kind => return ([], .done (registerTable kind.target.toRegisterFile))

/-- The program, with its arguments and the setting of the log. -/
def run (args : List String) (logSetting : Option String) : m Outcome := do
  match readProgram 0 args with
  | .error (.usage e) => return ⟨.usage e, []⟩
  | .error (.help topic) => return ⟨.done (helpText topic), []⟩
  | .error .version => return ⟨.done versionText, []⟩
  | .ok invocation =>
    let (log, ending) ← perform files invocation.command
    return ⟨ending, (logLimit? invocation.verbosity logSetting).elim [] (Entry.upTo · log)⟩

end

end MachineCode.CommandLine

import MachineCode.Target

/-!
# Command line arguments

The arguments of the program are read from left to right. An argument is a *long option*
`--name` or `--name=value`, a bundle of *short options* `-abc`, or a plain argument; behind `--`
every argument is plain. A short option that takes a value takes it from the rest of its bundle,
less an equals sign before it, or from the next argument.

The first thing that decides the outcome ends the reading: a request for help or for the version,
or a mistake of the user. Values are checked when they are read.
-/

namespace MachineCode.CommandLine

/-- A mistake in the arguments. -/
inductive UsageError where
  | unknownOption (argument : String)
  | unexpectedValue (option : String)
  | missingValue (option : String)
  | invalidValue (option value : String)
  | repeatedOption (option : String)
  | unexpectedArgument (argument : String)
  | missingArgument (name : String)
  | missingCommand
  | unknownCommand (name : String)
  deriving DecidableEq

/-- What the user is told about a mistake. -/
def UsageError.message : UsageError → String
  | unknownOption a => "unexpected argument '" ++ a ++ "' found"
  | unexpectedValue o => "unexpected value for '--" ++ o ++ "' found; no more were expected"
  | missingValue o => "a value is required for '--" ++ o ++ "' but none was supplied"
  | invalidValue o v => "invalid value '" ++ v ++ "' for '" ++ o ++ "'"
  | repeatedOption o => "the argument '--" ++ o ++ "' cannot be used multiple times"
  | unexpectedArgument a => "unexpected argument '" ++ a ++ "' found"
  | missingArgument n => "the following required arguments were not provided: <" ++ n ++ ">"
  | missingCommand => "a subcommand is required but one was not provided"
  | unknownCommand n => "unrecognized subcommand '" ++ n ++ "'"

/-- What help is asked about. -/
inductive Topic where
  | program
  | compile
  | registers
  | help
  deriving DecidableEq

/-- The topic of a command of the program. The commands have no commands of their own. -/
def Topic.command? : Topic → String → Option Topic
  | .program, "compile" => some .compile
  | .program, "registers" => some .registers
  | .program, "help" => some .help
  | _, _ => none

/-- Why reading stops early. -/
inductive Stop where
  | usage (e : UsageError)
  | help (topic : Topic)
  | version
  deriving DecidableEq

/-! ### The form of arguments -/

/-- An option that a command takes. -/
structure OptionSpec where
  name : String
  short : Option Char := none
  takesValue : Bool := false

/-- A part of an argument. -/
inductive Item where
  /-- An option without a value. -/
  | flag (name : String)
  /-- An option with its value. -/
  | value (name text : String)
  /-- An option whose value has to be the next argument. -/
  | wants (name : String)
  /-- A plain argument. -/
  | plain (text : String)
  | bad (e : UsageError)

/-- The parts of a bundle of short options. Reading it stops at an option that takes a value, and
at a mistake. -/
def readShort (specs : List OptionSpec) : List Char → List Item
  | [] => []
  | c :: rest =>
    match specs.find? (·.short = some c) with
    | none => [.bad (.unknownOption ("-" ++ String.singleton c))]
    | some o =>
      if o.takesValue then
        match rest with
        | [] => [.wants o.name]
        | '=' :: value => [.value o.name (String.ofList value)]
        | value => [.value o.name (String.ofList value)]
      else
        .flag o.name :: readShort specs rest

/-- The part that a long option is: its name, and its value if there is an equals sign. -/
def readLong (specs : List OptionSpec) (cs : List Char) : Item :=
  let name := String.ofList (cs.takeWhile (· ≠ '='))
  let value := (cs.dropWhile (· ≠ '=')).tail?.map String.ofList
  match specs.find? (·.name = name), value with
  | none, _ => .bad (.unknownOption ("--" ++ name))
  | some o, some v => if o.takesValue then .value name v else .bad (.unexpectedValue name)
  | some o, none => if o.takesValue then .wants name else .flag name

/-- What an argument looks like. -/
inductive Shape where
  /-- The sign that only plain arguments follow. -/
  | divider
  | options (items : List Item)
  | plain

/-- The shape of an argument. -/
def shape (specs : List OptionSpec) (argument : String) : Shape :=
  match argument.toList with
  | ['-', '-'] => .divider
  | '-' :: '-' :: cs => .options [readLong specs cs]
  | ['-'] => .plain
  | '-' :: cs => .options (readShort specs cs)
  | _ => .plain

/-- The option among some parts that still wants its value. -/
def pending? (items : List Item) : Option String :=
  match items.getLast? with
  | some (.wants name) => some name
  | _ => none

/-- Read the arguments of a command part by part. `pending` is the option whose value comes
next. -/
def readAll {σ : Type} (specs : List OptionSpec) (accept : σ → Item → Except Stop σ)
    (pending : Option String) (s : σ) : List String → Except Stop σ
  | [] =>
    match pending with
    | some o => .error (.usage (.missingValue o))
    | none => .ok s
  | a :: rest =>
    match pending, shape specs a with
    | some o, .plain => do readAll specs accept none (← accept s (.value o a)) rest
    | some o, _ => .error (.usage (.missingValue o))
    | none, .plain => do readAll specs accept none (← accept s (.plain a)) rest
    | none, .divider => rest.foldlM (fun s a ↦ accept s (.plain a)) s
    | none, .options items => do
      readAll specs accept (pending? items) (← items.foldlM accept s) rest

/-! ### The commands -/

/-- What to compile, and how. -/
structure CompileOptions where
  input : String
  target : Option TargetKind := none
  output : Option String := none
  config : Option String := none
  dumpAllocation : Bool := false
  deriving DecidableEq

/-- What the program is asked to do. -/
inductive Command where
  /-- Compile a trace. -/
  | compile (o : CompileOptions)
  /-- Print the registers of a machine. -/
  | registers (kind : TargetKind)
  deriving DecidableEq

/-- A command, and how talkative it should be. -/
structure Invocation where
  verbosity : Nat
  command : Command
  deriving DecidableEq

/-- The option for more messages, which every command takes. -/
def verboseSpec : OptionSpec := ⟨"verbose", some 'v', false⟩

/-- The option for help, which every command takes. -/
def helpSpec : OptionSpec := ⟨"help", some 'h', false⟩

/-- The option that names a machine. -/
def targetSpec : OptionSpec := ⟨"target", some 't', true⟩

/-- The options before the command. -/
def programSpecs : List OptionSpec := [verboseSpec, helpSpec, ⟨"version", some 'V', false⟩]

/-- The options for compiling. -/
def compileSpecs : List OptionSpec :=
  [verboseSpec, helpSpec, targetSpec, ⟨"output", some 'o', true⟩, ⟨"config", none, true⟩,
    ⟨"dump-alloc", none, false⟩]

/-- The options for printing registers. -/
def registersSpecs : List OptionSpec := [verboseSpec, helpSpec, targetSpec]

/-- Fill a place that may be filled once. -/
def once {α : Type} (name : String) (old : Option α) (new : Except UsageError α) :
    Except Stop (Option α) :=
  match new, old with
  | .error e, _ => .error (.usage e)
  | .ok _, some _ => .error (.usage (.repeatedOption name))
  | .ok a, none => .ok (some a)

/-- The machine that a user names. -/
def readTarget (text : String) : Except UsageError TargetKind :=
  (TargetKind.ofUserText? text).elim (.error (.invalidValue "target" text)) .ok

/-- A path, which is not empty. -/
def readPath (name text : String) : Except UsageError String :=
  if text.isEmpty then .error (.invalidValue name text) else .ok text

/-- The arguments of a command as far as they are read. -/
structure Pending where
  verbosity : Nat := 0
  input : Option String := none
  target : Option TargetKind := none
  output : Option String := none
  config : Option String := none
  dump : Option Unit := none

/-- Take in a part of the arguments of the command `topic`. -/
def Pending.accept (topic : Topic) (p : Pending) : Item → Except Stop Pending
  | .flag "verbose" => .ok { p with verbosity := p.verbosity + 1 }
  | .flag "dump-alloc" => do return { p with dump := ← once "dump-alloc" p.dump (.ok ()) }
  | .flag "help" => .error (.help topic)
  | .flag name => .error (.usage (.unknownOption name))
  | .value "target" text => do
    return { p with target := ← once "target" p.target (readTarget text) }
  | .value "output" text => do
    return { p with output := ← once "output" p.output (readPath "output" text) }
  | .value "config" text => do
    return { p with config := ← once "config" p.config (readPath "config" text) }
  | .value name _ => .error (.usage (.unknownOption name))
  | .wants _ => .ok p
  | .bad e => .error (.usage e)
  | .plain text =>
    if topic = .compile ∧ p.input.isNone then do
      return { p with input := ← once "INPUT" p.input (readPath "INPUT" text) }
    else
      .error (.usage (.unexpectedArgument text))

/-- The count of the command counts, if there is one; else the count before the command. -/
def Pending.verbosityOver (p : Pending) (before : Nat) : Nat :=
  if p.verbosity = 0 then before else p.verbosity

/-- Read the arguments for compiling. -/
def readCompile (verbosity : Nat) (args : List String) : Except Stop Invocation := do
  let p ← readAll compileSpecs (Pending.accept .compile) none {} args
  match p.input with
  | none => .error (.usage (.missingArgument "INPUT"))
  | some input =>
    return {
      verbosity := p.verbosityOver verbosity
      command := .compile {
        input, target := p.target, output := p.output, config := p.config
        dumpAllocation := p.dump.isSome } }

/-- Read the arguments for printing registers. -/
def readRegisters (verbosity : Nat) (args : List String) : Except Stop Invocation := do
  let p ← readAll registersSpecs (Pending.accept .registers) none {} args
  return {
    verbosity := p.verbosityOver verbosity
    command := .registers (p.target.getD .x86) }

/-- Answer a request for help on the command that some names lead to, one below the other. The
names are taken as they are, also those that look like options. -/
def readTopic (topic : Topic) : List String → Stop
  | [] => .help topic
  | name :: rest =>
    match topic.command? name with
    | some t => readTopic t rest
    | none => .usage (.unknownCommand name)

/-- Read the command and its arguments. -/
def readCommand (verbosity : Nat) (name : String) (args : List String) : Except Stop Invocation :=
  match name with
  | "compile" => readCompile verbosity args
  | "registers" => readRegisters verbosity args
  | "help" => .error (readTopic .program args)
  | _ => .error (.usage (.unknownCommand name))

/-- Take in a part of the arguments before the command. -/
def acceptProgram (verbosity : Nat) : Item → Except Stop Nat
  | .flag "verbose" => .ok (verbosity + 1)
  | .flag "version" => .error .version
  | .flag "help" => .error (.help .program)
  | .bad e => .error (.usage e)
  | _ => .error (.usage .missingCommand)

/-- Read the arguments of the program, after `verbosity` requests for more messages. -/
def readProgram (verbosity : Nat) : List String → Except Stop Invocation
  | [] => .error (.usage .missingCommand)
  | a :: rest =>
    match shape programSpecs a with
    | .plain => readCommand verbosity a rest
    | .divider => .error (.usage .missingCommand)
    | .options items => do readProgram (← items.foldlM acceptProgram verbosity) rest

end MachineCode.CommandLine

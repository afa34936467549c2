import MachineCode.CommandLine

/-!
# The executable

The program on the files, the standard streams and the environment of the machine that it runs
on.
-/

namespace MachineCode.CommandLine

/-- The number of an error. The code of an error holds it, or holds it negated. -/
def errorNumber (code : UInt32) : Nat := min code.toNat (-code).toNat

/-- The cause of a failed file operation. -/
def FileError.ofSystem : IO.Error → FileError
  | .noFileOrDirectory .. => .notFound
  | .permissionDenied .. => .denied
  | .resourceExhausted _ code text =>
    if errorNumber code = 28 then .noSpace else .other text
  | .inappropriateType _ code _ => if errorNumber code = 20 then .notDirectory else .isDirectory
  | .invalidArgument _ code text =>
    if errorNumber code = 36 then .nameTooLong else .other text
  | .noSuchThing _ code text => if errorNumber code = 6 then .noDevice else .other text
  | .resourceBusy code text => if errorNumber code = 26 then .busy else .other text
  | e => .other e.toString

/-- Access to the files of the machine. -/
def systemFiles : FileAccess IO where
  read path := do
    try
      let bytes ← IO.FS.readBinFile path
      return (String.fromUTF8? bytes).elim (.error .notText) .ok
    catch e =>
      return .error (.ofSystem e)
  write path text := do
    try
      -- Without the flush, an error on the way to the file would be lost.
      IO.FS.withFile path .write fun h ↦ do
        h.putStr text
        h.flush
      return .ok ()
    catch e =>
      return .error (.ofSystem e)

end MachineCode.CommandLine

open MachineCode.CommandLine in
/-- Run the program and report how it ended. -/
def main (args : List String) : IO UInt32 := do
  let outcome ← run systemFiles args (← IO.getEnv "RUST_LOG")
  IO.eprint outcome.messages
  IO.print outcome.output
  return outcome.ending.exitCode.toUInt32

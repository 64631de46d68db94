import Lox.Command
import Std.Time.DateTime.Timestamp

/-!
# The program

Runs the command on the files and streams of the process.
-/

namespace Lox.Main

/-- The code of the error of reading a directory. -/
def isDirectory : UInt32 := 21

/-- Reads a file, or says why it cannot be read. -/
def readFile (path : String) : IO Command.FileRead := do
  try
    return .ok (← IO.FS.readBinFile path)
  catch e =>
    match e with
    | .noFileOrDirectory .. => return .error .missing
    | .permissionDenied .. => return .error .denied
    | .inappropriateType _ code _ =>
      return .error (if code = isDirectory then .directory else .notDirectory)
    | _ => return .error .nameTooLong

/-- The time as a clock of one reading. -/
def clock : IO Clock := do
  let now ← Std.Time.Timestamp.now
  return [⟨0, now.toNanosecondsSinceUnixEpoch.toInt⟩]

/-- Carries out writes in their order. -/
def perform (verbose : Bool) (writes : List Write) : IO Unit := do
  for write in writes do
    match write with
    | .out text => IO.print text
    | .err text => IO.eprint text
    | .log event => if verbose then IO.eprint (Log.ofEvent event)
  (← IO.getStdout).flush

/-- Answers lines from the standard input until it ends. -/
partial def answer (flags : Flags) (m : Machine) : IO UInt32 := do
  let input ← (← IO.getStdin).getLine
  if input.isEmpty then return 0
  let mut m := m
  for line in Command.inputLines input do
    let reply := Repl.runLine flags Repl.setting Session.ample line { m with clock := ← clock }
    perform flags.verbose (reply.writes ++ Command.brokenWrites reply.ending)
    if reply.quit then return 0
    if reply.ending matches .broken _ then return UInt32.ofNat Command.flagError
    m := reply.machine
  answer flags m

end Lox.Main

open Lox in
def main (args : List String) : IO UInt32 := do
  let home ← IO.getEnv "HOME"
  match ← Command.plan Main.readFile (home.map (· ++ "/.loxrc.yaml")) args with
  | .exit code writes =>
    Main.perform false writes
    return UInt32.ofNat code
  | .script flags path =>
    let (code, writes) :=
      Command.runScript flags path (← Main.clock) Session.ample (← Main.readFile path)
    Main.perform flags.verbose writes
    return UInt32.ofNat code
  | .session flags _ => Main.answer flags (.initial Repl.setting.natives (← Main.clock))

import Lox.Preferences
import Lox.Repl

/-!
# The command

The command line: flags, preferences, and then a script, a session on the standard input, or the
usage. Reading files is left to the caller.
-/

namespace Lox

namespace Command

/-! ## Exit codes and usage -/

def usageError : Nat := 64
def dataError : Nat := 65
def softwareError : Nat := 70
def inputError : Nat := 74

/-- The code for flags that cannot be read, and for a run that broke off. -/
def flagError : Nat := 2

def helpText : String :=
  "lox is a small scripting language with closures and classes.\n\nUsage:\n  lox [flags] [script]\n"

def flagsText : String :=
  "  -config string\n    \tREPL config file (default ~/.loxrc.yaml)\n" ++
  "  -context\n    \tprint the source line under each error\n" ++
  "  -debug-ast\n    \tprint AST\n" ++
  "  -plain\n    \tuse the plain line editor in the REPL\n" ++
  "  -v\tlog pipeline stages and calls\n"

def usage : List Write := [.out helpText, .err flagsText]

/-! ## Files -/

/-- Why a file cannot be read. -/
inductive FileError where
  | missing
  | directory
  | notDirectory
  | nameTooLong
  | denied
deriving DecidableEq, Repr

def FileError.message (path : String) : FileError → String
  | missing => "open " ++ path ++ ": no such file or directory"
  | directory => "read " ++ path ++ ": is a directory"
  | notDirectory => "open " ++ path ++ ": not a directory"
  | nameTooLong => "open " ++ path ++ ": file name too long"
  | denied => "open " ++ path ++ ": permission denied"

abbrev FileRead := Except FileError ByteArray

/-! ## Preferences -/

/-- The preferences in a file that was read, or the message that goes out. -/
def preferencesIn (path : String) : FileRead → Except String Preferences
  | .ok bytes =>
    match Preferences.parse (Text.decodeUtf8 bytes) with
    | .ok p => .ok p
    | .error e => .error e.message
  | .error .directory =>
    .error ("config: parse: yaml: input error: " ++ FileError.directory.message path)
  | .error e => .error ("config: " ++ e.message path)

/-- Loads the preferences: from the file that the flags name, or from the default file, which may be
absent. -/
def loadPreferences {m : Type → Type} [Monad m] (read : String → m FileRead)
    (default : Option String) (flags : Flags) : m (Except String Preferences) := do
  if flags.config != "" then
    return preferencesIn flags.config (← read flags.config)
  match default with
  | none => return .ok {}
  | some path =>
    match ← read path with
    | .error .directory => return preferencesIn path (.error .directory)
    | .error _ => return .ok {}
    | .ok bytes => return preferencesIn path (.ok bytes)

/-! ## What to do -/

/-- What the command line asks for. -/
inductive Task where
  | exit (code : Nat) (writes : List Write)
  | script (flags : Flags) (path : String)
  | session (flags : Flags) (preferences : Preferences)

/-- Reads the flags and the preferences, and settles what to do. -/
def plan {m : Type → Type} [Monad m] (read : String → m FileRead) (default : Option String)
    (args : List String) : m Task := do
  match Flags.parse {} args with
  | .error e =>
    match e.message? with
    | none => return .exit 0 usage
    | some message => return .exit flagError (.err (message ++ "\n") :: usage)
  | .ok (flags, args) =>
    match ← loadPreferences read default flags with
    | .error message => return .exit usageError [.err (message ++ "\n")]
    | .ok preferences =>
      match args with
      | [] => return .session flags preferences
      | [path] => return .script flags path
      | _ => return .exit usageError usage

/-- The write that a broken promise leaves behind. -/
def brokenWrites : Ending → List Write
  | .broken b => [.err ("panic: " ++ b.message ++ "\n")]
  | _ => []

/-- The exit code of a script. -/
def exitCode (o : Outcome) : Nat :=
  if !o.diagnostics.isEmpty then dataError
  else
    match o.ending with
    | .finished => 0
    | .fault _ => softwareError
    | .broken _ | .outOfFuel => flagError

/-- Runs a script. -/
def runScript (flags : Flags) (path : String) (clock : Clock) (fuel : Nat) :
    FileRead → Nat × List Write
  | .error e => (inputError, [.err ("read script: " ++ e.message path ++ "\n")])
  | .ok bytes =>
    let s : Setting := { path, natives := [.clock] }
    let step := Repl.runSource flags s fuel (Text.decodeUtf8 bytes) [] (.initial s.natives clock)
    (exitCode step.outcome,
      .log (.runFile path bytes.size) :: step.writes ++ brokenWrites step.outcome.ending)

/-! ## The whole command -/

/-- The lines of an input; either line break ends one, and the last line needs none. -/
def inputLines (input : String) : List String :=
  let lines := input.toList.splitOnP fun c => c = '\n' || c = '\r'
  let lines := if lines.getLast? = some [] then lines.dropLast else lines
  lines.map String.ofList

/-- Handles all lines of an input. -/
def runSession (flags : Flags) (lines : List String) (clock : Clock) (fuel : Nat) :
    Nat × List Write :=
  let s := Repl.setting
  let replies := Repl.runLines flags s fuel lines (.initial s.natives clock)
  let writes := replies.flatMap fun reply => reply.writes ++ brokenWrites reply.ending
  let broke := replies.any fun reply => reply.ending matches .broken _
  (if broke then flagError else 0, writes)

/-- What the command came to. -/
structure Result where
  exit : Nat
  out : String
  err : String
deriving DecidableEq, Repr

/-- The result of some writes. -/
def Result.ofWrites (verbose : Bool) (exit : Nat) (writes : List Write) : Result :=
  ⟨exit, Write.outText writes, Write.errText verbose writes⟩

/-- The whole command, on an input that is known from the start. -/
def run {m : Type → Type} [Monad m] (read : String → m FileRead) (default : Option String)
    (args : List String) (input : String) (clock : Clock) (fuel : Nat) : m Result := do
  match ← plan read default args with
  | .exit code writes => return .ofWrites false code writes
  | .script flags path =>
    let (code, writes) := runScript flags path clock fuel (← read path)
    return .ofWrites flags.verbose code writes
  | .session flags _ =>
    let (code, writes) := runSession flags (inputLines input) clock fuel
    return .ofWrites flags.verbose code writes

end Command

end Lox

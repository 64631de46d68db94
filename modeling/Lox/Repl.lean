import Lox.Command.Flags
import Lox.Log
import Lox.Report
import Lox.Session
import Lox.Text
import Lox.Tree.Printer

/-!
# Running and reporting

One source, a script or a line typed by the user, is compiled, printed as a tree on request, run,
and reported on. Lines that begin with a colon are commands.
-/

namespace Lox

/-- Something written, and where to. -/
inductive Write where
  | out (text : String)
  | err (text : String)
  | log (event : Event)
deriving DecidableEq, Repr

namespace Write

/-- What is written to the standard output. -/
def outText (writes : List Write) : String :=
  String.join (writes.filterMap fun | out text => some text | _ => none)

/-- What is written to the standard error, the log included if it is wanted. -/
def errText (verbose : Bool) (writes : List Write) : String :=
  String.join (writes.filterMap fun
    | err text => some text
    | log event => if verbose then some (Log.ofEvent event) else none
    | out _ => none)

/-- The log alone. -/
def logText (writes : List Write) : String :=
  Log.ofEvents (writes.filterMap fun | log event => some event | _ => none)

end Write

namespace Repl

/-- What became of a source: what was written, how it ended, and the machine after it. -/
structure Step where
  writes : List Write
  outcome : Outcome

/-- Compiles, runs and reports on a source. `onFault` is logged before a fault is reported. -/
def runSource (flags : Flags) (s : Setting) (fuel : Nat) (source : String) (onFault : List Event)
    (m : Machine) : Step :=
  let p := Program.compile source
  let trees :=
    if flags.debugTree then String.join (p.statements.map fun t => t.debug ++ "\n") else ""
  let started := Session.compiled p { m with printed := "", log := #[] }
  let o := Session.runProgram s fuel {} p started
  let r : Reporter := { source, context := flags.context }
  let ran := o.machine.log.toList.map Write.log ++ [.out trees, .out o.machine.printed]
  let report :=
    match o.diagnostics, o.ending with
    | [], .fault f =>
      onFault.map Write.log ++ [.err (r.fault f.reason.message f.token.line)] ++
        (if f.trace.isEmpty then [] else [.log (.stackTrace f.traceText)])
    | ds, _ => [.err (r.notes (ds.map Diagnostic.note))]
  ⟨ran ++ report, o⟩

/-- What a line asks for. -/
inductive Request where
  | nothing
  | quit
  | globals
  | code
deriving DecidableEq, Repr

/-- White space around a command does not count. -/
def request (line : String) : Request :=
  match String.ofList (Text.trim line.toList) with
  | "" => .nothing
  | ":quit" => .quit
  | ":globals" => .globals
  | _ => .code

/-- The globals, one a line. -/
def globalLines (m : Machine) : String :=
  String.join (m.globalTexts.map fun (name, text) => name ++ " = " ++ text ++ "\n")

/-- What a line came to: whether the session is over, and what was written. -/
structure Reply where
  quit : Bool
  writes : List Write
  ending : Ending
  machine : Machine

/-- Handles one line. Every line is a program of its own; the globals stay. -/
def runLine (flags : Flags) (s : Setting) (fuel : Nat) (line : String) (m : Machine) : Reply :=
  match request line with
  | .nothing => ⟨false, [], .finished, m⟩
  | .quit => ⟨true, [], .finished, m⟩
  | .globals => ⟨false, [.out (globalLines m)], .finished, m⟩
  | .code =>
    let step := runSource flags s fuel line [.runtimeError line] m
    ⟨false, step.writes, step.outcome.ending, step.outcome.machine⟩

/-- The replies to lines, up to the one that ends the session. -/
def runLines (flags : Flags) (s : Setting) (fuel : Nat) : List String → Machine → List Reply
  | [], _ => []
  | line :: lines, m =>
    let reply := runLine flags s fuel line m
    match reply.quit, reply.ending with
    | true, _ => [reply]
    | _, .broken _ => [reply]
    | _, _ => reply :: runLines flags s fuel lines reply.machine

/-- The setting of a session with a user. -/
def setting : Setting := { path := "<stdin>", natives := [.clock] }

end Repl

end Lox

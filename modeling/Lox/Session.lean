import Lox.Eval
import Lox.Program

/-!
# Sessions

Programs run one after the other on one machine: each finds the globals as the ones before it left
them. A program with a static fault does not run at all; a fault while it runs abandons the rest of
that program only.
-/

namespace Lox

/-- How a program ended. -/
inductive Ending where
  | finished
  | fault (f : Fault)
  | broken (b : Broken)
  | outOfFuel
deriving DecidableEq, Repr

/-- What became of a program: its static faults, its ending, and the machine after it. -/
structure Outcome where
  diagnostics : List Diagnostic
  ending : Ending
  machine : Machine

/-- Options for running a program out of the ordinary. -/
structure RunOptions where
  /-- Run in spite of static faults. -/
  force : Bool := false
  /-- Leave every name to the globals. -/
  unbound : Bool := false
  /-- How often to run the statements. -/
  rounds : Nat := 1
deriving DecidableEq, Repr

namespace Session

/-- Executes statements at the top level, where nothing is left for a `return` to end. -/
def executeEach (s : Setting) (fuel : Nat) : List Stmt → Exec Unit
  | [] => pure ()
  | stmt :: rest => do
    let _ ← Eval.execute s fuel stmt
    executeEach s fuel rest

/-- Executes the statements of a program. After a fault the machine is back in the globals. -/
def interpret (s : Setting) (fuel : Nat) (statements : List Stmt) (m : Machine) :
    Ending × Machine :=
  let m := m.record (.interpret s.path statements.length)
  match executeEach s fuel statements m with
  | .ok _ m => (.finished, m)
  | .error (.fault f) m => (.fault f, { m with frame := globals })
  | .error (.broken b) m => (.broken b, m)
  | .error .outOfFuel m => (.outOfFuel, m)

/-- Executes the statements of a program a number of times, up to the first that does not finish. -/
def interpretRounds (s : Setting) (fuel : Nat) (statements : List Stmt) :
    Nat → Machine → Ending × Machine
  | 0, m => (.finished, m)
  | rounds + 1, m =>
    match interpret s fuel statements m with
    | (.finished, m) => interpretRounds s fuel statements rounds m
    | ended => ended

/-- Runs a compiled program. -/
def runProgram (s : Setting) (fuel : Nat) (options : RunOptions) (p : Program) (m : Machine) :
    Outcome :=
  if p.diagnostics.isEmpty || options.force then
    let diagnostics := p.diagnostics ++ p.violations
    if diagnostics.isEmpty || options.force then
      let statements := if options.unbound then p.statements else p.bound
      let (ending, m) := interpretRounds s fuel statements options.rounds m
      ⟨diagnostics, ending, m⟩
    else ⟨diagnostics, .finished, m⟩
  else ⟨p.diagnostics, .finished, m⟩

/-- Notes in the log what compiling came to. -/
def compiled (p : Program) (m : Machine) : Machine :=
  m.record (.parsed p.tokenCount p.statements.length p.diagnostics.length)

/-- Takes a source from its text to its ending. -/
def run (s : Setting) (fuel : Nat) (source : String) (options : RunOptions) (m : Machine) :
    Outcome :=
  let p := Program.compile source
  runProgram s fuel options p (compiled p m)

/-- Fuel for runs that are bounded by nothing but patience. -/
def ample : Nat := Nat.pow 2 62

end Session

end Lox

import Lox.Fault

/-!
# Events

The stages of a run that can be logged.
-/

namespace Lox

inductive Event where
  | runFile (path : String) (bytes : Nat)
  | parsed (tokens statements errors : Nat)
  | interpret (path : String) (statements : Nat)
  /-- A call begins; `depth` counts the active calls, this one included. -/
  | call (path : String) (call : Call) (depth : Nat)
  /-- A line given by the user ended in a fault. -/
  | runtimeError (line : String)
  | stackTrace (trace : String)
deriving DecidableEq, Repr

end Lox

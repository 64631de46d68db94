import Lox.Token

/-!
# Faults

What can go wrong while a program runs, with the wording, and the calls that were active.
-/

namespace Lox

/-- Why a program stops. -/
inductive Reason where
  | undefinedVariable (name : String)
  | undefinedProperty (name : String)
  | operandNotNumber
  | operandsNotNumbers
  | operandsNotAddable
  | notCallable
  | wrongArity (expected : Int) (got : Nat)
  | propertyOfNonInstance
  | fieldOfNonInstance
  | superclassNotClass
  | native (text : String)
deriving DecidableEq, Repr

def Reason.message : Reason → String
  | undefinedVariable name => "Undefined variable '" ++ name ++ "'."
  | undefinedProperty name => "Undefined property '" ++ name ++ "'."
  | operandNotNumber => "Operand must be a number."
  | operandsNotNumbers => "Operands must be numbers."
  | operandsNotAddable => "Operands must be two numbers or two strings."
  | notCallable => "Can only call functions and classes."
  | wrongArity expected got =>
    "Expected " ++ toString expected ++ " arguments but got " ++ toString got ++ "."
  | propertyOfNonInstance => "Only instances have properties."
  | fieldOfNonInstance => "Only instances have fields."
  | superclassNotClass => "Superclass must be a class."
  | native text => text

/-- An active call: what was called, and the line of its closing parenthesis. -/
structure Call where
  name : String
  line : Int
deriving DecidableEq, Repr

def Call.text (c : Call) : String :=
  if c.name = "" then "  in script [line " ++ toString c.line ++ "]"
  else "  in fn " ++ c.name ++ " [line " ++ toString c.line ++ "]"

/-- A fault of a running program. The trace holds the calls it has passed through so far, innermost
first. -/
structure Fault where
  token : Token
  reason : Reason
  trace : List Call := []
deriving DecidableEq, Repr

namespace Fault

/-- The fault after it has left a call. -/
def leaving (f : Fault) (c : Call) : Fault := { f with trace := f.trace ++ [c] }

def message (f : Fault) : String :=
  f.reason.message ++ "\n[line " ++ toString f.token.line ++ "]"

def traceText (f : Fault) : String := "\n".intercalate (f.trace.map Call.text)

end Fault

end Lox

import Lox.Clock
import Lox.Token
import Lox.Value

/-!
# Native functions

Functions that a program can call without having declared them. They see their arguments and the
clock, and give back a value or a fault.
-/

namespace Lox

/-- A fault made by a native function: the token that it points at, and what it says. -/
structure NativeFault where
  token : Token
  reason : String
deriving DecidableEq, Repr

structure Native where
  name : String
  /-- How many arguments it takes. No call fits a negative number. -/
  arity : Int
  act : List Value → Clock → Except NativeFault Value × Clock

namespace Native

/-- The time in seconds. -/
def clock : Native :=
  ⟨"clock", 0, fun _ clock =>
    let (t, clock) := clock.read
    (.ok (.number t.number), clock)⟩

/-- A function that always gives the same value. -/
def const (name : String) (arity : Int) (v : Value) : Native :=
  ⟨name, arity, fun _ clock => (.ok v, clock)⟩

/-- A function that gives back one of its arguments. -/
def argument (name : String) (arity : Int) (index : Nat) : Native :=
  ⟨name, arity, fun args clock => (.ok (args.getD index .nil), clock)⟩

/-- A function that always fails, on a line of its own choice. -/
def failing (name : String) (arity line : Int) (reason : String) : Native :=
  ⟨name, arity, fun _ clock => (.error ⟨⟨.eof, "", line, 0⟩, reason⟩, clock)⟩

end Native

end Lox

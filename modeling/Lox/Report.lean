import Lox.Diagnostic
import Lox.Fault
import Lox.Listing

/-!
# Reports

How faults are shown to the user: the line, the message, and on request the source line.
-/

namespace Lox

/-- A static fault as it is shown. -/
structure Note where
  line : Int
  place : String
  message : String
deriving DecidableEq, Repr

def Diagnostic.note (d : Diagnostic) : Note := ⟨d.line, d.place.text, d.cause.message⟩

/-- How to report on one source. -/
structure Reporter where
  source : String
  /-- Show the source line under each fault. -/
  context : Bool
  inColour : Bool := false
deriving DecidableEq, Repr

namespace Reporter

/-- The part of a report that catches the eye. -/
def banner (r : Reporter) (text : String) : String :=
  if r.inColour then styled "31;1" text else text

def listing (r : Reporter) (line : Int) : String :=
  if r.context then Listing.render r.source line false else ""

def note (r : Reporter) (n : Note) : String :=
  "[line " ++ toString n.line ++ "] " ++ r.banner "Error" ++ n.place ++ ": " ++ n.message ++ "\n" ++
    r.listing n.line

def notes (r : Reporter) (ns : List Note) : String := String.join (ns.map r.note)

/-- A fault of a running program. -/
def fault (r : Reporter) (reason : String) (line : Int) : String :=
  r.banner reason ++ "\n[line " ++ toString line ++ "]\n" ++ r.listing line

/-- A failure that has no place in the source. -/
def failure (r : Reporter) (text : String) : String := r.banner text ++ "\n"

end Reporter

end Lox

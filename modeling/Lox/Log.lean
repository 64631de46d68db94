import Lox.Event
import Lox.Text
import Lox.Text.Quoted

/-!
# Log lines

An event is logged as one line of `key=value` pairs. A value is quoted where a reader could not tell
where it ends.
-/

namespace Lox

namespace Log

/-- Whether a character makes it necessary to quote a value. -/
def needsQuote (c : Char) : Bool :=
  if c.toNat < 0x80 then c.toNat ≤ 0x20 || c = '"' || c = '='
  else c.toNat = 0xFFFD || Text.isBlank c || !Text.isPrintable c

/-- A value as it stands in a line. -/
def value (s : String) : String :=
  if s.isEmpty || s.toList.any needsQuote then Text.quote s else s

/-- One line: the level, the message, and further pairs. -/
def line (message : String) (pairs : List (String × String)) : String :=
  let all := [("level", "DEBUG"), ("msg", message)] ++ pairs
  " ".intercalate (all.map fun (key, v) => value key ++ "=" ++ value v) ++ "\n"

/-- The line of an event. -/
def ofEvent : Event → String
  | .runFile path bytes => line "run file" [("path", path), ("bytes", toString bytes)]
  | .parsed tokens statements errors =>
    line "parsed" [("tokens", toString tokens), ("statements", toString statements),
      ("errors", toString errors)]
  | .interpret path statements =>
    line "interpret" [("path", path), ("statements", toString statements)]
  | .call path call depth =>
    line "call" [("path", path), ("fn", call.name), ("line", toString call.line),
      ("depth", toString depth)]
  | .runtimeError text => line "runtime error" [("line", text)]
  | .stackTrace trace => line ("stack trace\n" ++ trace) []

/-- The lines of some events. -/
def ofEvents (events : List Event) : String := String.join (events.map ofEvent)

end Log

end Lox

import Lox.Highlight
import Lox.Listing.Span

/-!
# Listings

One line of a source with its number in front, as it is shown under an error.
-/

namespace Lox

namespace Listing

/-- A style gives each class the codes that switch its colours on, or none. -/
abbrev Style := SpanClass → String

def monokai : Style
  | .comment => "\x1b[38;5;242m"
  | .string => "\x1b[38;5;186m"
  | .number => "\x1b[38;5;141m"
  | .constant | .keyword => "\x1b[38;5;81m"
  | .operator => "\x1b[38;5;197m"
  | .blank | .name | .pseudo | .punctuation => "\x1b[38;5;231m"
  | .error => "\x1b[38;5;89m\x1b[48;5;232m"

/-- A span with or without its colours. -/
def paint (style : Style) (inColour : Bool) (span : Span) : String :=
  let text := String.ofList span.text
  if inColour && style span.cls != "" then style span.cls ++ text ++ "\x1b[0m" else text

/-- The number of a line, right-aligned to five places, and a bar. -/
def gutter (line : Nat) : String :=
  let digits := Nat.toDigits 10 line
  String.ofList (List.replicate (5 - digits.length) ' ' ++ digits) ++ " | "

/-- The lines of a source. The last one may be empty. -/
def lines (source : String) : List (List Char) := source.toList.splitOn '\n'

/-- The given line of a source, from one; nothing if there is no such line. -/
def render (source : String) (line : Int) (inColour : Bool) (style : Style := monokai) : String :=
  if line < 1 then ""
  else
    match (lines source)[line.toNat - 1]? with
    | none => ""
    | some text =>
      gutter line.toNat ++ String.join ((Span.spans (text ++ ['\n'])).map (paint style inColour))

end Listing

end Lox

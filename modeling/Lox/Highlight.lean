import Lox.Token.Scan

/-!
# Highlighting

A line is coloured while it is being typed. The tokens of the line are written in their order,
literals and keywords in colour; what stands between two tokens is no token, and is copied from the
line as it is.
-/

namespace Lox

/-- A text between the codes that switch a rendition on and back to normal. -/
def styled (code : String) (text : String) : String := "\x1b[" ++ code ++ "m" ++ text ++ "\x1b[0m"

namespace Highlight

/-- The colour of a kind of token. -/
def colour? (kind : TokenKind) : Option String :=
  match kind with
  | .string => some "32"
  | .number => some "35"
  | .kwTrue | .kwFalse | .kwNil => some "36"
  | kind => if kind.isKeyword then some "34" else none

/-- The text of a token, coloured if its kind has a colour. -/
def paint (inColour : Bool) (t : Token) : String :=
  match colour? t.kind with
  | some code => if inColour then styled code t.lexeme else t.lexeme
  | none => t.lexeme

/-- The characters of a line from a place up to another, if that is not behind it. -/
def between (line : List Char) (i j : Nat) : String := String.ofList ((line.take j).drop i)

/-- The line from place `i` on, where `ts` are the tokens that it has from there. -/
def stitch (inColour : Bool) (line : List Char) (i : Nat) : List Token → String
  | [] => between line i line.length
  | t :: ts =>
    between line i t.offset ++ paint inColour t ++
      stitch inColour line (t.offset + t.length) ts

end Highlight

/-- The line as it is displayed, with colours or without. -/
def highlight (inColour : Bool) (line : String) : String :=
  Highlight.stitch inColour line.toList 0 (scan line).tokens

end Lox

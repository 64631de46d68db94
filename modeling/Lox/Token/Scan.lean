import Lox.Token.Piece
import Lox.Diagnostic

/-!
# Scanning

A scan walks over the pieces of a source with a running position. Token pieces become tokens; stray
characters and an unclosed string become diagnostics and never stop the scan.
-/

namespace Lox

/-- A place in a source: the line, from one, and the number of characters before it. -/
structure Position where
  line : Nat
  offset : Nat
deriving DecidableEq, Repr

namespace Position

def start : Position := ⟨1, 0⟩

/-- The place after a text. -/
def advance (p : Position) (text : List Char) : Position :=
  ⟨p.line + text.count '\n', p.offset + text.length⟩

end Position

namespace Piece

/-- The token that a piece is, if it is one. -/
def token? (p : Position) : Piece → Option Token
  | token kind text => some ⟨kind, String.ofList text, (p.advance text).line, p.offset⟩
  | _ => none

/-- What is wrong with a piece. -/
def fault? : Piece → Option Cause
  | stray _ => some .strayCharacter
  | openString _ => some .openString
  | _ => none

/-- The fault of a piece, on the line where the piece ends. -/
def diagnostic? (p : Position) (piece : Piece) : Option Diagnostic :=
  piece.fault?.map fun cause => ⟨(p.advance piece.text).line, .line, cause⟩

/-- Pieces with the place where each begins. -/
def placed (p : Position) : List Piece → List (Position × Piece)
  | [] => []
  | piece :: rest => (p, piece) :: placed (p.advance piece.text) rest

end Piece

/-- The outcome of scanning: the tokens, the mark of the end, and the lexical faults. -/
structure Scan where
  tokens : List Token
  eof : Token
  diagnostics : List Diagnostic
deriving DecidableEq, Repr

/-- Scans a source. -/
def scan (source : String) : Scan :=
  let text := source.toList
  let placed := Piece.placed .start (Piece.pieces text)
  let stop := Position.start.advance text
  { tokens := placed.filterMap fun (p, piece) => piece.token? p
    eof := ⟨.eof, "", stop.line, stop.offset⟩
    diagnostics := placed.filterMap fun (p, piece) => piece.diagnostic? p }

/-- All tokens of a scan, the mark of the end last. -/
def Scan.all (s : Scan) : List Token := s.tokens ++ [s.eof]

end Lox

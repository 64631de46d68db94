import Lox.Tree
import Lox.Diagnostic

/-!
# Reading tokens

A parser reads tokens from a cursor, reports faults as it goes, and may refuse the declaration it is
in. Refusing unwinds to the nearest recovery point, where reading goes on at the next statement.
-/

namespace Lox.Grammar

/-- The tokens still to be read, the mark of the end, and the faults reported so far. -/
structure Cursor where
  rest : List Token
  eof : Token
  diagnostics : List Diagnostic := []
deriving Repr

namespace Cursor

/-- The token that a fault found here points at. -/
def here (c : Cursor) : Token := c.rest.headD c.eof

def report (c : Cursor) (d : Diagnostic) : Cursor := { c with diagnostics := c.diagnostics ++ [d] }

end Cursor

/-- Why a parser gives up: the text is refused, or the depth allowed is used up. -/
inductive Abort where
  | refused
  | outOfFuel
deriving DecidableEq, Repr

abbrev Parser := EStateM Abort Cursor

/-! ## Single tokens -/

/-- Whether the next token has the kind. -/
def check (kind : TokenKind) : Parser Bool := fun c => .ok (c.rest.head?.any (·.kind = kind)) c

def atEnd : Parser Bool := fun c => .ok c.rest.isEmpty c

/-- Takes the next token if `f` finds something in its kind. -/
def acceptMap {α : Type} (f : TokenKind → Option α) : Parser (Option (α × Token)) := fun c =>
  match c.rest with
  | [] => .ok none c
  | t :: rest =>
    match f t.kind with
    | some a => .ok (some (a, t)) { c with rest }
    | none => .ok none c

/-- Takes the next token if it has the kind. -/
def accept (kind : TokenKind) : Parser (Option Token) := fun c =>
  match c.rest with
  | [] => .ok none c
  | t :: rest => if t.kind = kind then .ok (some t) { c with rest } else .ok none c

/-- Reports a fault at a token and goes on. -/
def complainAt (t : Token) (cause : Cause) : Parser Unit := fun c =>
  .ok () (c.report (.ofToken t cause))

/-- Reports a fault at the next token and goes on. -/
def complain (cause : Cause) : Parser Unit := fun c => complainAt c.here cause c

/-- Reports a fault at the next token and gives up. -/
def refuse {α : Type} (e : Expected) : Parser α := do
  complain (.expected e)
  throw .refused

/-- Takes the next token, which has to have the kind. -/
def expect (kind : TokenKind) (e : Expected) : Parser Token := do
  match ← accept kind with
  | some t => pure t
  | none => refuse e

/-! ## Recovery -/

/-- The keywords that begin a statement. -/
def beginsStatement : TokenKind → Bool
  | .kwClass | .kwFun | .kwVar | .kwFor | .kwIf | .kwWhile | .kwPrint | .kwReturn => true
  | _ => false

/-- The tokens from the next statement on, after the token `last` has been dropped. -/
def skipPast (last : Token) : List Token → List Token
  | [] => []
  | t :: rest =>
    if last.kind = .semicolon then t :: rest
    else if beginsStatement t.kind then t :: rest
    else skipPast t rest

/-- Drops tokens up to a statement boundary, and at least one. -/
def synchronize : List Token → List Token
  | [] => []
  | t :: rest => skipPast t rest

/-- A recovery point: what is refused inside is dropped, and reading goes on at the next
statement. -/
def recover {α : Type} (p : Parser α) : Parser (Option α) := fun c =>
  match p c with
  | .ok a c => .ok (some a) c
  | .error .refused c => .ok none { c with rest := synchronize c.rest }
  | .error .outOfFuel c => .error .outOfFuel c

end Lox.Grammar

import Lox.Token.Scan
import Lox.Grammar.Statement
import Lox.Scope.Rules

/-!
# Programs

Source text that has been scanned and parsed. Parsing goes on after lexical faults, so a program
carries both kinds of fault, the lexical ones first.
-/

namespace Lox

structure Program where
  statements : List Stmt
  diagnostics : List Diagnostic
  /-- How many tokens were scanned, the mark of the end included. -/
  tokenCount : Nat
deriving Repr

namespace Program

/-- Scans and parses a source. -/
def compile (source : String) : Program :=
  let scanned := scan source
  let parsed := Grammar.parse scanned.tokens scanned.eof
  { statements := parsed.statements
    diagnostics := scanned.diagnostics ++ parsed.diagnostics
    tokenCount := scanned.all.length }

/-- The statements with every reference bound. -/
def bound (p : Program) : List Stmt := Stmt.bindAll [] p.statements

/-- The static rules that the statements break. -/
def violations (p : Program) : List Diagnostic :=
  Stmt.violationsAll .outside .outside [] p.statements

end Program

end Lox

import Lox.Grammar.Expression

/-!
# The grammar of statements

Declarations, statements and whole programs. A declaration is where the parser recovers: one that is
refused is left out of the tree, and reading goes on at the next statement.
-/

namespace Lox.Grammar

/-! ## Statements without statements inside -/

/-- A variable declaration, after `var`. -/
def varDecl (n : Nat) : Parser Stmt := do
  let name ← expect .identifier .variableName
  let init ← match ← accept .equal with
    | some _ => some <$> expression n
    | none => pure none
  let _ ← expect .semicolon .variableEnd
  pure (.var name init)

def expressionStmt (n : Nat) : Parser Stmt := do
  let e ← expression n
  let _ ← expect .semicolon .statementEnd
  pure (.expression e)

/-- A print statement, after `print`. -/
def printStmt (n : Nat) : Parser Stmt := do
  let e ← expression n
  let _ ← expect .semicolon .printEnd
  pure (.print e)

/-- An expression, unless the token that ends its place comes at once. -/
def optionalExpression (n : Nat) (stop : TokenKind) : Parser (Option Expr) := do
  if ← check stop then pure none else some <$> expression n

/-- A return statement, after its keyword. -/
def returnStmt (n : Nat) (keyword : Token) : Parser Stmt := do
  let value ← optionalExpression n .semicolon
  let _ ← expect .semicolon .returnEnd
  pure (.ret keyword value)

/-- The first clause of a loop header, with its semicolon. -/
def forInit (n : Nat) : Parser (Option Stmt) := do
  match ← accept .semicolon with
  | some _ => pure none
  | none =>
    match ← accept .kwVar with
    | some _ => some <$> varDecl n
    | none => some <$> expressionStmt n

/-- A test between parentheses. -/
def testInParens (n : Nat) (start stop : Expected) : Parser Expr := do
  let _ ← expect .leftParen start
  let test ← expression n
  let _ ← expect .rightParen stop
  pure test

/-! ## Parameters -/

/-- At least one more parameter, after `count` of them. -/
def moreParameters : Nat → Nat → Parser (List Token)
  | 0, _ => throw .outOfFuel
  | n + 1, count => do
    if maxArguments ≤ count then complain .tooManyParameters
    let param ← expect .identifier .parameterName
    match ← accept .comma with
    | some _ =>
      let params ← moreParameters n (count + 1)
      pure (param :: params)
    | none => pure [param]

/-- The parameters of a function, which may be none. -/
def parameters (n : Nat) : Parser (List Token) := do
  if ← check .rightParen then pure [] else moreParameters n 0

/-! ## Statements and declarations -/

/-- The keywords and the brace that decide the form of a declaration. -/
inductive Form where
  | classForm
  | funForm
  | varForm
  | forForm
  | ifForm
  | printForm
  | returnForm
  | whileForm
  | blockForm
deriving DecidableEq, Repr

/-- The forms that only a declaration may have. -/
def declarationForm? : TokenKind → Option Form
  | .kwClass => some .classForm
  | .kwFun => some .funForm
  | .kwVar => some .varForm
  | _ => none

/-- The forms that a statement may have, expressions apart. -/
def statementForm? : TokenKind → Option Form
  | .kwFor => some .forForm
  | .kwIf => some .ifForm
  | .kwPrint => some .printForm
  | .kwReturn => some .returnForm
  | .kwWhile => some .whileForm
  | .leftBrace => some .blockForm
  | _ => none

mutual

/-- A declaration or statement; nothing if it was refused. -/
def declaration : Nat → Parser (Option Stmt)
  | 0 => throw .outOfFuel
  | n + 1 => recover do
    match ← acceptMap declarationForm? with
    | some (.classForm, _) => classDecl n
    | some (.funForm, _) => .function <$> function n .function
    | some (_, _) => varDecl n
    | none => statement n

/-- A class declaration, after `class`. -/
def classDecl : Nat → Parser Stmt
  | 0 => throw .outOfFuel
  | n + 1 => do
    let name ← expect .identifier .className
    let superclass ← match ← accept .less with
      | some _ => (fun t => some ⟨t, none⟩) <$> expect .identifier .superclassName
      | none => pure none
    let _ ← expect .leftBrace .classBody
    let methods ← methods n
    let _ ← expect .rightBrace .classEnd
    pure (.classDecl name superclass methods)

/-- The methods of a class up to its closing brace. -/
def methods : Nat → Parser (List (FunDecl Stmt))
  | 0 => throw .outOfFuel
  | n + 1 => do
    if (← check .rightBrace) || (← atEnd) then pure []
    else
      let method ← function n .method
      let rest ← methods n
      pure (method :: rest)

/-- A function or method from its name on. -/
def function : Nat → Routine → Parser (FunDecl Stmt)
  | 0, _ => throw .outOfFuel
  | n + 1, routine => do
    let name ← expect .identifier (.routineName routine)
    let _ ← expect .leftParen (.routineParameters routine)
    let params ← parameters n
    let _ ← expect .rightParen .parametersEnd
    let _ ← expect .leftBrace (.routineBody routine)
    let body ← block n
    pure ⟨name, params, body⟩

/-- The declarations of a block and its closing brace. -/
def block : Nat → Parser (List Stmt)
  | 0 => throw .outOfFuel
  | n + 1 => do
    if (← check .rightBrace) || (← atEnd) then
      let _ ← expect .rightBrace .blockEnd
      pure []
    else
      let first ← declaration n
      let rest ← block n
      pure (first.toList ++ rest)

def statement : Nat → Parser Stmt
  | 0 => throw .outOfFuel
  | n + 1 => do
    match ← acceptMap statementForm? with
    | some (.forForm, _) => forStmt n
    | some (.ifForm, _) => ifStmt n
    | some (.printForm, _) => printStmt n
    | some (.returnForm, keyword) => returnStmt n keyword
    | some (.whileForm, _) =>
      let test ← testInParens n .whileStart .whileEnd
      let body ← statement n
      pure (.loop test body)
    | some (_, _) => .block <$> block n
    | none => expressionStmt n

/-- A loop with a header, after `for`. -/
def forStmt : Nat → Parser Stmt
  | 0 => throw .outOfFuel
  | n + 1 => do
    let _ ← expect .leftParen .forStart
    let init ← forInit n
    let test ← optionalExpression n .semicolon
    let _ ← expect .semicolon .forConditionEnd
    let update ← optionalExpression n .rightParen
    let _ ← expect .rightParen .forEnd
    let body ← statement n
    pure (.forLoop init test update body)

/-- A conditional, after `if`; an `else` belongs to the nearest one. -/
def ifStmt : Nat → Parser Stmt
  | 0 => throw .outOfFuel
  | n + 1 => do
    let test ← testInParens n .ifStart .ifEnd
    let yes ← statement n
    match ← accept .kwElse with
    | some _ =>
      let no ← statement n
      pure (.ifElse test yes no)
    | none => pure (.ifThen test yes)

end

/-! ## Programs -/

/-- Declarations up to the end. -/
def declarations : Nat → Parser (List Stmt)
  | 0 => throw .outOfFuel
  | n + 1 => do
    if ← atEnd then pure []
    else
      let first ← declaration n
      let rest ← declarations n
      pure (first.toList ++ rest)

/-- What parsing yields: the statements that were understood, and the faults. -/
structure Parsed where
  statements : List Stmt
  diagnostics : List Diagnostic
deriving Repr

/-- The depth that a list of tokens can need. -/
def depthFor (tokens : List Token) : Nat := 20 * (tokens.length + 2)

/-- Parses the tokens of a program; `eof` marks where they end. -/
def parse (tokens : List Token) (eof : Token) : Parsed :=
  match declarations (depthFor tokens) ⟨tokens, eof, []⟩ with
  | .ok statements c => ⟨statements, c.diagnostics⟩
  | .error _ c => ⟨[], c.diagnostics⟩

end Lox.Grammar

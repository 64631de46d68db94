import Lox.Token

/-!
# Syntax trees

Expressions and statements. The nodes keep the tokens that a fault may point at. A node that names a
variable carries a `Reference`: its token, and how many scopes out the name is bound once that is
known.
-/

namespace Lox

/-! ## Operators -/

inductive UnaryOp where
  | not
  | negate
deriving DecidableEq, Repr

def UnaryOp.symbol : UnaryOp → String
  | not => "!"
  | negate => "-"

inductive BinaryOp where
  | add
  | sub
  | mul
  | div
  | equal
  | notEqual
  | less
  | lessEqual
  | greater
  | greaterEqual
deriving DecidableEq, Repr

def BinaryOp.symbol : BinaryOp → String
  | add => "+"
  | sub => "-"
  | mul => "*"
  | div => "/"
  | equal => "=="
  | notEqual => "!="
  | less => "<"
  | lessEqual => "<="
  | greater => ">"
  | greaterEqual => ">="

/-- The operators that may leave their right operand unevaluated. -/
inductive LogicalOp where
  | and
  | or
deriving DecidableEq, Repr

def LogicalOp.symbol : LogicalOp → String
  | and => "and"
  | or => "or"

/-! ## Expressions -/

/-- A use of a name. `hops` counts the scopes between the use and the scope that binds the name;
without it the name is looked up among the globals. -/
structure Reference where
  token : Token
  hops : Option Nat := none
deriving DecidableEq, Repr

/-- The name that is referred to. -/
def Reference.name (r : Reference) : String := r.token.lexeme

inductive Expr where
  | literal (c : Constant)
  | group (inner : Expr)
  | unary (op : UnaryOp) (token : Token) (right : Expr)
  | binary (op : BinaryOp) (token : Token) (left right : Expr)
  | logical (op : LogicalOp) (token : Token) (left right : Expr)
  | name (ref : Reference)
  | assign (ref : Reference) (value : Expr)
  /-- `paren` is the closing parenthesis of the arguments. -/
  | call (callee : Expr) (paren : Token) (args : List Expr)
  | get (object : Expr) (property : Token)
  | set (object : Expr) (property : Token) (value : Expr)
  /-- The token of the reference is the keyword `this`. -/
  | thisRef (ref : Reference)
  /-- The token of the reference is the keyword `super`. -/
  | superRef (ref : Reference) (method : Token)
deriving Repr

/-! ## Statements -/

/-- A named function or method, with a body of statements `σ`. -/
structure FunDecl (σ : Type) where
  name : Token
  params : List Token
  body : List σ
deriving Repr

inductive Stmt where
  | expression (e : Expr)
  | print (e : Expr)
  | var (name : Token) (init : Option Expr)
  | block (body : List Stmt)
  | ifThen (test : Expr) (yes : Stmt)
  | ifElse (test : Expr) (yes no : Stmt)
  | loop (test : Expr) (body : Stmt)
  | function (decl : FunDecl Stmt)
  | ret (keyword : Token) (value : Option Expr)
  | classDecl (name : Token) (superclass : Option Reference) (methods : List (FunDecl Stmt))
deriving Repr

/-- The method that runs when a class is called. -/
def initName : String := "init"

def FunDecl.isInitializer {σ : Type} (d : FunDecl σ) : Bool := d.name.lexeme == initName

/-! ## Loops with a header -/

/-- A loop with a header, in terms of the plain loop: `init` runs once, `update` after each run of
the body, and a missing test is true. -/
def Stmt.forLoop (init : Option Stmt) (test update : Option Expr) (body : Stmt) : Stmt :=
  let round :=
    match update with
    | some e => .block [body, .expression e]
    | none => body
  let whole := .loop (test.getD (.literal (.bool true))) round
  match init with
  | some s => .block [s, whole]
  | none => whole

end Lox

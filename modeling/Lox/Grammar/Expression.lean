import Lox.Grammar.Cursor

/-!
# The grammar of expressions

Assignment is weakest and groups to the right; then come six levels of binary operators, which group
to the left; then prefix operators, calls and property accesses, and the primary forms.

Every function takes a bound on its depth. A token costs a bounded number of steps, so a bound in
proportion to the number of tokens is never used up.
-/

namespace Lox.Grammar

/-! ## Levels of binary operators -/

/-- The levels, weakest first. -/
inductive Level where
  | or
  | and
  | equality
  | comparison
  | term
  | factor
deriving DecidableEq, Repr

namespace Level

/-- The next tighter level; after the tightest come the prefix operators. -/
def tighter? : Level → Option Level
  | or => some .and
  | and => some .equality
  | equality => some .comparison
  | comparison => some .term
  | term => some .factor
  | factor => none

end Level

/-- An operator between two operands. -/
inductive Joint where
  | logical (op : LogicalOp)
  | binary (op : BinaryOp)
deriving DecidableEq, Repr

def Joint.join (j : Joint) (token : Token) (left right : Expr) : Expr :=
  match j with
  | logical op => .logical op token left right
  | binary op => .binary op token left right

/-- The operators of each level. -/
def Level.joint? : Level → TokenKind → Option Joint
  | or, .kwOr => some (.logical .or)
  | and, .kwAnd => some (.logical .and)
  | equality, .bangEqual => some (.binary .notEqual)
  | equality, .equalEqual => some (.binary .equal)
  | comparison, .greater => some (.binary .greater)
  | comparison, .greaterEqual => some (.binary .greaterEqual)
  | comparison, .less => some (.binary .less)
  | comparison, .lessEqual => some (.binary .lessEqual)
  | term, .minus => some (.binary .sub)
  | term, .plus => some (.binary .add)
  | factor, .slash => some (.binary .div)
  | factor, .star => some (.binary .mul)
  | _, _ => none

/-- The prefix operators. -/
def unaryOp? : TokenKind → Option UnaryOp
  | .bang => some .not
  | .minus => some .negate
  | _ => none

/-- The tokens that begin a primary form. -/
inductive Start where
  | constant
  | name
  | thisWord
  | superWord
  | paren
deriving DecidableEq, Repr

def start? : TokenKind → Option Start
  | .kwFalse | .kwTrue | .kwNil | .number | .string => some .constant
  | .identifier => some .name
  | .kwThis => some .thisWord
  | .kwSuper => some .superWord
  | .leftParen => some .paren
  | _ => none

/-! ## Assignment -/

/-- The assignment of a value to a target. Only names and properties can be assigned to; any other
target is reported, and stands as the expression. -/
def assignTo (target : Expr) (equals : Token) (value : Expr) : Parser Expr :=
  match target with
  | .name ref => pure (.assign ref value)
  | .get object property => pure (.set object property value)
  | _ => do
    complainAt equals .invalidTarget
    pure target

/-! ## The forms of expressions -/

/-- How many arguments a call, and parameters a function, may have. -/
def maxArguments : Nat := 255

mutual

def expression : Nat → Parser Expr
  | 0 => throw .outOfFuel
  | n + 1 => do
    let target ← operand n .or
    match ← accept .equal with
    | none => pure target
    | some equals =>
      let value ← expression n
      assignTo target equals value

/-- Operands of the next tighter level, joined from the left. -/
def operand : Nat → Level → Parser Expr
  | 0, _ => throw .outOfFuel
  | n + 1, level => do
    let left ← tighter n level
    joined n level left

/-- An operand of the next tighter level. -/
def tighter : Nat → Level → Parser Expr
  | 0, _ => throw .outOfFuel
  | n + 1, level =>
    match level.tighter? with
    | some level => operand n level
    | none => unary n

/-- The operators and operands that follow `left` on its level. -/
def joined : Nat → Level → Expr → Parser Expr
  | 0, _, _ => throw .outOfFuel
  | n + 1, level, left => do
    match ← acceptMap level.joint? with
    | none => pure left
    | some (joint, token) =>
      let right ← tighter n level
      joined n level (joint.join token left right)

def unary : Nat → Parser Expr
  | 0 => throw .outOfFuel
  | n + 1 => do
    match ← acceptMap unaryOp? with
    | some (op, token) =>
      let right ← unary n
      pure (.unary op token right)
    | none =>
      let head ← primary n
      suffixes n head

/-- The calls and property accesses that follow `head`. -/
def suffixes : Nat → Expr → Parser Expr
  | 0, _ => throw .outOfFuel
  | n + 1, head => do
    match ← accept .leftParen with
    | some _ =>
      let args ← arguments n
      let paren ← expect .rightParen .argumentsEnd
      suffixes n (.call head paren args)
    | none =>
      match ← accept .dot with
      | some _ =>
        let property ← expect .identifier .propertyName
        suffixes n (.get head property)
      | none => pure head

/-- The arguments of a call, which may be none. -/
def arguments : Nat → Parser (List Expr)
  | 0 => throw .outOfFuel
  | n + 1 => do
    if ← check .rightParen then pure [] else moreArguments n 0

/-- At least one more argument, after `count` of them. -/
def moreArguments : Nat → Nat → Parser (List Expr)
  | 0, _ => throw .outOfFuel
  | n + 1, count => do
    if maxArguments ≤ count then complain .tooManyArguments
    let arg ← expression n
    match ← accept .comma with
    | some _ =>
      let args ← moreArguments n (count + 1)
      pure (arg :: args)
    | none => pure [arg]

def primary : Nat → Parser Expr
  | 0 => throw .outOfFuel
  | n + 1 => do
    match ← acceptMap start? with
    | some (.constant, token) => pure (.literal (token.constant?.getD .nil))
    | some (.name, token) => pure (.name ⟨token, none⟩)
    | some (.thisWord, token) => pure (.thisRef ⟨token, none⟩)
    | some (.superWord, token) =>
      let _ ← expect .dot .superDot
      let method ← expect .identifier .superMethod
      pure (.superRef ⟨token, none⟩ method)
    | some (.paren, _) =>
      let inner ← expression n
      let _ ← expect .rightParen .groupEnd
      pure (.group inner)
    | none => refuse .expression

end

end Lox.Grammar

import Lox.Grammar.Expression

/-!
# Surface syntax

The grammar of the language, as a type of trees that are as concrete as the text: every token of a
program stands in its tree, where the rules of the grammar put it. The types have no invalid trees.
An `else` belongs to the nearest `if` that can take it, since the index of `Statement` says whether
an `else` after the statement would be taken inside it; and no call and no function has more than
255 arguments or parameters.

A surface tree gives the tokens it is spelled with (`Program.tokens`) and the abstract tree it
stands for (`Program.tree`), in which loops with a header are written with plain loops.
-/

namespace Lox.Surface

open Grammar (Level)

/-- A token of a kind. -/
abbrev Word (kind : TokenKind) := { t : Token // t.kind = kind }

/-! ## Operators -/

/-- The levels of binary operators, each with the one that binds tighter. -/
inductive Tighter : Level → Level → Prop
  | or : Tighter .or .and
  | and : Tighter .and .equality
  | equality : Tighter .equality .comparison
  | comparison : Tighter .comparison .term
  | term : Tighter .term .factor

/-- The tokens that join two operands of a level, with the node that they make. -/
inductive Operator : Level → TokenKind → (Token → Expr → Expr → Expr) → Prop
  | or : Operator .or .kwOr (.logical .or)
  | and : Operator .and .kwAnd (.logical .and)
  | notEqual : Operator .equality .bangEqual (.binary .notEqual)
  | equal : Operator .equality .equalEqual (.binary .equal)
  | greater : Operator .comparison .greater (.binary .greater)
  | greaterEqual : Operator .comparison .greaterEqual (.binary .greaterEqual)
  | less : Operator .comparison .less (.binary .less)
  | lessEqual : Operator .comparison .lessEqual (.binary .lessEqual)
  | minus : Operator .term .minus (.binary .sub)
  | plus : Operator .term .plus (.binary .add)
  | slash : Operator .factor .slash (.binary .div)
  | star : Operator .factor .star (.binary .mul)

/-- The tokens that stand before one operand, with the operator that they mean. -/
inductive PrefixOperator : TokenKind → UnaryOp → Prop
  | bang : PrefixOperator .bang .not
  | minus : PrefixOperator .minus .negate

/-! ## Expressions -/

mutual

/-- An expression: an assignment, which groups to the right, or operators and operands. -/
inductive Expression : Type
  | assign (name : Word .identifier) (equals : Word .equal) (value : Expression)
  | set (object : Call) (dot : Word .dot) (property : Word .identifier) (equals : Word .equal)
      (value : Expression)
  | plain (e : Chain .or)

/-- Operands of a level, joined from the left by the operators of the level. -/
inductive Chain : Level → Type
  | single {level : Level} (e : Operand level) : Chain level
  | joined {level : Level} (left : Chain level) (op : Token) (node : Token → Expr → Expr → Expr)
      (means : Operator level op.kind node) (right : Operand level) : Chain level

/-- An operand of a level: what the tighter levels make, and unary expressions on the tightest. -/
inductive Operand : Level → Type
  | tighter {level level' : Level} (h : Tighter level level') (e : Chain level') : Operand level
  | unary (e : Unary) : Operand .factor

inductive Unary : Type
  | prefixed (op : Token) (meaning : UnaryOp) (means : PrefixOperator op.kind meaning)
      (right : Unary)
  | plain (e : Call)

/-- A primary form with the calls and property accesses after it. -/
inductive Call : Type
  | primary (e : Primary)
  | call (callee : Call) (openParen : Word .leftParen) (close : Word .rightParen)
  | callWith (callee : Call) (openParen : Word .leftParen) {count : Nat} (args : Arguments count)
      (few : count ≤ 255) (close : Word .rightParen)
  | get (object : Call) (dot : Word .dot) (property : Word .identifier)

/-- A number of arguments with commas between them. -/
inductive Arguments : Nat → Type
  | one (e : Expression) : Arguments 1
  | more {count : Nat} (e : Expression) (comma : Word .comma) (others : Arguments count) :
      Arguments (count + 1)

inductive Primary : Type
  /-- A number, a string, `true`, `false` or `nil`. -/
  | constant (token : Token) (value : Constant) (spells : token.constant? = some value)
  | name (token : Word .identifier)
  | thisWord (keyword : Word .kwThis)
  | superWord (keyword : Word .kwSuper) (dot : Word .dot) (method : Word .identifier)
  | group (openParen : Word .leftParen) (inner : Expression) (close : Word .rightParen)

end

mutual

/-- The tokens of an expression. -/
def Expression.tokens : Expression → List Token
  | .assign name equals value => name.1 :: equals.1 :: value.tokens
  | .set object dot property equals value =>
    object.tokens ++ dot.1 :: property.1 :: equals.1 :: value.tokens
  | .plain e => e.tokens

def Chain.tokens : {level : Level} → Chain level → List Token
  | _, .single e => e.tokens
  | _, .joined left op _ _ right => left.tokens ++ op :: right.tokens

def Operand.tokens : {level : Level} → Operand level → List Token
  | _, .tighter _ e => e.tokens
  | _, .unary e => e.tokens

def Unary.tokens : Unary → List Token
  | .prefixed op _ _ right => op :: right.tokens
  | .plain e => e.tokens

def Call.tokens : Call → List Token
  | .primary e => e.tokens
  | .call callee openParen close => callee.tokens ++ [openParen.1, close.1]
  | .callWith callee openParen args _ close =>
    callee.tokens ++ openParen.1 :: (args.tokens ++ [close.1])
  | .get object dot property => object.tokens ++ [dot.1, property.1]

def Arguments.tokens : {count : Nat} → Arguments count → List Token
  | _, .one e => e.tokens
  | _, .more e comma others => e.tokens ++ comma.1 :: others.tokens

def Primary.tokens : Primary → List Token
  | .constant token _ _ => [token]
  | .name token => [token.1]
  | .thisWord keyword => [keyword.1]
  | .superWord keyword dot method => [keyword.1, dot.1, method.1]
  | .group openParen inner close => openParen.1 :: (inner.tokens ++ [close.1])

end

mutual

/-- The abstract tree of an expression. -/
def Expression.tree : Expression → Expr
  | .assign name _ value => .assign ⟨name.1, none⟩ value.tree
  | .set object _ property _ value => .set object.tree property.1 value.tree
  | .plain e => e.tree

def Chain.tree : {level : Level} → Chain level → Expr
  | _, .single e => e.tree
  | _, .joined left op node _ right => node op left.tree right.tree

def Operand.tree : {level : Level} → Operand level → Expr
  | _, .tighter _ e => e.tree
  | _, .unary e => e.tree

def Unary.tree : Unary → Expr
  | .prefixed op meaning _ right => .unary meaning op right.tree
  | .plain e => e.tree

def Call.tree : Call → Expr
  | .primary e => e.tree
  | .call callee _ close => .call callee.tree close.1 []
  | .callWith callee _ args _ close => .call callee.tree close.1 args.trees
  | .get object _ property => .get object.tree property.1

def Arguments.trees : {count : Nat} → Arguments count → List Expr
  | _, .one e => [e.tree]
  | _, .more e _ others => e.tree :: others.trees

def Primary.tree : Primary → Expr
  | .constant _ value _ => .literal value
  | .name token => .name ⟨token.1, none⟩
  | .thisWord keyword => .thisRef ⟨keyword.1, none⟩
  | .superWord keyword _ method => .superRef ⟨keyword.1, none⟩ method.1
  | .group _ inner _ => .group inner.tree

end

/-! ## Statements without statements inside -/

/-- A variable declaration. -/
structure VarDecl where
  keyword : Word .kwVar
  name : Word .identifier
  init : Option (Word .equal × Expression)
  semicolon : Word .semicolon

/-- The tokens of a variable declaration after its keyword. -/
def VarDecl.clause (d : VarDecl) : List Token :=
  match d.init with
  | none => [d.name.1, d.semicolon.1]
  | some (equals, e) => d.name.1 :: equals.1 :: (e.tokens ++ [d.semicolon.1])

def VarDecl.tokens (d : VarDecl) : List Token := d.keyword.1 :: d.clause

def VarDecl.tree (d : VarDecl) : Stmt := .var d.name.1 (d.init.map (·.2.tree))

structure ExpressionStmt where
  e : Expression
  semicolon : Word .semicolon

def ExpressionStmt.tokens (s : ExpressionStmt) : List Token := s.e.tokens ++ [s.semicolon.1]

def ExpressionStmt.tree (s : ExpressionStmt) : Stmt := .expression s.e.tree

/-- The first clause of a loop header. -/
inductive ForInit where
  | absent (semicolon : Word .semicolon)
  | var (d : VarDecl)
  | expression (s : ExpressionStmt)

def ForInit.tokens : ForInit → List Token
  | .absent semicolon => [semicolon.1]
  | .var d => d.tokens
  | .expression s => s.tokens

def ForInit.tree? : ForInit → Option Stmt
  | .absent _ => none
  | .var d => some d.tree
  | .expression s => some s.tree

/-- The tokens of an expression that may be missing. -/
def optionalTokens (e : Option Expression) : List Token := (e.map (·.tokens)).getD []

/-- The parameters of a function, if it has any: a first one, and others with commas. -/
structure Parameters where
  first : Word .identifier
  others : List (Word .comma × Word .identifier)
  few : others.length + 1 ≤ 255

def Parameters.tokens (ps : Parameters) : List Token :=
  ps.first.1 :: ps.others.flatMap fun p => [p.1.1, p.2.1]

def Parameters.names (ps : Parameters) : List Token := ps.first.1 :: ps.others.map (·.2.1)

/-! ## Statements and declarations -/

mutual

inductive Declaration : Type
  | classDecl (keyword : Word .kwClass) (name : Word .identifier)
      (superclass : Option (Word .less × Word .identifier)) (openBrace : Word .leftBrace)
      (methods : List Function) (close : Word .rightBrace)
  | function (keyword : Word .kwFun) (f : Function)
  | var (d : VarDecl)
  | statement {takesElse : Bool} (s : Statement takesElse)

/-- A statement. The index says whether an `else` after the statement would be taken by an `if` in
it; the branch before an `else` is a statement that takes none. -/
inductive Statement : Bool → Type
  | expression (s : ExpressionStmt) : Statement false
  | print (keyword : Word .kwPrint) (s : ExpressionStmt) : Statement false
  | ret (keyword : Word .kwReturn) (value : Option Expression) (semicolon : Word .semicolon) :
      Statement false
  | block (openBrace : Word .leftBrace) (body : List Declaration) (close : Word .rightBrace) :
      Statement false
  | ifThen (keyword : Word .kwIf) (openParen : Word .leftParen) (test : Expression)
      (close : Word .rightParen) {takesElse : Bool} (yes : Statement takesElse) : Statement true
  | ifElse (keyword : Word .kwIf) (openParen : Word .leftParen) (test : Expression)
      (close : Word .rightParen) (yes : Statement false) (elseWord : Word .kwElse)
      {takesElse : Bool} (no : Statement takesElse) : Statement takesElse
  | whileLoop (keyword : Word .kwWhile) (openParen : Word .leftParen) (test : Expression)
      (close : Word .rightParen) {takesElse : Bool} (body : Statement takesElse) :
      Statement takesElse
  | forLoop (keyword : Word .kwFor) (openParen : Word .leftParen) (init : ForInit)
      (test : Option Expression) (semicolon : Word .semicolon) (update : Option Expression)
      (close : Word .rightParen) {takesElse : Bool} (body : Statement takesElse) :
      Statement takesElse

/-- A function or method from its name on. -/
inductive Function : Type
  | mk (name : Word .identifier) (openParen : Word .leftParen) (params : Option Parameters)
      (close : Word .rightParen) (openBrace : Word .leftBrace) (body : List Declaration)
      (closeBrace : Word .rightBrace)

end

mutual

/-- The tokens of a declaration. -/
def Declaration.tokens : Declaration → List Token
  | .classDecl keyword name superclass openBrace methods close =>
    keyword.1 :: name.1 :: ((superclass.map fun (less, super) => [less.1, super.1]).getD [] ++
      openBrace.1 :: (Function.tokensAll methods ++ [close.1]))
  | .function keyword f => keyword.1 :: f.tokens
  | .var d => d.tokens
  | .statement s => s.tokens

def Statement.tokens : {takesElse : Bool} → Statement takesElse → List Token
  | _, .expression s => s.tokens
  | _, .print keyword s => keyword.1 :: s.tokens
  | _, .ret keyword value semicolon => keyword.1 :: (optionalTokens value ++ [semicolon.1])
  | _, .block openBrace body close => openBrace.1 :: (Declaration.tokensAll body ++ [close.1])
  | _, .ifThen keyword openParen test close yes =>
    keyword.1 :: openParen.1 :: (test.tokens ++ close.1 :: yes.tokens)
  | _, .ifElse keyword openParen test close yes elseWord no =>
    keyword.1 :: openParen.1 :: (test.tokens ++ close.1 :: (yes.tokens ++ elseWord.1 :: no.tokens))
  | _, .whileLoop keyword openParen test close body =>
    keyword.1 :: openParen.1 :: (test.tokens ++ close.1 :: body.tokens)
  | _, .forLoop keyword openParen init test semicolon update close body =>
    keyword.1 :: openParen.1 :: (init.tokens ++ (optionalTokens test ++ semicolon.1 ::
      (optionalTokens update ++ close.1 :: body.tokens)))

def Function.tokens : Function → List Token
  | .mk name openParen params close openBrace body closeBrace =>
    name.1 :: openParen.1 :: ((params.map (·.tokens)).getD [] ++ close.1 :: openBrace.1 ::
      (Declaration.tokensAll body ++ [closeBrace.1]))

def Declaration.tokensAll : List Declaration → List Token
  | [] => []
  | d :: ds => d.tokens ++ Declaration.tokensAll ds

def Function.tokensAll : List Function → List Token
  | [] => []
  | f :: fs => f.tokens ++ Function.tokensAll fs

end

mutual

/-- The abstract tree of a declaration. -/
def Declaration.tree : Declaration → Stmt
  | .classDecl _ name superclass _ methods _ =>
    .classDecl name.1 (superclass.map fun (_, super) => ⟨super.1, none⟩) (Function.trees methods)
  | .function _ f => .function f.tree
  | .var d => d.tree
  | .statement s => s.tree

/-- The abstract tree of a statement. A loop with a header is a block of its first clause and a
plain loop, whose body is a block of the body and its last clause; a missing test is true, and a
missing clause needs no block. -/
def Statement.tree : {takesElse : Bool} → Statement takesElse → Stmt
  | _, .expression s => s.tree
  | _, .print _ s => .print s.e.tree
  | _, .ret keyword value _ => .ret keyword.1 (value.map (·.tree))
  | _, .block _ body _ => .block (Declaration.trees body)
  | _, .ifThen _ _ test _ yes => .ifThen test.tree yes.tree
  | _, .ifElse _ _ test _ yes _ no => .ifElse test.tree yes.tree no.tree
  | _, .whileLoop _ _ test _ body => .loop test.tree body.tree
  | _, .forLoop _ _ init test _ update _ body =>
    let round :=
      match update with
      | none => body.tree
      | some e => .block [body.tree, .expression e.tree]
    let loop :=
      match test with
      | none => .loop (.literal (.bool true)) round
      | some e => .loop e.tree round
    match init.tree? with
    | none => loop
    | some first => .block [first, loop]

def Function.tree : Function → FunDecl Stmt
  | .mk name _ params _ _ body _ => ⟨name.1, (params.map (·.names)).getD [], Declaration.trees body⟩

def Declaration.trees : List Declaration → List Stmt
  | [] => []
  | d :: ds => d.tree :: Declaration.trees ds

def Function.trees : List Function → List (FunDecl Stmt)
  | [] => []
  | f :: fs => f.tree :: Function.trees fs

end

theorem tree_forLoop (keyword : Word .kwFor) (openParen : Word .leftParen) (init : ForInit)
    (test : Option Expression) (semicolon : Word .semicolon) (update : Option Expression)
    (close : Word .rightParen) {takesElse : Bool} (body : Statement takesElse) :
    (Statement.forLoop keyword openParen init test semicolon update close body).tree =
      Stmt.forLoop init.tree? (test.map (·.tree)) (update.map (·.tree)) body.tree := by
  cases init <;> cases test <;> cases update <;> rfl

/-- A program is any number of declarations. -/
abbrev Program := List Declaration

def Program.tokens (p : Program) : List Token := Declaration.tokensAll p

def Program.tree (p : Program) : List Stmt := Declaration.trees p

end Lox.Surface

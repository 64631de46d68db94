import Lox.Scope
import Lox.Diagnostic

/-!
# Static rules

What the grammar allows and the language does not: declaring a name twice in a scope, reading a
variable in its own initializer, and misplaced `return`, `this`, `super` and superclasses.
-/

namespace Lox

/-- The nearest function around a statement. -/
inductive FunctionContext where
  | outside
  | plain
  | initializer
deriving DecidableEq, Repr

/-- The nearest class around an expression. -/
inductive ClassContext where
  | outside
  | plain
  | derived
deriving DecidableEq, Repr

/-! ## Single rules -/

/-- A scope declares a name once. -/
def Scopes.redeclared (scopes : Scopes) (name : Token) : List Diagnostic :=
  if (scopes.here? name.lexeme).isSome then [.ofToken name .alreadyDeclared] else []

/-- A variable is not read in its own initializer. -/
def Reference.premature (r : Reference) (scopes : Scopes) : List Diagnostic :=
  if scopes.here? r.name = some false then [.ofToken r.token .ownInitializer] else []

/-- `this` stands inside a class. -/
def ClassContext.thisRule (c : ClassContext) (keyword : Token) : List Diagnostic :=
  match c with
  | outside => [.ofToken keyword .thisOutsideClass]
  | plain | derived => []

/-- `super` stands inside a class with a superclass. -/
def ClassContext.superRule (c : ClassContext) (keyword : Token) : List Diagnostic :=
  match c with
  | outside => [.ofToken keyword .superOutsideClass]
  | plain => [.ofToken keyword .superWithoutSuperclass]
  | derived => []

/-- A return stands inside a function, and has no value in an initializer. -/
def FunctionContext.returnRule (f : FunctionContext) (keyword : Token) (hasValue : Bool) :
    List Diagnostic :=
  match f with
  | outside => [.ofToken keyword .topLevelReturn]
  | plain => []
  | initializer => if hasValue then [.ofToken keyword .initializerValue] else []

/-- A class does not inherit from itself. -/
def Reference.inheritanceRule (superclass : Reference) (name : Token) : List Diagnostic :=
  if superclass.name = name.lexeme then [.ofToken superclass.token .selfInheritance] else []

/-- The parameters of a function have different names. -/
def Scopes.paramRule (scopes : Scopes) : List Token → List Diagnostic
  | [] => []
  | param :: params => scopes.redeclared param ++ paramRule (scopes.declare param true) params

/-! ## Violations in a tree -/

mutual

/-- The violations in an expression, in the order in which they are found: the value of a property
assignment is looked at before its object. -/
def Expr.violations (c : ClassContext) (scopes : Scopes) : Expr → List Diagnostic
  | .literal _ => []
  | .group inner => inner.violations c scopes
  | .unary _ _ right => right.violations c scopes
  | .binary _ _ left right => left.violations c scopes ++ right.violations c scopes
  | .logical _ _ left right => left.violations c scopes ++ right.violations c scopes
  | .name ref => ref.premature scopes
  | .assign _ value => value.violations c scopes
  | .call callee _ args => callee.violations c scopes ++ Expr.violationsAll c scopes args
  | .get object _ => object.violations c scopes
  | .set object _ value => value.violations c scopes ++ object.violations c scopes
  | .thisRef ref => c.thisRule ref.token
  | .superRef ref _ => c.superRule ref.token

def Expr.violationsAll (c : ClassContext) (scopes : Scopes) : List Expr → List Diagnostic
  | [] => []
  | e :: es => e.violations c scopes ++ Expr.violationsAll c scopes es

end

mutual

/-- The violations in a statement. -/
def Stmt.violations (f : FunctionContext) (c : ClassContext) (scopes : Scopes) :
    Stmt → List Diagnostic
  | .expression e => e.violations c scopes
  | .print e => e.violations c scopes
  | .var name init =>
    scopes.redeclared name ++
      (init.map (·.violations c (scopes.declare name false))).getD []
  | .block body => Stmt.violationsAll f c ([] :: scopes) body
  | .ifThen test yes => test.violations c scopes ++ yes.violations f c scopes
  | .ifElse test yes no =>
    test.violations c scopes ++ yes.violations f c scopes ++ no.violations f c scopes
  | .loop test body => test.violations c scopes ++ body.violations f c scopes
  | .function decl =>
    scopes.redeclared decl.name ++
      FunDecl.violations .plain c (scopes.declare decl.name true) decl
  | .ret keyword value =>
    f.returnRule keyword value.isSome ++ (value.map (·.violations c scopes)).getD []
  | .classDecl name superclass methods =>
    let inner := scopes.declare name true
    scopes.redeclared name ++
      (superclass.map fun ref => ref.inheritanceRule name ++ ref.premature inner).getD [] ++
      FunDecl.violationsAll (if superclass.isSome then .derived else .plain)
        (inner.withClass superclass.isSome) methods

/-- The violations in consecutive statements, each in the scopes that the ones before it leave. -/
def Stmt.violationsAll (f : FunctionContext) (c : ClassContext) (scopes : Scopes) :
    List Stmt → List Diagnostic
  | [] => []
  | s :: ss => s.violations f c scopes ++ Stmt.violationsAll f c (s.declare scopes) ss

/-- The violations in a function whose body runs in the context `f`. -/
def FunDecl.violations (f : FunctionContext) (c : ClassContext) (scopes : Scopes) :
    FunDecl Stmt → List Diagnostic
  | ⟨_, params, body⟩ =>
    Scopes.paramRule ([] :: scopes) params ++
      Stmt.violationsAll f c (scopes.withParams params) body

/-- The violations in the methods of a class. -/
def FunDecl.violationsAll (c : ClassContext) (scopes : Scopes) :
    List (FunDecl Stmt) → List Diagnostic
  | [] => []
  | d :: ds =>
    FunDecl.violations (if d.isInitializer then .initializer else .plain) c scopes d ++
      FunDecl.violationsAll c scopes ds

end

end Lox

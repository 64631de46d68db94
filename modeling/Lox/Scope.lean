import Lox.Tree

/-!
# Lexical scope

Each use of a local name is bound to the scope that declares it, as the number of scopes in between.
Blocks and functions open a scope; a class opens one for `this` around its methods and, if it has a
superclass, one for `super` around that. Names that no scope binds are left to the globals.
-/

namespace Lox

/-! ## Scopes -/

/-- The names of one scope, newest first, each with whether its initializer is done. -/
abbrev Scope := List (String × Bool)

/-- The open scopes, innermost first. At the top level there is none. -/
abbrev Scopes := List Scope

namespace Scopes

/-- How many scopes out a name is bound. -/
def hops? : Scopes → String → Option Nat
  | [], _ => none
  | scope :: outer, name =>
    if (scope.lookup name).isSome then some 0 else (hops? outer name).map (· + 1)

/-- Binds a name in the innermost scope. Globals are not tracked. -/
def declare (scopes : Scopes) (name : Token) (ready : Bool) : Scopes :=
  match scopes with
  | [] => []
  | scope :: outer => ((name.lexeme, ready) :: scope) :: outer

/-- What the innermost scope knows about a name. -/
def here? (scopes : Scopes) (name : String) : Option Bool :=
  scopes.head?.bind (·.lookup name)

/-- The scope of a function as its body finds it: the parameters are bound. -/
def withParams (scopes : Scopes) (params : List Token) : Scopes :=
  params.foldl (fun scopes param => scopes.declare param true) ([] :: scopes)

/-- The scopes around the methods of a class. -/
def withClass (scopes : Scopes) (hasSuperclass : Bool) : Scopes :=
  [("this", true)] :: (if hasSuperclass then [("super", true)] :: scopes else scopes)

end Scopes

/-! ## Binding references -/

/-- Binds a reference to the innermost scope that has its name. -/
def Reference.bind (r : Reference) (scopes : Scopes) : Reference :=
  { r with hops := scopes.hops? r.name }

mutual

/-- Binds the references of an expression. -/
def Expr.bind (scopes : Scopes) : Expr → Expr
  | .literal c => .literal c
  | .group inner => .group (inner.bind scopes)
  | .unary op token right => .unary op token (right.bind scopes)
  | .binary op token left right => .binary op token (left.bind scopes) (right.bind scopes)
  | .logical op token left right => .logical op token (left.bind scopes) (right.bind scopes)
  | .name ref => .name (ref.bind scopes)
  | .assign ref value => .assign (ref.bind scopes) (value.bind scopes)
  | .call callee paren args => .call (callee.bind scopes) paren (Expr.bindAll scopes args)
  | .get object property => .get (object.bind scopes) property
  | .set object property value => .set (object.bind scopes) property (value.bind scopes)
  | .thisRef ref => .thisRef (ref.bind scopes)
  | .superRef ref method => .superRef (ref.bind scopes) method

def Expr.bindAll (scopes : Scopes) : List Expr → List Expr
  | [] => []
  | e :: es => e.bind scopes :: Expr.bindAll scopes es

end

/-- The scopes after a statement: a declaration binds its name in the innermost one. -/
def Stmt.declare (scopes : Scopes) : Stmt → Scopes
  | .var name _ => scopes.declare name true
  | .function decl => scopes.declare decl.name true
  | .classDecl name _ _ => scopes.declare name true
  | _ => scopes

mutual

/-- Binds the references of a statement. A variable is already bound, but not ready, in its own
initializer; a function and a class are bound in their own bodies. -/
def Stmt.bind (scopes : Scopes) : Stmt → Stmt
  | .expression e => .expression (e.bind scopes)
  | .print e => .print (e.bind scopes)
  | .var name init => .var name (init.map (·.bind (scopes.declare name false)))
  | .block body => .block (Stmt.bindAll ([] :: scopes) body)
  | .ifThen test yes => .ifThen (test.bind scopes) (yes.bind scopes)
  | .ifElse test yes no => .ifElse (test.bind scopes) (yes.bind scopes) (no.bind scopes)
  | .loop test body => .loop (test.bind scopes) (body.bind scopes)
  | .function decl => .function (FunDecl.bind (scopes.declare decl.name true) decl)
  | .ret keyword value => .ret keyword (value.map (·.bind scopes))
  | .classDecl name superclass methods =>
    let scopes := scopes.declare name true
    .classDecl name (superclass.map (·.bind scopes))
      (FunDecl.bindAll (scopes.withClass superclass.isSome) methods)

/-- Binds the references of consecutive statements, each in the scopes that the ones before it
leave. -/
def Stmt.bindAll (scopes : Scopes) : List Stmt → List Stmt
  | [] => []
  | s :: ss => s.bind scopes :: Stmt.bindAll (s.declare scopes) ss

def FunDecl.bind (scopes : Scopes) : FunDecl Stmt → FunDecl Stmt
  | ⟨name, params, body⟩ => ⟨name, params, Stmt.bindAll (scopes.withParams params) body⟩

def FunDecl.bindAll (scopes : Scopes) : List (FunDecl Stmt) → List (FunDecl Stmt)
  | [] => []
  | d :: ds => FunDecl.bind scopes d :: FunDecl.bindAll scopes ds

end

end Lox

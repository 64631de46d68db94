import Lox.Tree

/-!
# The references of a tree

Every use of a name in a tree, and the table of those that are bound to a local scope.
-/

namespace Lox

/-- What a name is used for. -/
inductive Use where
  | read
  | assign
  | thisWord
  | superWord
deriving DecidableEq, Repr

def Use.text : Use → String
  | .read => "variable"
  | .assign => "assign"
  | .thisWord => "this"
  | .superWord => "super"

mutual

/-- The references in an expression. -/
def Expr.references : Expr → List (Use × Reference)
  | .literal _ => []
  | .group inner => inner.references
  | .unary _ _ right => right.references
  | .binary _ _ left right => left.references ++ right.references
  | .logical _ _ left right => left.references ++ right.references
  | .name ref => [(.read, ref)]
  | .assign ref value => (.assign, ref) :: value.references
  | .call callee _ args => callee.references ++ Expr.referencesAll args
  | .get object _ => object.references
  | .set object _ value => object.references ++ value.references
  | .thisRef ref => [(.thisWord, ref)]
  | .superRef ref _ => [(.superWord, ref)]

def Expr.referencesAll : List Expr → List (Use × Reference)
  | [] => []
  | e :: es => e.references ++ Expr.referencesAll es

end

mutual

/-- The references in a statement; naming a superclass is a use of a variable. -/
def Stmt.references : Stmt → List (Use × Reference)
  | .expression e => e.references
  | .print e => e.references
  | .var _ init => (init.map (·.references)).getD []
  | .block body => Stmt.referencesAll body
  | .ifThen test yes => test.references ++ yes.references
  | .ifElse test yes no => test.references ++ yes.references ++ no.references
  | .loop test body => test.references ++ body.references
  | .function decl => FunDecl.references decl
  | .ret _ value => (value.map (·.references)).getD []
  | .classDecl _ superclass methods =>
    (superclass.map fun ref => (Use.read, ref)).toList ++ FunDecl.referencesAll methods

def Stmt.referencesAll : List Stmt → List (Use × Reference)
  | [] => []
  | s :: ss => s.references ++ Stmt.referencesAll ss

def FunDecl.references : FunDecl Stmt → List (Use × Reference)
  | ⟨_, _, body⟩ => Stmt.referencesAll body

def FunDecl.referencesAll : List (FunDecl Stmt) → List (Use × Reference)
  | [] => []
  | d :: ds => FunDecl.references d ++ FunDecl.referencesAll ds

end

/-- A reference that is bound to a local scope. -/
structure Binding where
  use : Use
  token : Token
  hops : Nat
deriving DecidableEq, Repr

/-- The bound references of a program, in the order in which they stand in the source. -/
def bindings (statements : List Stmt) : List Binding :=
  ((Stmt.referencesAll statements).filterMap fun (use, ref) =>
    ref.hops.map fun hops => ⟨use, ref.token, hops⟩).mergeSort fun a b =>
      a.token.offset ≤ b.token.offset

end Lox

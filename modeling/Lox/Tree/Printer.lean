import Lox.Tree
import Lox.Text.Quoted

/-!
# The debug form of a tree

A tree is printed as a nested form in parentheses, the name of the node first.
-/

namespace Lox

/-- A form: its head and its parts, between parentheses. -/
def form (head : String) (parts : List String) : String :=
  "(" ++ head ++ " " ++ " ".intercalate parts ++ ")"

/-- Strings are quoted, everything else is written as `print` does. -/
def Constant.debug : Constant → String
  | .string s => Text.quote s
  | c => c.text

mutual

def Expr.debug : Expr → String
  | .literal c => c.debug
  | .group inner => form "group" [inner.debug]
  | .unary op _ right => form op.symbol [right.debug]
  | .binary op _ left right => form op.symbol [left.debug, right.debug]
  | .logical op _ left right => form op.symbol [left.debug, right.debug]
  | .name ref => ref.name
  | .assign ref value => form "=" [ref.name, value.debug]
  | .call callee _ args => form "call" (callee.debug :: Expr.debugAll args)
  | .get object property => form "." [object.debug, property.lexeme]
  | .set object property value => form "=" [object.debug ++ "." ++ property.lexeme, value.debug]
  | .thisRef _ => "this"
  | .superRef _ method => "super." ++ method.lexeme

def Expr.debugAll : List Expr → List String
  | [] => []
  | e :: es => e.debug :: Expr.debugAll es

end

mutual

def Stmt.debug : Stmt → String
  | .expression e => form ";" [e.debug]
  | .print e => form "print" [e.debug]
  | .var name none => form "var" [name.lexeme]
  | .var name (some init) => form "var" [name.lexeme, "=", init.debug]
  | .block [] => "(block)"
  | .block (s :: body) => form "block" (s.debug :: Stmt.debugAll body)
  | .ifThen test yes => form "if" [test.debug, yes.debug]
  | .ifElse test yes no => form "if-else" [test.debug, yes.debug, no.debug]
  | .loop test body => form "while" [test.debug, body.debug]
  | .function decl => FunDecl.debug decl
  | .ret _ none => "(return)"
  | .ret _ (some value) => form "return" [value.debug]
  | .classDecl name superclass methods =>
    let heading :=
      match superclass with
      | some ref => [name.lexeme, "<", ref.name]
      | none => [name.lexeme]
    form "class" (heading ++ FunDecl.debugAll methods)

def Stmt.debugAll : List Stmt → List String
  | [] => []
  | s :: ss => s.debug :: Stmt.debugAll ss

def FunDecl.debug : FunDecl Stmt → String
  | ⟨name, params, body⟩ =>
    let heading := name.lexeme ++ "(" ++ " ".intercalate (params.map (·.lexeme)) ++ ")"
    form "fun" (heading :: Stmt.debugAll body)

def FunDecl.debugAll : List (FunDecl Stmt) → List String
  | [] => []
  | d :: ds => FunDecl.debug d :: FunDecl.debugAll ds

end

end Lox

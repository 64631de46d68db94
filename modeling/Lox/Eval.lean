import Lox.Machine

/-!
# Evaluation

The meaning of expressions and statements. Every function takes fuel, a bound on the depth of
evaluation; a run that ends without `Interrupt.outOfFuel` is the same under any larger bound.
-/

namespace Lox

/-- How a statement ends: by running off its end, or by a `return` on its way to the call that it
ends. -/
inductive Completion where
  | completed
  | returned (v : Value)
deriving DecidableEq, Repr

namespace Eval

open Exec

/-! ## Operators -/

def unaryOp (op : UnaryOp) (token : Token) (v : Value) : Exec Value :=
  match op, v with
  | .not, v => pure (.bool !v.truthy)
  | .negate, .number n => pure (.number n.negate)
  | .negate, _ => fault token .operandNotNumber

def addOp (token : Token) : Value → Value → Exec Value
  | .number a, .number b => pure (.number (a.add b))
  | .string a, .string b => pure (.string (a ++ b))
  | _, _ => fault token .operandsNotAddable

def numericOp (token : Token) (f : Number → Number → Value) : Value → Value → Exec Value
  | .number a, .number b => pure (f a b)
  | _, _ => fault token .operandsNotNumbers

def binaryOp (op : BinaryOp) (token : Token) (a b : Value) : Exec Value :=
  match op with
  | .equal => pure (.bool (a.same b))
  | .notEqual => pure (.bool !(a.same b))
  | .add => addOp token a b
  | .sub => numericOp token (fun a b => .number (a.sub b)) a b
  | .mul => numericOp token (fun a b => .number (a.mul b)) a b
  | .div => numericOp token (fun a b => .number (a.div b)) a b
  | .greater => numericOp token (fun a b => .bool (b.less a)) a b
  | .greaterEqual => numericOp token (fun a b => .bool (b.lessEq a)) a b
  | .less => numericOp token (fun a b => .bool (a.less b)) a b
  | .lessEqual => numericOp token (fun a b => .bool (a.lessEq b)) a b

/-- Whether the left operand alone decides. -/
def decides (op : LogicalOp) (left : Value) : Bool :=
  match op with
  | .or => left.truthy
  | .and => !left.truthy

/-! ## Properties -/

def getProperty (object : Value) (property : Token) : Exec Value :=
  match object with
  | .object id => do
    match ← make (·.getProperty id property.lexeme) with
    | some v => pure v
    | none => fault property (.undefinedProperty property.lexeme)
  | _ => fault property .propertyOfNonInstance

/-- The method of the superclass, bound to the receiver. -/
def superMethod (s : Setting) (ref : Reference) (method : Token) : Exec Value := do
  match ← superParts s ref with
  | (.cls c, .object o) =>
    match (← heap).findMethod? c method.lexeme with
    | some (_, f) => .function <$> make (·.bindMethod f o)
    | none => fault method (.undefinedProperty method.lexeme)
  | (.cls _, _) => throw (.broken .thisNotInstance)
  | (_, _) => throw (.broken .superNotClass)

/-! ## Callables -/

/-- What a call needs to know of a callee: its name in the trace, and how many arguments it
takes. -/
structure Callable where
  name : String
  arity : Int

def callable? (s : Setting) (h : Heap) : Value → Option Callable
  | .native id => s.natives[id]?.map fun native => ⟨native.name, native.arity⟩
  | .function f => some ⟨h.functionName f, h.functionArity f⟩
  | .cls c => some ⟨h.className c, h.classArity c⟩
  | _ => none

/-! ## Declarations -/

/-- The class that a superclass reference stands for. -/
def superclassOf (s : Setting) (superclass : Option Reference) : Exec (Option Id) :=
  match superclass with
  | none => pure none
  | some ref => do
    match ← read s ref with
    | .cls c => pure (some c)
    | _ => fault ref.token .superclassNotClass

/-- Declares a class. Its methods find the superclass in a frame of their own. -/
def declareClass (s : Setting) (name : Token) (superclass : Option Reference)
    (methods : List (FunDecl Stmt)) : Exec Unit := do
  let parent ← superclassOf s superclass
  let current := (← get).frame
  let frame ← match parent with
    | some c => make (·.newFrame ⟨[("super", .cls c)], some current⟩)
    | none => pure current
  let table ← make (·.newMethods frame methods)
  let c ← make (·.newClass ⟨name.lexeme, parent, table⟩)
  define name.lexeme (.cls c)

/-! ## Expressions and statements -/

mutual

def evaluate (s : Setting) : Nat → Expr → Exec Value
  | 0, _ => throw .outOfFuel
  | n + 1, e =>
    match e with
    | .literal c => pure c.value
    | .group inner => evaluate s n inner
    | .unary op token right => do
      let v ← evaluate s n right
      unaryOp op token v
    | .binary op token left right => do
      let a ← evaluate s n left
      let b ← evaluate s n right
      binaryOp op token a b
    | .logical op _ left right => do
      let a ← evaluate s n left
      if decides op a then pure a else evaluate s n right
    | .name ref => read s ref
    | .assign ref value => do
      let v ← evaluate s n value
      write s ref v
      pure v
    | .call callee paren args => do
      let f ← evaluate s n callee
      let vs ← evaluateAll s n args
      match callable? s (← heap) f with
      | none => fault paren .notCallable
      | some c =>
        if vs.length = c.arity then asCall s ⟨c.name, paren.line⟩ (apply s n f vs)
        else fault paren (.wrongArity c.arity vs.length)
    | .get object property => do
      let o ← evaluate s n object
      getProperty o property
    | .set object property value => do
      match ← evaluate s n object with
      | .object id =>
        let v ← evaluate s n value
        modify fun m => { m with heap := m.heap.setField id property.lexeme v }
        pure v
      | _ => fault property .fieldOfNonInstance
    | .thisRef ref => read s ref
    | .superRef ref method => superMethod s ref method

/-- The values of expressions, from left to right. -/
def evaluateAll (s : Setting) : Nat → List Expr → Exec (List Value)
  | 0, _ => throw .outOfFuel
  | _ + 1, [] => pure []
  | n + 1, e :: es => do
    let v ← evaluate s n e
    let vs ← evaluateAll s n es
    pure (v :: vs)

/-- Applies a callee to as many arguments as it takes. Calling a class makes an instance, whatever
its initializer returns. -/
def apply (s : Setting) : Nat → Value → List Value → Exec Value
  | 0, _, _ => throw .outOfFuel
  | n + 1, callee, args =>
    match callee with
    | .native id =>
      match s.natives[id]? with
      | some native => runNative native args
      | none => throw (.broken .dangling)
    | .function f => runFunction s n f args
    | .cls c => do
      let o ← make (·.newInstance c)
      match (← heap).initializer? c with
      | some init =>
        let f ← make (·.bindMethod init o)
        let _ ← runFunction s n f args
        pure (.object o)
      | none => pure (.object o)
    | _ => throw (.broken .dangling)

/-- Runs the body of a function in a new frame, in which the parameters are bound. An initializer
gives the instance it is bound to. -/
def runFunction (s : Setting) : Nat → Id → List Value → Exec Value
  | 0, _, _ => throw .outOfFuel
  | n + 1, f, args => do
    match (← heap).functions[f]? with
    | none => throw (.broken .dangling)
    | some closure =>
      let vars : Table Value :=
        Table.insertAll [] ((closure.decl.params.map (·.lexeme)).zip args)
      let frame ← make (·.newFrame ⟨vars, some closure.frame⟩)
      let ending ← inFrame frame (executeAll s n closure.decl.body)
      if closure.isInitializer then promised ((← heap).getAt closure.frame 0 "this")
      else
        match ending with
        | .returned v => pure v
        | .completed => pure .nil

def execute (s : Setting) : Nat → Stmt → Exec Completion
  | 0, _ => throw .outOfFuel
  | n + 1, stmt =>
    match stmt with
    | .expression e => do
      let _ ← evaluate s n e
      pure .completed
    | .print e => do
      let v ← evaluate s n e
      modify fun m => { m with printed := m.printed ++ m.heap.text v ++ "\n" }
      pure .completed
    | .var name init => do
      let v ← match init with
        | some e => evaluate s n e
        | none => pure .nil
      define name.lexeme v
      pure .completed
    | .block body => do
      let current := (← get).frame
      let frame ← make (·.newFrame ⟨[], some current⟩)
      inFrame frame (executeAll s n body)
    | .ifThen test yes => do
      let v ← evaluate s n test
      if v.truthy then execute s n yes else pure .completed
    | .ifElse test yes no => do
      let v ← evaluate s n test
      if v.truthy then execute s n yes else execute s n no
    | .loop test body => do
      let v ← evaluate s n test
      if v.truthy then
        match ← execute s n body with
        | .returned v => pure (.returned v)
        | .completed => execute s n stmt
      else pure .completed
    | .function decl => do
      let frame := (← get).frame
      let f ← make (·.newFunction ⟨decl, frame, false⟩)
      define decl.name.lexeme (.function f)
      pure .completed
    | .ret _ value => do
      let v ← match value with
        | some e => evaluate s n e
        | none => pure .nil
      pure (.returned v)
    | .classDecl name superclass methods => do
      declareClass s name superclass methods
      pure .completed

/-- Executes statements one after the other, up to the first return. -/
def executeAll (s : Setting) : Nat → List Stmt → Exec Completion
  | 0, _ => throw .outOfFuel
  | _ + 1, [] => pure .completed
  | n + 1, stmt :: stmts => do
    match ← execute s n stmt with
    | .returned v => pure (.returned v)
    | .completed => executeAll s n stmts

end

end Eval

end Lox

import Lox.Heap

/-!
# Classes, instances and methods

A property of an instance is a field of it or, failing that, a method of the nearest class from its
own class upwards. Reading a method binds it anew: a function of its own, in whose frame `this` is
the instance.
-/

namespace Lox

namespace Heap

/-! ## Methods -/

def superclass? (h : Heap) (c : Id) : Option Id := h.classes[c]?.bind (·.superclass)

/-- The functions declared in a class itself. -/
def methods (h : Heap) (c : Id) : Table Id := (h.classes[c]?.map (·.methods)).getD []

/-- At most `n` classes from `c` upwards. -/
def lineageWithin (h : Heap) : Nat → Id → List Id
  | 0, _ => []
  | n + 1, c =>
    c :: match h.superclass? c with
      | some p => lineageWithin h n p
      | none => []

/-- The classes from `c` upwards. -/
def lineage (h : Heap) (c : Id) : List Id := h.lineageWithin (c + 1) c

/-- The nearest class from `c` upwards that declares a method, and the method. -/
def findMethod? (h : Heap) (c : Id) (name : String) : Option (Id × Id) :=
  (h.lineage c).findSome? fun d => ((h.methods d).lookup name).map fun f => (d, f)

/-- The method that runs when a class is called. -/
def initializer? (h : Heap) (c : Id) : Option Id := (h.findMethod? c initName).map (·.2)

/-- Makes the methods of a class, which find their free names in `frame`. Of two methods of the same
name the later one counts. -/
def newMethods (h : Heap) (frame : Id) (decls : List (FunDecl Stmt)) : Table Id × Heap :=
  decls.foldl (fun (table, h) decl =>
    let (f, h) := h.newFunction ⟨decl, frame, decl.isInitializer⟩
    (table.insert decl.name.lexeme f, h)) ([], h)

/-- Binds a method to an instance. -/
def bindMethod (h : Heap) (method : Id) (object : Id) : Id × Heap :=
  match h.functions[method]? with
  | none => (method, h)
  | some closure =>
    let (frame, h) := h.newFrame ⟨[("this", .object object)], some closure.frame⟩
    h.newFunction { closure with frame }

/-! ## Fields and properties -/

/-- The fields of an instance. -/
def fields (h : Heap) (object : Id) : Table Value := (h.instances[object]?.map (·.fields)).getD []

/-- The class of an instance. -/
def classOf? (h : Heap) (object : Id) : Option Id := h.instances[object]?.map (·.cls)

/-- What a property name stands for on an instance. -/
inductive Property where
  | field (v : Value)
  | method (id : Id)
deriving DecidableEq, Repr

def property? (h : Heap) (object : Id) (name : String) : Option Property :=
  match (h.fields object).lookup name with
  | some v => some (.field v)
  | none =>
    (h.classOf? object).bind fun c => (h.findMethod? c name).map fun (_, f) => .method f

/-- Reads a property; `none` if the instance has no such property. -/
def getProperty (h : Heap) (object : Id) (name : String) : Option Value × Heap :=
  match h.property? object name with
  | none => (none, h)
  | some (.field v) => (some v, h)
  | some (.method f) =>
    let (bound, h) := h.bindMethod f object
    (some (.function bound), h)

/-- Sets a field. -/
def setField (h : Heap) (object : Id) (name : String) (v : Value) : Heap :=
  { h with
    instances := h.instances.modify object fun i => { i with fields := i.fields.insert name v } }

/-! ## Functions -/

def functionName (h : Heap) (f : Id) : String := (h.functions[f]?.map (·.decl.name.lexeme)).getD ""

def functionArity (h : Heap) (f : Id) : Nat := (h.functions[f]?.map (·.decl.params.length)).getD 0

def className (h : Heap) (c : Id) : String := (h.classes[c]?.map (·.name)).getD ""

/-- A class takes the arguments that its initializer takes. -/
def classArity (h : Heap) (c : Id) : Nat := ((h.initializer? c).map h.functionArity).getD 0

/-! ## Text -/

/-- The text that `print` writes for a value. -/
def text (h : Heap) : Value → String
  | .nil => Constant.text .nil
  | .bool b => Constant.text (.bool b)
  | .number n => n.text
  | .string s => s
  | .native _ => "<native fn>"
  | .function f => "<fn " ++ h.functionName f ++ ">"
  | .cls c => h.className c
  | .object o => ((h.classOf? o).map h.className).getD "" ++ " instance"

end Heap

end Lox

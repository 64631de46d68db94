import Lox.Table
import Lox.Tree
import Lox.Value

/-!
# The heap

Frames, functions, classes and instances, each kept at a place that never changes. A frame refers to
the frame around it, and a class to its superclass, by places that were taken earlier; so a chain of
such references is never longer than the place it starts from.
-/

namespace Lox

/-- The variables of one scope, and the frame around it. -/
structure Frame where
  vars : Table Value
  parent : Option Id
deriving Repr

/-- A function with the frame in which its body finds its free names. -/
structure Closure where
  decl : FunDecl Stmt
  frame : Id
  isInitializer : Bool
deriving Repr

structure Class where
  name : String
  superclass : Option Id
  /-- The functions declared in the class itself. -/
  methods : Table Id
deriving Repr

structure Instance where
  cls : Id
  fields : Table Value
deriving Repr

structure Heap where
  frames : Array Frame := #[]
  functions : Array Closure := #[]
  classes : Array Class := #[]
  instances : Array Instance := #[]
deriving Repr

namespace Heap

/-! ## Making objects -/

/-- Adds a frame. The result is its place and the heap with it. -/
def newFrame (h : Heap) (f : Frame) : Id × Heap :=
  (h.frames.size, { h with frames := h.frames.push f })

def newFunction (h : Heap) (c : Closure) : Id × Heap :=
  (h.functions.size, { h with functions := h.functions.push c })

def newClass (h : Heap) (c : Class) : Id × Heap :=
  (h.classes.size, { h with classes := h.classes.push c })

def newInstance (h : Heap) (cls : Id) : Id × Heap :=
  (h.instances.size, { h with instances := h.instances.push ⟨cls, []⟩ })

/-! ## Variables by name -/

/-- The variables of a frame. -/
def vars (h : Heap) (f : Id) : Table Value := (h.frames[f]?.map (·.vars)).getD []

/-- The frame around a frame. -/
def parent? (h : Heap) (f : Id) : Option Id := h.frames[f]?.bind (·.parent)

/-- At most `n` frames from `f` outwards. -/
def chainWithin (h : Heap) : Nat → Id → List Id
  | 0, _ => []
  | n + 1, f =>
    f :: match h.parent? f with
      | some p => chainWithin h n p
      | none => []

/-- The frames from `f` outwards. -/
def chain (h : Heap) (f : Id) : List Id := h.chainWithin (f + 1) f

/-- Binds a name in a frame. -/
def define (h : Heap) (f : Id) (name : String) (v : Value) : Heap :=
  { h with
    frames := h.frames.modify f fun frame => { frame with vars := frame.vars.insert name v } }

/-- The nearest frame outwards from `f` that binds a name. -/
def holder? (h : Heap) (f : Id) (name : String) : Option Id :=
  (h.chain f).find? fun g => (h.vars g).binds name

/-- The value of a name, seen from a frame. -/
def get? (h : Heap) (f : Id) (name : String) : Option Value :=
  (h.chain f).findSome? fun g => (h.vars g).lookup name

/-- Changes the binding that `get?` reads; fails if there is none. -/
def assign? (h : Heap) (f : Id) (name : String) (v : Value) : Option Heap :=
  (h.holder? f name).map fun g => h.define g name v

end Heap

/-! ## Variables by distance -/

/-- A promise of the binding pass that does not hold. -/
inductive Broken where
  | noScope (hops : Int)
  | notBound (name : String) (hops : Int)
  | unresolvedSuper
  | superNotClass
  | thisNotInstance
  | dangling
deriving DecidableEq, Repr

def Broken.message : Broken → String
  | noScope hops => "invariant: no scope " ++ toString hops ++ " hops out"
  | notBound name hops => "invariant: " ++ name ++ " not bound " ++ toString hops ++ " scopes out"
  | unresolvedSuper => "invariant: unresolved 'super'"
  | superNotClass => "invariant: 'super' is not a class"
  | thisNotInstance => "invariant: 'this' is not an instance"
  | dangling => "invariant: dangling reference"

namespace Heap

/-- The frame a number of steps outwards. -/
def ancestor? (h : Heap) (f : Id) : Nat → Option Id
  | 0 => some f
  | n + 1 => (h.parent? f).bind fun p => ancestor? h p n

/-- The frame `hops` steps outwards, which has to bind the name. A negative distance is no step at
all. -/
def slotAt (h : Heap) (f : Id) (hops : Int) (name : String) : Except Broken Id :=
  match h.ancestor? f hops.toNat with
  | none => .error (.noScope hops)
  | some g => if (h.vars g).binds name then .ok g else .error (.notBound name hops)

/-- The value of a name in the frame `hops` steps outwards, and in no other. -/
def getAt (h : Heap) (f : Id) (hops : Int) (name : String) : Except Broken Value :=
  match h.ancestor? f hops.toNat with
  | none => .error (.noScope hops)
  | some g =>
    match (h.vars g).lookup name with
    | some v => .ok v
    | none => .error (.notBound name hops)

/-- Changes the binding that `getAt` reads. -/
def assignAt (h : Heap) (f : Id) (hops : Int) (name : String) (v : Value) : Except Broken Heap :=
  (h.slotAt f hops name).map fun g => h.define g name v

end Heap

end Lox

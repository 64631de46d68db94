import Lox.Event
import Lox.Heap.Object
import Lox.Native

/-!
# The machine

The state of a running program and the steps that evaluation is made of. An action may end in a
value, in a fault of the program, in a broken promise of the binding pass, or for want of fuel. What
it did to the machine before that stays done.
-/

namespace Lox

/-- How references find their frames: by the distances found before the run, or by searching
outwards from the current frame. -/
inductive Scoping where
  | static
  | dynamic
deriving DecidableEq, Repr

/-- What does not change during a run. -/
structure Setting where
  /-- The path of the script, for the log. -/
  path : String
  natives : List Native
  scoping : Scoping := .static

/-- The active calls, innermost first, with their number. -/
structure CallStack where
  calls : List Call := []
  depth : Nat := 0
  depth_eq : depth = calls.length := by rfl

namespace CallStack

def push (s : CallStack) (c : Call) : CallStack :=
  ⟨c :: s.calls, s.depth + 1, by simp [s.depth_eq]⟩

def pop (s : CallStack) : CallStack := ⟨s.calls.tail, s.depth - 1, by simp [s.depth_eq]⟩

end CallStack

/-- The state of a run. -/
structure Machine where
  heap : Heap
  /-- The frame in which names are declared. -/
  frame : Id
  calls : CallStack := {}
  printed : String := ""
  log : Array Event := #[]
  clock : Clock

/-- The frame of the globals is the first one. -/
def globals : Id := 0

/-- The ways in which an action can end without a value. -/
inductive Interrupt where
  | fault (f : Fault)
  | broken (b : Broken)
  | outOfFuel
deriving DecidableEq, Repr

abbrev Exec := EStateM Interrupt Machine

namespace Machine

/-- A machine before its first program: the globals are the native functions. -/
def initial (natives : List Native) (clock : Clock) : Machine :=
  let vars : Table Value :=
    Table.insertAll [] (natives.zipIdx.map fun (native, id) => (native.name, .native id))
  { heap := (Heap.newFrame {} ⟨vars, none⟩).2, frame := globals, clock }

/-- The global variables with their printed values, by name. -/
def globalTexts (m : Machine) : List (String × String) :=
  (m.heap.vars globals).sorted.map fun (name, v) => (name, m.heap.text v)

/-- Adds an event to the log. -/
def record (m : Machine) (e : Event) : Machine := { m with log := m.log.push e }

end Machine

namespace Exec

variable {α : Type}

/-! ## Ending an action -/

@[inline] def fault (token : Token) (reason : Reason) : Exec α := throw (.fault ⟨token, reason, []⟩)

/-- The value, unless a promise was broken. -/
@[inline] def promised (r : Except Broken α) : Exec α :=
  match r with
  | .ok a => pure a
  | .error b => throw (.broken b)

/-! ## The heap -/

/-- Makes objects. -/
@[inline] def make (f : Heap → α × Heap) : Exec α :=
  modifyGet fun m =>
    let (a, heap) := f m.heap
    (a, { m with heap })

/-- Binds a name in a frame. -/
@[inline] def defineIn (frame : Id) (name : String) (v : Value) : Exec Unit :=
  modify fun m => { m with heap := m.heap.define frame name v }

/-- Binds a name in the current frame. -/
@[inline] def define (name : String) (v : Value) : Exec Unit :=
  modify fun m => { m with heap := m.heap.define m.frame name v }

/-- Reads what the heap says. -/
@[inline] def heap : Exec Heap := (·.heap) <$> get

/-! ## References -/

/-- The value of a name among the frames outwards from `frame`. -/
def lookUp (frame : Id) (token : Token) : Exec Value := do
  match (← heap).get? frame token.lexeme with
  | some v => pure v
  | none => fault token (.undefinedVariable token.lexeme)

/-- The value that a reference stands for. -/
def read (s : Setting) (ref : Reference) : Exec Value := do
  match s.scoping, ref.hops with
  | .static, some hops => promised ((← heap).getAt (← get).frame hops ref.name)
  | .static, none => lookUp globals ref.token
  | .dynamic, _ => lookUp (← get).frame ref.token

/-- Assigns to a name among the frames outwards from `frame`. -/
def assignFrom (frame : Id) (token : Token) (v : Value) : Exec Unit := do
  match (← heap).holder? frame token.lexeme with
  | some g => defineIn g token.lexeme v
  | none => fault token (.undefinedVariable token.lexeme)

/-- Assigns to a reference. -/
def write (s : Setting) (ref : Reference) (v : Value) : Exec Unit := do
  match s.scoping, ref.hops with
  | .static, some hops =>
    let g ← promised ((← heap).slotAt (← get).frame hops ref.name)
    defineIn g ref.name v
  | .static, none => assignFrom globals ref.token v
  | .dynamic, _ => assignFrom (← get).frame ref.token v

/-- The superclass and the receiver for `super`. The frame of `this` is always the one just inside
the frame of `super`. -/
def superParts (s : Setting) (ref : Reference) : Exec (Value × Value) := do
  match s.scoping, ref.hops with
  | .static, none => throw (.broken .unresolvedSuper)
  | .static, some hops =>
    let frame := (← get).frame
    let superclass ← promised ((← heap).getAt frame hops "super")
    let object ← promised ((← heap).getAt frame (hops - 1 : Int) "this")
    pure (superclass, object)
  | .dynamic, _ =>
    let frame := (← get).frame
    let superclass ← lookUp frame ref.token
    let object ← lookUp frame { ref.token with lexeme := "this" }
    pure (superclass, object)

/-! ## Frames and calls -/

/-- Runs an action in another frame, and comes back to the current one however the action ends. -/
@[inline] def inFrame (frame : Id) (act : Exec α) : Exec α := fun m =>
  let outer := m.frame
  match act { m with frame } with
  | .ok a m => .ok a { m with frame := outer }
  | .error e m => .error e { m with frame := outer }

/-- Runs an action as a call. A fault that leaves the call has the call added to its trace. -/
@[inline] def asCall (s : Setting) (call : Call) (act : Exec α) : Exec α := fun m =>
  let calls := m.calls.push call
  let m := { m with calls, log := m.log.push (.call s.path call calls.depth) }
  match act m with
  | .ok a m => .ok a { m with calls := m.calls.pop }
  | .error (.fault f) m => .error (.fault (f.leaving call)) { m with calls := m.calls.pop }
  | .error e m => .error e m

/-- Runs a native function. -/
def runNative (native : Native) (args : List Value) : Exec Value := fun m =>
  let (result, clock) := native.act args m.clock
  match result with
  | .ok v => .ok v { m with clock }
  | .error f => .error (.fault ⟨f.token, .native f.reason, []⟩) { m with clock }

end Exec

end Lox

import Lox.Scope.References
import Lox.Proofs.Actions
import Lox.Proofs.Activation
import Lox.Proofs.Edits

/-!
# What a task may do

A task goes from machine to machine by steps of its own (it takes up a value, edits the heap,
prints, reads the clock) and by running the tasks that it begins (`Passes`). It holds some values in
hand: those it was given, those it has taken from the heap, and the results of the tasks that it has
run. What it puts into the heap it has in hand (`Edit.Drawn`). It may be stopped on the way by an
interrupt of its own or by one of a task that it has begun (`Stopped`).

The actions that tasks are made of are such steps: looking names up, binding methods, declaring
classes, calling natives.
-/

namespace Lox

open Heap Exec Eval

/-! ## Running a task -/

/-- The values that a statement ends with. -/
def Completion.values : Completion → List Value
  | .completed => []
  | .returned v => [v]

namespace Task

/-- Runs a task, for the values that it comes to. -/
def run (s : Setting) (n : Nat) : Task → Exec (List Value)
  | .evaluate e => ([·]) <$> Eval.evaluate s n e
  | .evaluateAll es => Eval.evaluateAll s n es
  | .apply callee args => ([·]) <$> Eval.apply s n callee args
  | .runFunction f args => ([·]) <$> Eval.runFunction s n f args
  | .execute stmt => Completion.values <$> Eval.execute s n stmt
  | .executeAll stmts => Completion.values <$> Eval.executeAll s n stmts

/-- The values that a task is given. -/
def values : Task → List Value
  | .apply callee args => callee :: args
  | .runFunction f args => .function f :: args
  | _ => []

/-- The references in the code that a task is given. -/
def references : Task → List (Use × Reference)
  | .evaluate e => e.references
  | .evaluateAll es => Expr.referencesAll es
  | .apply _ _ | .runFunction _ _ => []
  | .execute stmt => stmt.references
  | .executeAll stmts => Stmt.referencesAll stmts

theorem run_zero (s : Setting) (task : Task) (m : Machine) :
    task.run s 0 m = .error .outOfFuel m := by
  cases task <;> rfl

end Task

/-! ## Steps of a task's own -/

/-- A value that can be read off the heap. -/
inductive Heap.Shows (h : Heap) : Value → Prop
  | plain {v} (hv : v.isPlain = true) : Shows h v
  | bound {f name v} (hl : (h.vars f).lookup name = some v) : Shows h v
  | field {o name v} (hl : (h.fields o).lookup name = some v) : Shows h v
  | method {c name f} (hl : (h.methods c).lookup name = some f) : Shows h (.function f)
  | function {f} (hf : f < h.functions.size) : Shows h (.function f)
  | cls {c} (hc : c < h.classes.size) : Shows h (.cls c)
  | object {o} (ho : o < h.instances.size) : Shows h (.object o)

/-- A frame that can be read off the machine. -/
inductive Machine.Place (m : Machine) (f : Id) : Prop
  | current (hf : f = m.frame)
  | closure {i : Id} {c : Closure} (hc : m.heap.functions[i]? = some c) (hf : c.frame = f)
  | there (hf : f < m.heap.frames.size)

theorem FunDecl.references_eq (d : FunDecl Stmt) :
    FunDecl.references d = Stmt.referencesAll d.body := by
  cases d
  rw [FunDecl.references]

theorem FunDecl.mem_referencesAll {d : FunDecl Stmt} {r : Use × Reference}
    (hr : r ∈ FunDecl.references d) :
    ∀ {ds : List (FunDecl Stmt)}, d ∈ ds → r ∈ FunDecl.referencesAll ds
  | e :: ds, hm => by
    rcases List.mem_cons.1 hm with rfl | hm
    · exact List.mem_append_left _ hr
    · exact List.mem_append_right _ (FunDecl.mem_referencesAll hr hm)

/-- A reference in the code of some function. -/
def Heap.Refers (h : Heap) (r : Use × Reference) : Prop :=
  ∃ (i : Id) (c : Closure), h.functions[i]? = some c ∧ r ∈ FunDecl.references c.decl

/-- What an edit is made of: values in hand, frames of the machine, and code that was there. -/
def Heap.Edit.Drawn (task : Task) (hand : List Value) (m : Machine) : Edit → Prop
  | .frame f => (∃ p, f.parent = some p ∧ m.Place p) ∧
      ∀ name v, f.vars.lookup name = some v → v ∈ hand
  | .function c => m.Place c.frame ∧
      ∀ r ∈ FunDecl.references c.decl, r ∈ task.references ∨ m.heap.Refers r
  | .cls c => (∀ q, c.superclass = some q → .cls q ∈ hand) ∧
      ∀ name f, c.methods.lookup name = some f → f < m.heap.functions.size
  | .object c => .cls c ∈ hand
  | .bind f _ v => m.Place f ∧ v ∈ hand
  | .field o _ v => .object o ∈ hand ∧ v ∈ hand

/-- An interrupt that has not left a call yet. -/
def Interrupt.Fresh (i : Interrupt) : Prop := ∀ f, i = .fault f → f.trace = []

theorem Interrupt.fresh_fault (token : Token) (reason : Reason) :
    (Interrupt.fault ⟨token, reason, []⟩).Fresh := by
  rintro _ ⟨⟩
  rfl

theorem Interrupt.fresh_broken (b : Broken) : (Interrupt.broken b).Fresh := by
  rintro _ ⟨⟩

/-- The interrupt after it has left a task, which has perhaps opened a call. -/
def Interrupt.out (i : Interrupt) (call? : Option Call) : Interrupt :=
  match call? with
  | some c => leaving c i
  | none => i

/-! ## The tasks that a task begins -/

/-- How a task lets another one in: as the machine stands, in another frame, or as a call. -/
inductive Door where
  | here
  | frame (g : Id)
  | call (c : Call)

namespace Door

/-- The machine behind the door. -/
def enter (s : Setting) : Door → Machine → Machine
  | .here, m => m
  | .frame g, m => { m with frame := g }
  | .call c, m => m.enter s c

/-- The machine `m` again, after what was let in has come to `m'`. -/
def leave : Door → Machine → Machine → Machine
  | .here, _, m' => m'
  | .frame _, m, m' => { m' with frame := m.frame }
  | .call _, _, m' => { m' with calls := m'.calls.pop }

/-- The machine `m` again, after what was let in has been interrupted in `m'`. -/
def stop : Door → Interrupt → Machine → Machine → Machine
  | .call _, i, _, m' => left i m'
  | door, _, m, m' => door.leave m m'

/-- The call that the door is for. -/
def call? : Door → Option Call
  | .call c => some c
  | _ => none

/-- The interrupt, after it has come through the door. -/
def through (door : Door) (i : Interrupt) : Interrupt := i.out door.call?

/-- The frame behind the door is there. -/
def Leads (m : Machine) : Door → Prop
  | .frame g => g < m.heap.frames.size
  | _ => True

end Door

/-- The closing parenthesis of a call. -/
def Expr.paren? : Expr → Option Token
  | .call _ paren _ => some paren
  | _ => none

def Task.paren? : Task → Option Token
  | .evaluate e => e.paren?
  | .evaluateAll _ | .apply _ _ | .runFunction _ _ | .execute _ | .executeAll _ => none

/-- The call that is made when `task` begins `task'` in the machine `m'`: the one of a call
expression that applies its callee, with the callee's name and the line of the closing
parenthesis. -/
def opened? (s : Setting) (task task' : Task) (m' : Machine) : Option Call :=
  match task' with
  | .apply f _ => task.paren?.bind fun paren =>
    (callable? s m'.heap f).map fun c => ⟨c.name, paren.line⟩
  | _ => none

/-- The task, with some values in hand, begins another one through a door. -/
structure Begins (s : Setting) (n : Nat) (task : Task) (m₀ : Machine) (hand : List Value)
    (m : Machine) (door : Door) (task' : Task) : Prop where
  calls : Calls s n task m₀ task' (door.enter s m)
  values : ∀ v ∈ task'.values, v ∈ hand
  opened : opened? s task task' (door.enter s m) = door.call?
  leads : door.Leads m

section
variable (s : Setting) (n : Nat) (task : Task) (m₀ : Machine)

/-- The machines that a task may pass through, begun in `m₀` with fuel `n + 1`, and what it has in
hand there (module doc). -/
inductive Passes : List Value → Machine → Prop
  | start : Passes task.values m₀
  | take {hand m v} (h : Passes hand m) (hv : m.heap.Shows v) : Passes (v :: hand) m
  | edit {hand m} {e : Edit} (h : Passes hand m) (he : e.Drawn task hand m) :
      Passes hand { m with heap := e.apply m.heap }
  | print {hand m text} (h : Passes hand m) : Passes hand { m with printed := m.printed ++ text }
  | tick {hand m clock} (h : Passes hand m) : Passes hand { m with clock }
  | native {hand m native args v clock} (h : Passes hand m) (hn : native ∈ s.natives)
      (ha : ∀ a ∈ args, a ∈ hand) (hv : native.act args m.clock = (.ok v, clock)) :
      Passes (v :: hand) { m with clock }
  | run {hand m door task' vs m'} (h : Passes hand m)
      (hb : Begins s n task m₀ hand m door task')
      (hr : task'.run s n (door.enter s m) = .ok vs m') : Passes (vs ++ hand) (door.leave m m')

/-- How a task may be interrupted: by itself, or by a task that it has begun. -/
inductive Stopped : Interrupt → Machine → Prop
  | own {hand m i} (h : Passes s n task m₀ hand m) (hi : i.Fresh) : Stopped i m
  | begun {hand m door task' i m'} (h : Passes s n task m₀ hand m)
      (hb : Begins s n task m₀ hand m door task')
      (hr : task'.run s n (door.enter s m) = .error i m') :
      Stopped (door.through i) (door.stop i m m')

/-- The task may come to `m` with some values in hand. -/
def Comes (vs : List Value) (m : Machine) : Prop :=
  ∃ hand, Passes s n task m₀ hand m ∧ ∀ v ∈ vs, v ∈ hand

end

/-! ## Looking something up -/

section
variable {s : Setting} {m : Machine}

/-- The action stopped by itself and changed nothing. -/
def Refused (m : Machine) (i : Interrupt) (m' : Machine) : Prop := m' = m ∧ i.Fresh

theorem refused_fault (m : Machine) (token : Token) (reason : Reason) :
    Refused m (.fault ⟨token, reason, []⟩) m :=
  ⟨rfl, Interrupt.fresh_fault token reason⟩

theorem refused_broken (m : Machine) (b : Broken) : Refused m (.broken b) m :=
  ⟨rfl, Interrupt.fresh_broken b⟩

theorem Raised.refused {m m' : Machine} {i : Interrupt} (h : Raised m i m') : Refused m i m' := by
  obtain ⟨rfl, token, reason, rfl⟩ := h
  exact refused_fault m' token reason

theorem Heap.lt_of_binds {h : Heap} {f : Id} {name : String} (hb : (h.vars f).binds name = true) :
    f < h.frames.size := by
  obtain ⟨v, hv⟩ := Table.binds_iff.1 hb
  obtain ⟨frame, hf, -⟩ := lookup_vars_eq_some hv
  exact (Array.getElem?_eq_some_iff.1 hf).1

theorem shows_of_getAt {h : Heap} {f : Id} {k : Int} {name : String} {v : Value}
    (hv : h.getAt f k name = .ok v) : h.Shows v := by
  unfold getAt at hv
  split at hv
  · cases hv
  · split at hv
    · rename_i hl
      cases hv
      exact .bound hl
    · cases hv

theorem lt_of_slotAt {h : Heap} {f g : Id} {k : Int} {name : String}
    (hg : h.slotAt f k name = .ok g) : g < h.frames.size := by
  unfold slotAt at hg
  split at hg
  · cases hg
  · split at hg
    · rename_i hb
      cases hg
      exact lt_of_binds hb
    · cases hg

theorem shows_lookUp (frame : Id) (token : Token) :
    Ends (lookUp frame token) m (fun v m' => m' = m ∧ m.heap.Shows v) (Refused m) := by
  unfold lookUp
  refine ends_bind (ends_of_ok rfl fun _ => ?_)
  cases hg : m.heap.get? frame token.lexeme with
  | none => exact ends_throw (refused_fault m _ _)
  | some v =>
    obtain ⟨g, -, hl⟩ := List.exists_of_findSome?_eq_some hg
    exact ends_pure ⟨rfl, .bound hl⟩

theorem shows_promised {r : Except Broken Value} (hr : ∀ v, r = .ok v → m.heap.Shows v) :
    Ends (promised r) m (fun v m' => m' = m ∧ m.heap.Shows v) (Refused m) := by
  cases r with
  | ok v => exact ends_pure ⟨rfl, hr v rfl⟩
  | error b => exact ends_throw (refused_broken m b)

theorem shows_read (ref : Reference) :
    Ends (read s ref) m (fun v m' => m' = m ∧ m.heap.Shows v) (Refused m) := by
  unfold Exec.read
  cases s.scoping with
  | static =>
    cases ref.hops with
    | none => exact shows_lookUp globals ref.token
    | some hops =>
      have hp := shows_promised (m := m) (r := m.heap.getAt m.frame hops ref.name)
        fun _ hv => shows_of_getAt hv
      exact hp
  | dynamic =>
    have hl := shows_lookUp (m := m) m.frame ref.token
    exact hl

theorem shows_superParts (ref : Reference) :
    Ends (superParts s ref) m (fun p m' => m' = m ∧ m.heap.Shows p.1 ∧ m.heap.Shows p.2)
      (Refused m) := by
  unfold superParts
  cases s.scoping with
  | static =>
    cases ref.hops with
    | none => exact ends_throw (refused_broken m _)
    | some hops =>
      refine ends_bind (ends_of_ok rfl fun _ => ends_bind (ends_of_ok rfl fun _ => ?_))
      refine (shows_promised fun _ hv => shows_of_getAt hv).bind fun v m₁ _ h1 => ?_
      obtain ⟨rfl, h1⟩ := h1
      refine ends_bind (ends_of_ok rfl fun _ => ?_)
      refine (shows_promised fun _ hv => shows_of_getAt hv).bind fun w m₂ _ h2 => ?_
      obtain ⟨rfl, h2⟩ := h2
      exact ends_pure ⟨rfl, h1, h2⟩
  | dynamic =>
    refine ends_bind (ends_of_ok rfl fun _ => ?_)
    refine (shows_lookUp _ _).bind fun v m₁ _ h1 => ?_
    obtain ⟨rfl, h1⟩ := h1
    refine (shows_lookUp _ _).bind fun w m₂ _ h2 => ?_
    obtain ⟨rfl, h2⟩ := h2
    exact ends_pure ⟨rfl, h1, h2⟩

theorem shows_superclassOf (superclass : Option Reference) :
    Ends (superclassOf s superclass) m
      (fun parent m' => m' = m ∧ ∀ q, parent = some q → m.heap.Shows (.cls q)) (Refused m) := by
  cases superclass with
  | none => exact ends_pure ⟨rfl, fun q hq => by cases hq⟩
  | some ref =>
    refine (shows_read ref).bind fun v m' _ hv => ?_
    obtain ⟨rfl, hv⟩ := hv
    cases v with
    | cls c => exact ends_pure ⟨rfl, fun q hq => by cases hq; exact hv⟩
    | _ => exact ends_throw (refused_fault m' _ _)

/-- Assigning binds the name in a frame that is there. -/
theorem ends_write_bind (ref : Reference) (v : Value) :
    Ends (write s ref v) m
      (fun _ m' => ∃ g, g < m.heap.frames.size ∧
        m' = { m with heap := m.heap.define g ref.name v }) (Refused m) := by
  have assign : ∀ frame, Ends (assignFrom frame ref.token v) m
      (fun _ m' => ∃ g, g < m.heap.frames.size ∧
        m' = { m with heap := m.heap.define g ref.name v }) (Refused m) := by
    intro frame
    unfold assignFrom
    refine ends_bind (ends_of_ok rfl fun _ => ?_)
    cases hh : m.heap.holder? frame ref.token.lexeme with
    | none => exact ends_throw (refused_fault m _ _)
    | some g =>
      have hb := List.find?_some hh
      exact ends_of_ok rfl ⟨g, lt_of_binds hb, rfl⟩
  unfold Exec.write
  cases s.scoping with
  | static =>
    cases ref.hops with
    | none => exact assign globals
    | some hops =>
      refine ends_bind (ends_of_ok rfl fun _ => ends_bind (ends_of_ok rfl fun _ => ?_))
      cases hs : m.heap.slotAt m.frame hops ref.name with
      | ok g => exact ends_bind (ends_of_ok rfl fun _ => ends_of_ok rfl ⟨g, lt_of_slotAt hs, rfl⟩)
      | error b => exact ends_bind (ends_of_error rfl (refused_broken m b))
  | dynamic => exact ends_bind (ends_of_ok rfl fun _ => assign m.frame)

end

/-! ## Steps along the way -/

section
variable {s : Setting} {n : Nat} {task : Task} {m₀ m : Machine} {hand : List Value}

theorem Passes.comes (h : Passes s n task m₀ hand m) {vs : List Value}
    (hv : ∀ v ∈ vs, v ∈ hand) : Comes s n task m₀ vs m :=
  ⟨hand, h, hv⟩

/-- The last value taken in hand is the result. -/
theorem Passes.comes_head {v : Value} (h : Passes s n task m₀ (v :: hand) m) :
    Comes s n task m₀ [v] m :=
  h.comes fun _ hw => List.mem_singleton.1 hw ▸ List.mem_cons_self

theorem Stopped.of_refused (h : Passes s n task m₀ hand m) {i : Interrupt} {m' : Machine}
    (hr : Refused m i m') : Stopped s n task m₀ i m' := by
  obtain ⟨rfl, hi⟩ := hr
  exact .own h hi

/-- A value that is looked up is taken in hand. -/
theorem Passes.look (h : Passes s n task m₀ hand m) {act : Exec Value}
    (hx : Ends act m (fun v m' => m' = m ∧ m.heap.Shows v) (Refused m)) :
    Ends act m (fun v m' => Passes s n task m₀ (v :: hand) m') (Stopped s n task m₀) :=
  hx.mono (fun v m' _ hv => by obtain ⟨rfl, hv⟩ := hv; exact h.take hv)
    fun _ _ hi => .of_refused h hi

/-- So is the value of an operator. -/
theorem Passes.operator (h : Passes s n task m₀ hand m) {act : Exec Value}
    (hx : Ends act m (fun v m' => m' = m ∧ v.isPlain = true) (Raised m)) :
    Ends act m (fun v m' => Passes s n task m₀ (v :: hand) m') (Stopped s n task m₀) :=
  h.look (hx.mono (fun _ _ _ hv => ⟨hv.1, .plain hv.2⟩) fun _ _ hi => hi.refused)

/-- Binding a method makes a frame for `this` and a function in it. -/
theorem Passes.bindMethod (h : Passes s n task m₀ hand m) {f o : Id}
    (hf : m.heap.Shows (.function f)) (ho : .object o ∈ hand) :
    Passes s n task m₀ (.function (m.heap.bindMethod f o).1 :: hand)
      { m with heap := (m.heap.bindMethod f o).2 } := by
  cases hc : m.heap.functions[f]? with
  | none =>
    have hb : m.heap.bindMethod f o = (f, m.heap) := by simp only [Heap.bindMethod, hc]
    rw [hb]
    exact h.take hf
  | some closure =>
    have h1 := h.edit (e := .frame ⟨[("this", .object o)], some closure.frame⟩)
      ⟨⟨_, rfl, .closure hc rfl⟩, fun name v hl => by
        simp only [List.lookup_cons, List.lookup_nil] at hl
        split at hl
        · cases hl
          exact ho
        · cases hl⟩
    have h2 := h1.edit (e := .function { closure with frame := m.heap.frames.size })
      ⟨.there (by simp [Edit.apply, Heap.newFrame]), fun r hr => .inr ⟨f, closure, hc, hr⟩⟩
    rw [bindMethod_eq hc]
    exact h2.take (.function (by simp [Edit.apply, Heap.newFunction, Heap.newFrame]))

theorem Passes.getProperty (h : Passes s n task m₀ hand m) {object : Value} (ho : object ∈ hand)
    (property : Token) :
    Ends (Eval.getProperty object property) m (fun v m' => Comes s n task m₀ [v] m')
      (Stopped s n task m₀) := by
  cases object with
  | object o =>
    have hget := Eval.getProperty_object o property m
    cases hp : m.heap.property? o property.lexeme with
    | none =>
      rw [hp] at hget
      exact ends_of_error hget (.own h (Interrupt.fresh_fault _ _))
    | some found =>
      rw [hp] at hget
      cases found with
      | field v => exact ends_of_ok hget (h.take (.field (field_of_property? hp))).comes_head
      | method f =>
        obtain ⟨_, _, -, -, hl⟩ := method_of_property? hp
        have hm : m.heap.Shows (.function f) := .method hl
        exact ends_of_ok hget (h.bindMethod hm ho).comes_head
  | _ => exact ends_throw (.own h (Interrupt.fresh_fault _ _))

theorem Passes.superMethod (h : Passes s n task m₀ hand m) (ref : Reference) (method : Token) :
    Ends (Eval.superMethod s ref method) m (fun v m' => Comes s n task m₀ [v] m')
      (Stopped s n task m₀) := by
  refine Ends.bind ((shows_superParts ref).mono (fun p m' _ hp => hp)
    fun _ _ hi => .of_refused h hi) fun p m₁ _ h1 => ?_
  obtain ⟨superclass, object⟩ := p
  obtain ⟨rfl, -, hthis⟩ := h1
  cases superclass with
  | cls c =>
    cases object with
    | object o =>
      refine ends_bind (ends_of_ok rfl fun _ => ?_)
      cases hm : m₁.heap.findMethod? c method.lexeme with
      | none => exact ends_throw (.own h (Interrupt.fresh_fault _ _))
      | some p =>
        have hf : m₁.heap.Shows (.function p.2) := .method (findMethod?_eq_some hm).2
        have hb := (h.take hthis).bindMethod hf List.mem_cons_self
        exact ends_map (ends_of_ok rfl hb.comes_head)
    | _ => exact ends_throw (.own h (Interrupt.fresh_broken _))
  | _ => exact ends_throw (.own h (Interrupt.fresh_broken _))

/-- Making the methods of a class adds one function for each. -/
theorem Passes.addMethods {frame : Id} : ∀ (ds : List (FunDecl Stmt)) (made : Table Id × Heap),
    frame = m.frame ∨ frame < made.2.frames.size →
      (∀ d ∈ ds, ∀ r ∈ FunDecl.references d, r ∈ task.references) →
      Passes s n task m₀ hand { m with heap := made.2 } →
      Passes s n task m₀ hand { m with heap := (ds.foldl (addMethod frame) made).2 }
  | [], _, _, _, hp => hp
  | d :: ds, made, hf, hds, hp => by
    have hplace : Machine.Place { m with heap := made.2 } frame := by
      rcases hf with hf | hf
      · exact .current hf
      · exact .there hf
    have he := hp.edit (e := .function ⟨d, frame, d.isInitializer⟩)
      ⟨hplace, fun r hr => .inl (hds d List.mem_cons_self r hr)⟩
    exact addMethods ds (addMethod frame made d) hf
      (fun e hm => hds e (List.mem_cons_of_mem d hm)) he

theorem Passes.classHeap (h : Passes s n task m₀ hand m) {name : String} {parent : Option Id}
    (hp : ∀ q, parent = some q → .cls q ∈ hand) {methods : List (FunDecl Stmt)}
    (hd : ∀ d ∈ methods, ∀ r ∈ FunDecl.references d, r ∈ task.references) :
    Comes s n task m₀ [] { m with heap := Lox.classHeap m.heap m.frame name parent methods } := by
  obtain ⟨g, h₁, hmf, hg, h1⟩ : ∃ g h₁, methodFrame m.heap m.frame parent = (g, h₁) ∧
      (g = m.frame ∨ g < h₁.frames.size) ∧ Passes s n task m₀ hand { m with heap := h₁ } := by
    cases parent with
    | none => exact ⟨_, _, rfl, .inl rfl, h⟩
    | some q =>
      have he := h.edit (e := .frame ⟨[("super", .cls q)], some m.frame⟩)
        ⟨⟨_, rfl, .current rfl⟩, fun name v hl => by
          simp only [List.lookup_cons, List.lookup_nil] at hl
          split at hl
          · cases hl
            exact hp q rfl
          · cases hl⟩
      exact ⟨_, _, rfl, .inr (by simp), he⟩
  have h2 := Passes.addMethods methods ([], h₁) hg hd h1
  rw [← newMethods_eq] at h2
  obtain ⟨-, -, htable⟩ := newMethods_spec h₁ g methods
  cases hnm : h₁.newMethods g methods with
  | mk table h₂ =>
    rw [hnm] at htable h2
    have h3 := h2.edit (e := .cls ⟨name, parent, table⟩) ⟨hp, fun name f hl => by
      obtain ⟨_, -, hf, -⟩ := htable name f hl
      exact (Array.getElem?_eq_some_iff.1 hf).1⟩
    have h4 := h3.take (v := .cls h₂.classes.size) (.cls (by simp [Edit.apply, Heap.newClass]))
    have h5 := h4.edit (e := .bind m.frame name (.cls h₂.classes.size))
      ⟨.current rfl, List.mem_cons_self⟩
    have heq : Lox.classHeap m.heap m.frame name parent methods =
        h₂.declared m.frame name ⟨name, parent, table⟩ := by
      simp only [Lox.classHeap, hmf, hnm]
    rw [heq]
    exact h5.comes fun v hv => by cases hv

theorem Passes.runNative (h : Passes s n task m₀ hand m) {native : Native} (hn : native ∈ s.natives)
    {args : List Value} (ha : ∀ a ∈ args, a ∈ hand) :
    Ends (Exec.runNative native args) m (fun v m' => Comes s n task m₀ [v] m')
      (Stopped s n task m₀) := by
  cases hact : native.act args m.clock with
  | mk result clock =>
    cases result with
    | ok v =>
      exact ends_of_ok (a := v) (t := { m with clock }) (by simp only [Exec.runNative, hact])
        (h.native hn ha hact).comes_head
    | error f =>
      exact ends_of_error (e := .fault ⟨f.token, .native f.reason, []⟩) (t := { m with clock })
        (by simp only [Exec.runNative, hact]) (.own h.tick (Interrupt.fresh_fault _ _))

end

end Lox

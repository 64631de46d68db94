import Lox.Proofs.HeapOrder
import Lox.Proofs.Lasting

/-!
# Classes and initializers, called

A method that is read from an instance or through `super` is bound to the instance, as a function of
its own (`Heap.BoundTo`). It stays bound to it for the rest of the session, so what it is bound to
can be read off the heap at the end. The methods that run as initializers are those that stand in
their class under the name `init` (`Heap.Named`).

Main statement: a call of a class gives a new instance of it, and a call of a method called `init`
gives the instance that the method is bound to (`calls_give_instances`).
-/

namespace Lox

open Heap Exec Eval

namespace Heap

/-! ## Methods and their names -/

/-- The function goes by the name, and it is an initializer just if the name is `init`. -/
def GoesBy (h : Heap) (f : Id) (name : String) : Prop :=
  ∃ closure, h.functions[f]? = some closure ∧ closure.decl.name.lexeme = name ∧
    closure.isInitializer = (name == initName)

/-- The methods of every class stand under the names that they go by. -/
def Named (h : Heap) : Prop :=
  ∀ (c f : Id) (name : String), (h.methods c).lookup name = some f → h.GoesBy f name

theorem Grows.goesBy {h h' : Heap} (g : h.Grows h') {f : Id} {name : String}
    (hf : h.GoesBy f name) : h'.GoesBy f name := by
  obtain ⟨closure, hc, hrest⟩ := hf
  exact ⟨closure, g.functions hc, hrest⟩

theorem goesBy_newMethods (h : Heap) (frame : Id) (decls : List (FunDecl Stmt)) (name : String)
    (f : Id) (hl : (h.newMethods frame decls).1.lookup name = some f) :
    (h.newMethods frame decls).2.GoesBy f name := by
  obtain ⟨-, -, htable⟩ := newMethods_spec h frame decls
  obtain ⟨decl, -, hc, rfl⟩ := htable name f hl
  exact ⟨_, hc, rfl, rfl⟩

theorem methods_congr {h h' : Heap} {c : Id} (hc : h'.classes[c]? = h.classes[c]?) :
    h'.methods c = h.methods c := by
  simp only [Heap.methods, hc]

theorem methods_declared (h : Heap) (f : Id) (name : String) (C : Class) (c : Id) :
    (h.declared f name C).methods c = if c = h.classes.size then C.methods else h.methods c := by
  simp only [Heap.methods, declared, newClass, Heap.define, Array.getElem?_push]
  split <;> rfl

/-- A class declaration makes the methods of its class, and leaves those of the others. -/
theorem methods_classHeap (h : Heap) (current : Id) (name : String) (parent : Option Id)
    (methods : List (FunDecl Stmt)) (c : Id) :
    let (frame, h₁) := methodFrame h current parent
    (classHeap h current name parent methods).methods c =
      if c = h.classes.size then (h₁.newMethods frame methods).1 else h.methods c := by
  let made := (methodFrame h current parent).2.newMethods (methodFrame h current parent).1 methods
  have hclasses : made.2.classes = h.classes := by
    obtain ⟨-, ⟨functions, hfun⟩, -⟩ := newMethods_spec (methodFrame h current parent).2
      (methodFrame h current parent).1 methods
    rw [show made.2 = _ from hfun]
    cases parent <;> rfl
  change (made.2.declared current name ⟨name, parent, made.1⟩).methods c = _
  rw [methods_declared, hclasses]
  split
  · rfl
  · exact methods_congr (congrArg (·[c]?) hclasses)

/-- Methods keep their names. -/
theorem lasts_named : Lasts Named where
  grows hn g hc := by
    intro c f name hl
    rw [methods_congr (congrArg (·[c]?) hc)] at hl
    exact g.goesBy (hn c f name hl)
  declares {h current name parent methods} hn g := by
    intro c f other hl
    rw [methods_classHeap] at hl
    split at hl
    · obtain ⟨closure, hf, hrest⟩ := goesBy_newMethods _ _ methods other f hl
      exact ⟨closure, hf, hrest⟩
    · exact g.goesBy (hn c f other hl)

/-! ## Bound methods -/

/-- The function `f` is the method, bound to the instance: it has the method's code and a frame of
its own, which stands inside the method's frame and holds the instance as `this`. -/
def BoundTo (h : Heap) (method f object : Id) : Prop :=
  ∃ closure frame, h.functions[method]? = some closure ∧
    h.functions[f]? = some { closure with frame } ∧ h.parent? frame = some closure.frame ∧
    (h.vars frame).lookup "this" = some (.object object)

/-- The function `f` is a method that some class has under the name, bound to the instance. -/
def Bound (h : Heap) (name : String) (f object : Id) : Prop :=
  ∃ c method, (h.methods c).lookup name = some method ∧ h.BoundTo method f object

theorem boundTo_bindMethod {h : Heap} {method : Id} {closure : Closure}
    (hc : h.functions[method]? = some closure) (o : Id) :
    (h.bindMethod method o).2.BoundTo method (h.bindMethod method o).1 o := by
  refine ⟨closure, h.frames.size, (grows_bindMethod h method o).functions hc,
    getElem?_bindMethod hc o, ?_, ?_⟩
  · rw [bindMethod_eq hc]
    exact parent?_newFrame_self h _
  · rw [bindMethod_eq hc]
    have hvars := vars_newFrame_self h ⟨[("this", .object o)], some closure.frame⟩
    exact congrArg (·.lookup "this") hvars

theorem bound_bindMethod {h : Heap} {c method : Id} {closure : Closure} {name : String}
    (hl : (h.methods c).lookup name = some method) (hc : h.functions[method]? = some closure)
    (o : Id) : (h.bindMethod method o).2.Bound name (h.bindMethod method o).1 o := by
  refine ⟨c, method, ?_, boundTo_bindMethod hc o⟩
  simpa only [Heap.methods, classes_bindMethod] using hl

section
variable {h h' : Heap} (g : h.Grows h')
include g

theorem Grows.methods {c f : Id} {name : String} (hl : (h.methods c).lookup name = some f) :
    (h'.methods c).lookup name = some f := by
  cases hc : h.classes[c]? with
  | none => simp [Heap.methods, hc] at hl
  | some C =>
    rwa [methods_congr ((g.classes hc).trans hc.symm)]

theorem Grows.boundTo {method f o : Id} (hb : h.BoundTo method f o) : h'.BoundTo method f o := by
  obtain ⟨closure, frame, hm, hf, hp, ht⟩ := hb
  exact ⟨closure, frame, g.functions hm, g.functions hf, g.parent? hp, g.word (.inl rfl) ht⟩

theorem Grows.bound {name : String} {f o : Id} (hb : h.Bound name f o) : h'.Bound name f o := by
  obtain ⟨c, method, hl, hb⟩ := hb
  exact ⟨c, method, g.methods hl, g.boundTo hb⟩

/-! ## The initializer of a class -/

/-- A class goes on finding the methods that it finds. -/
theorem Grows.findMethod? (hlt : ∀ {c p : Id}, h.superclass? c = some p → p < c) {c : Id}
    (hc : c < h.classes.size) (name : String) : h'.findMethod? c name = h.findMethod? c name := by
  have hclass : ∀ {d}, d < h.classes.size → h'.classes[d]? = h.classes[d]? := by
    intro d hd
    have hold := Array.getElem?_eq_getElem hd
    rw [hold, g.classes hold]
  have key : ∀ n d, d < h.classes.size →
      ((h'.lineageWithin n d).findSome? fun e => ((h'.methods e).lookup name).map (e, ·)) =
        (h.lineageWithin n d).findSome? fun e => ((h.methods e).lookup name).map (e, ·) := by
    intro n
    induction n with
    | zero => exact fun _ _ => rfl
    | succ n ih =>
      intro d hd
      have hm : h'.methods d = h.methods d := methods_congr (hclass hd)
      have hs : h'.superclass? d = h.superclass? d := by simp only [Heap.superclass?, hclass hd]
      simp only [lineageWithin, List.findSome?_cons, hm, hs]
      split
      · rfl
      · cases hp : h.superclass? d with
        | none => rfl
        | some p => exact ih p (Nat.lt_trans (hlt hp) hd)
  exact key (c + 1) c hc

theorem Grows.initializer? (hlt : ∀ {c p : Id}, h.superclass? c = some p → p < c) {c : Id}
    (hc : c < h.classes.size) : h'.initializer? c = h.initializer? c := by
  unfold Heap.initializer?
  rw [g.findMethod? hlt hc]

theorem Grows.functionArity {f : Id} {closure : Closure} (hf : h.functions[f]? = some closure) :
    h'.functionArity f = h.functionArity f := by
  simp only [Heap.functionArity, hf, g.functions hf]

end

/-- The initializer that a class finds is a method of its own or of an ancestor. -/
theorem initializer?_eq_some {h : Heap} {c init : Id} (hi : h.initializer? c = some init) :
    ∃ d, h.Descends c d ∧ (h.methods d).lookup initName = some init := by
  obtain ⟨⟨d, f⟩, hf, rfl⟩ := Option.map_eq_some_iff.1 hi
  exact ⟨d, findMethod?_eq_some hf⟩

/-- A method of a sound heap is a function. -/
theorem Sound.exists_method {L : Ledger} {h : Heap} (hs : h.Sound L) {c f : Id} {name : String}
    (hl : (h.methods c).lookup name = some f) : ∃ closure, h.functions[f]? = some closure := by
  obtain ⟨closure, -, -, -, -, -, hc, -⟩ := hs.methods hl
  exact ⟨closure, hc⟩

theorem Grows.classArity {L : Ledger} {h h' : Heap} (g : h.Grows h') (hs : h.Sound L) {c : Id}
    (hc : c < h.classes.size) : h'.classArity c = h.classArity c := by
  unfold Heap.classArity
  rw [g.initializer? hs.supers hc]
  cases hi : h.initializer? c with
  | none => rfl
  | some init =>
    obtain ⟨d, -, hl⟩ := initializer?_eq_some hi
    obtain ⟨closure, hf⟩ := hs.exists_method hl
    exact g.functionArity hf

/-- A bound method takes the arguments that the method takes. -/
theorem BoundTo.functionArity {h : Heap} {method f o : Id} (hb : h.BoundTo method f o) :
    h.functionArity f = h.functionArity method := by
  obtain ⟨closure, frame, hm, hf, -⟩ := hb
  simp [Heap.functionArity, hm, hf]

/-- The class of an instance lasts, and so does the value of `this` in a frame. -/
theorem lasts_classOf? (o c : Id) : Lasts (·.classOf? o = some c) where
  grows h g _ := g.classOf? h
  declares h g := g.classOf? h

theorem lasts_this (f : Id) (v : Value) : Lasts fun h => (h.vars f).lookup "this" = some v where
  grows h g _ := g.word (.inl rfl) h
  declares h g := g.word (.inl rfl) h

end Heap

namespace Session

/-! ## Calls that are made -/

/-- A call expression, evaluated in a session with fuel `fuel + 1`, that has got its callee and its
arguments. -/
structure Calling (s : Setting) (clock : Clock) (runs : List (Nat × String)) where
  fuel : Nat
  callee : Expr
  paren : Token
  args : List Expr
  /-- The machine in which the call expression begins. -/
  before : Machine
  /-- The machine that has the callee. -/
  between : Machine
  /-- The machine that has the callee and the arguments. -/
  machine : Machine
  value : Value
  values : List Value
  moment : Moment s clock runs (fuel + 1) (.evaluate (.call callee paren args)) before
  called : evaluate s fuel callee before = .ok value between
  supplied : evaluateAll s fuel args between = .ok values machine

namespace Calling

section
variable {s : Setting} {clock : Clock} {runs : List (Nat × String)} (x : Calling s clock runs)

/-- What the call expression comes to. -/
def result : EStateM.Result Interrupt Machine Value :=
  evaluate s (x.fuel + 1) (.call x.callee x.paren x.args) x.before

/-- The place of the next instance that is made. -/
def new : Id := x.machine.heap.instances.size

/-- The call that is noted when the callee has this name. -/
def noted (name : String) : Call := ⟨name, x.paren.line⟩

variable {x} {c : Callable} (hc : callable? s x.machine.heap x.value = some c)
include hc

/-- A call with as many arguments as the callee takes applies it. -/
theorem result_of_eq (hl : (x.values.length : Int) = c.arity) :
    x.result = asCall s (x.noted c.name) (apply s x.fuel x.value x.values) x.machine := by
  refine (bind_ok x.called).trans ((bind_ok x.supplied).trans ((heap_bind _ _).trans ?_))
  simp only [hc, hl, if_true]
  rfl

/-- A call with more or fewer does not. -/
theorem result_of_ne (hl : (x.values.length : Int) ≠ c.arity) :
    x.result = .error (.fault ⟨x.paren, .wrongArity c.arity x.values.length, []⟩) x.machine := by
  refine (bind_ok x.called).trans ((bind_ok x.supplied).trans ((heap_bind _ _).trans ?_))
  simp only [hc, hl, if_false]
  rfl

theorem calls (hl : (x.values.length : Int) = c.arity) :
    Moment s clock runs x.fuel (.apply x.value x.values) (x.machine.enter s (x.noted c.name)) :=
  x.moment.call (.apply x.called x.supplied hc hl)

/-- A call that comes back has applied the callee. -/
theorem of_result_ok {v : Value} {m' : Machine} (h : x.result = .ok v m') :
    (x.values.length : Int) = c.arity ∧ ∃ m₁,
      apply s x.fuel x.value x.values (x.machine.enter s (x.noted c.name)) = .ok v m₁ ∧
        m'.heap = m₁.heap := by
  by_cases hl : (x.values.length : Int) = c.arity
  · rw [result_of_eq hc hl] at h
    refine ⟨hl, ?_⟩
    cases ha : apply s x.fuel x.value x.values (x.machine.enter s (x.noted c.name)) with
    | ok w m₁ =>
      cases (asCall_ok ha).symm.trans h
      exact ⟨m₁, rfl, rfl⟩
    | error i m₁ => cases (asCall_error ha).symm.trans h
  · cases (result_of_ne hc hl).symm.trans h

end

/-- What a call of the class `c` comes to, told by the heap at the end of the session. -/
structure Constructs {s : Setting} {clock : Clock} {runs : List (Nat × String)}
    (x : Calling s clock runs) (c : Id) (last : Heap) : Prop where
  /-- A call that comes back gives a new instance of the class. -/
  gives : ∀ v m', x.result = .ok v m' →
    v = .object x.new ∧ m'.heap.classOf? x.new = some c ∧ last.classOf? x.new = some c
  /-- No value that was there before is that instance. -/
  fresh : ∀ v, x.before.heap.Shows v ∨ x.machine.heap.Shows v ∨ v ∈ x.values → v ≠ .object x.new
  /-- A call with the wrong number of arguments is refused. -/
  refuses : (x.values.length : Int) ≠ last.classArity c → x.result =
    .error (.fault ⟨x.paren, .wrongArity (last.classArity c) x.values.length, []⟩) x.machine
  /-- A class without an initializer takes no arguments, and its calls do not fail. -/
  bare : last.initializer? c = none → last.classArity c = 0 ∧
    ∀ k, x.fuel = k + 1 → x.values = [] → ∃ m', x.result = .ok (.object x.new) m'
  /-- A class takes the arguments that its initializer takes; it runs the initializer, bound to the
  new instance, and fails just if this fails, with the same error. -/
  initializes : ∀ init, last.initializer? c = some init →
    ∀ k, x.fuel = k + 1 → (x.values.length : Int) = last.classArity c →
      ∃ f m, Calls s k (.apply x.value x.values)
          (x.machine.enter s (x.noted (x.machine.heap.className c))) (.runFunction f x.values) m ∧
        last.BoundTo init f x.new ∧ last.functionArity f = last.classArity c ∧
        ∀ i m', x.result = .error i m' ↔ ∃ j m₁, runFunction s k f x.values m = .error j m₁ ∧
          i = leaving (x.noted (x.machine.heap.className c)) j ∧ m' = left j m₁

end Calling

section
variable {s : Setting} {clock : Clock} {runs : List (Nat × String)}
  (w : Watched s (ledger s clock runs) (Moment s clock runs))
include w

/-- Where a call has its callee and its arguments, the heap is sound and the callee is in it; and
the heaps that the call has gone through grow into one another. -/
theorem Calling.sound (x : Calling s clock runs) :
    x.machine.heap.Sound (ledger s clock runs) ∧ x.machine.heap.Has (ledger s clock runs) x.value ∧
      x.before.heap.Grows x.machine.heap ∧
      x.machine.heap.Grows (after s clock runs).heap := by
  have hcallee := x.moment.call .callee
  have hargs := x.moment.call (.arguments x.called)
  obtain ⟨hs, site, hr⟩ := hcallee.ready w
  obtain ⟨hs₁, site₁, hr₁⟩ := hargs.ready w
  obtain ⟨g, hv⟩ := Ends.ok (x := evaluate s x.fuel x.callee) (Task.kept w _ hcallee hs hr) x.called
  obtain ⟨g₁, -⟩ := Ends.ok (x := evaluateAll s x.fuel x.args) (Task.kept w _ hargs hs₁ hr₁)
    x.supplied
  exact ⟨g₁.sound, g₁.grows.has hv, g.grows.trans g₁.grows,
    Ends.ok (x := evaluateAll s x.fuel x.args) (hargs.grows_after w).2 x.supplied⟩

end

/-! ## Calls of classes -/

section
variable {s : Setting} {k : Nat} {c : Id} {args : List Value} {m : Machine}

theorem initializer?_withInstance (m : Machine) (c d : Id) :
    (m.withInstance c).heap.initializer? d = m.heap.initializer? d := by
  have hclasses : (m.withInstance c).heap.classes = m.heap.classes := rfl
  unfold Heap.initializer?
  rw [findMethod?_congr hclasses]

/-- A class without an initializer makes an instance and no more. -/
theorem apply_cls_of_none (hi : (m.withInstance c).heap.initializer? c = none) :
    apply s (k + 1) (.cls c) args m = .ok (.object m.heap.instances.size) (m.withInstance c) := by
  have hnew : make (·.newInstance c) m = .ok m.heap.instances.size (m.withInstance c) := rfl
  refine (bind_ok hnew).trans ((heap_bind _ _).trans ?_)
  simp only [hi]
  rfl

/-- A class with an initializer runs it, bound to the new instance, and gives the instance whatever
the initializer comes back with. -/
theorem apply_cls_of_some {init : Id} (hi : (m.withInstance c).heap.initializer? c = some init) :
    apply s (k + 1) (.cls c) args m =
      (runFunction s k ((m.withInstance c).heap.bindMethod init m.heap.instances.size).1 args >>=
        fun _ => pure (Value.object m.heap.instances.size))
        ((m.withInstance c).withBound init m.heap.instances.size) := by
  have hnew : make (·.newInstance c) m = .ok m.heap.instances.size (m.withInstance c) := rfl
  refine (bind_ok hnew).trans ((heap_bind _ _).trans ?_)
  simp only [hi]
  rfl

end

section
variable {s : Setting} {clock : Clock} {runs : List (Nat × String)}
  (w : Watched s (ledger s clock runs) (Moment s clock runs))
include w

/-- Applying a class gives an instance of it, in the place that was free. -/
theorem ends_apply_cls {n : Nat} {c : Id} {args : List Value} {m : Machine}
    (hm : Moment s clock runs n (.apply (.cls c) args) m) :
    Ends (apply s n (.cls c) args) m
      (fun v m' => v = .object m.heap.instances.size ∧
        m'.heap.classOf? m.heap.instances.size = some c) (fun _ _ => True) := by
  cases n with
  | zero => exact ends_of_error rfl trivial
  | succ k =>
    have hnew : (m.withInstance c).heap.classOf? m.heap.instances.size = some c := by
      change (m.heap.newInstance c).2.classOf? _ = _
      rw [classOf?_newInstance, if_pos rfl]
    cases hi : (m.withInstance c).heap.initializer? c with
    | none => exact ends_of_ok (apply_cls_of_none hi) ⟨rfl, hnew⟩
    | some init =>
      have hrun := (hm.call (.initializer hi)).leaves w (lasts_classOf? _ c)
        ((grows_bindMethod _ init _).classOf? hnew)
      have heq : apply s (k + 1) (.cls c) args m = _ := apply_cls_of_some hi
      cases hr : runFunction s k ((m.withInstance c).heap.bindMethod init _).1 args
          ((m.withInstance c).withBound init m.heap.instances.size) with
      | ok v m₁ => exact ends_of_ok (heq.trans (bind_ok hr)) ⟨rfl, hrun.of_map.ok hr⟩
      | error i m₁ => exact ends_of_error (heq.trans (bind_error hr)) trivial

/-- The new instance is none of the values that are there. -/
theorem Calling.new_ne (hn : ∀ native ∈ s.natives, native.Honest) (x : Calling s clock runs)
    {v : Value} (hv : x.before.heap.Shows v ∨ x.machine.heap.Shows v ∨ v ∈ x.values) : v ≠ .object x.new := by
  have hbetween := (x.moment.call (.arguments x.called)).holds hn
  have hkeeps := Task.keeps hn x.fuel (.evaluateAll x.args) _ hbetween
  obtain ⟨hk, hvalues⟩ := hkeeps.ok x.supplied
  have hthere : x.machine.heap.There v := by
    rcases hv with h | h | h
    · obtain ⟨-, -, hbefore, -⟩ := x.sound w
      exact hbefore.persists.there ((x.moment.holds hn).heap.there_of_shows h)
    · exact (hbetween.keep hk).heap.there_of_shows h
    · exact hvalues v h
  rintro rfl
  exact Nat.lt_irrefl _ hthere

/-- Applying a class with an initializer runs it, bound to the new instance, and then gives the
instance. -/
theorem exists_initializer {k : Nat} {c init : Id} {args : List Value} {m : Machine}
    (hm : Moment s clock runs (k + 1) (.apply (.cls c) args) m)
    (hi : m.heap.initializer? c = some init) :
    ∃ f m₁, Calls s k (.apply (.cls c) args) m (.runFunction f args) m₁ ∧
      (after s clock runs).heap.BoundTo init f m.heap.instances.size ∧
      apply s (k + 1) (.cls c) args m =
        (runFunction s k f args >>= fun _ => pure (Value.object m.heap.instances.size)) m₁ := by
  obtain ⟨hs, -⟩ := hm.ready w
  obtain ⟨d, -, hl⟩ := initializer?_eq_some hi
  obtain ⟨closure, hf⟩ := hs.exists_method hl
  have hf : (m.withInstance c).heap.functions[init]? = some closure := hf
  have hi : (m.withInstance c).heap.initializer? c = some init :=
    (initializer?_withInstance m c c).trans hi
  have hcall : Calls s k (.apply (.cls c) args) m (.runFunction _ args) _ := .initializer hi
  exact ⟨_, _, hcall, ((hm.call hcall).grows_after w).1.boundTo (boundTo_bindMethod hf _),
    apply_cls_of_some hi⟩

section
variable (x : Calling s clock runs) {c : Id} (hx : x.value = .cls c)
include hx

omit w in
theorem Calling.callable_cls : callable? s x.machine.heap x.value =
    some ⟨x.machine.heap.className c, x.machine.heap.classArity c⟩ := by
  rw [hx]
  rfl

/-- A class that is called has the initializer, and takes the arguments, that it has and takes at
the end of the session. -/
theorem Calling.class_at_end :
    (after s clock runs).heap.initializer? c = x.machine.heap.initializer? c ∧
      (after s clock runs).heap.classArity c = x.machine.heap.classArity c := by
  obtain ⟨hs, hv, -, hlast⟩ := x.sound w
  rw [hx] at hv
  exact ⟨hlast.initializer? hs.supers hv, hlast.classArity hs hv⟩

theorem Calling.gives_new {v : Value} {m' : Machine} (h : x.result = .ok v m') :
    v = .object x.new ∧ m'.heap.classOf? x.new = some c ∧
      (after s clock runs).heap.classOf? x.new = some c := by
  have hc := x.callable_cls hx
  obtain ⟨hl, m₁, ha, hheap⟩ := of_result_ok hc h
  have hm := calls hc hl
  rw [hx] at ha hm
  obtain ⟨rfl, hcls⟩ := (ends_apply_cls w hm).ok ha
  have hg : m₁.heap.Grows (after s clock runs).heap := (hm.grows_after w).2.of_map.ok ha
  exact ⟨rfl, hheap ▸ hcls, hg.classOf? hcls⟩

omit w in
theorem Calling.result_of_none {k : Nat} (hk : x.fuel = k + 1)
    (hi : x.machine.heap.initializer? c = none)
    (hl : (x.values.length : Int) = x.machine.heap.classArity c) :
    ∃ m', x.result = .ok (.object x.new) m' := by
  have hnone := (initializer?_withInstance
    (x.machine.enter s (x.noted (x.machine.heap.className c))) c c).trans hi
  rw [result_of_eq (x.callable_cls hx) hl, hk, hx, asCall_ok (apply_cls_of_none hnone)]
  exact ⟨_, rfl⟩

/-- A call of a class with an initializer runs it, and fails just if it fails. -/
theorem Calling.runs_initializer {k : Nat} (hk : x.fuel = k + 1) {init : Id}
    (hi : x.machine.heap.initializer? c = some init)
    (hl : (x.values.length : Int) = x.machine.heap.classArity c) :
    ∃ f m, Calls s k (.apply x.value x.values)
        (x.machine.enter s (x.noted (x.machine.heap.className c))) (.runFunction f x.values) m ∧
      (after s clock runs).heap.BoundTo init f x.new ∧
      ∀ i m', x.result = .error i m' ↔ ∃ j m₁, runFunction s k f x.values m = .error j m₁ ∧
        i = leaving (x.noted (x.machine.heap.className c)) j ∧ m' = left j m₁ := by
  have hc := x.callable_cls hx
  have hm := calls hc hl
  have hr := result_of_eq hc hl
  rw [hk, hx] at hm hr
  obtain ⟨f, m, hcall, hb, ha⟩ := exists_initializer w hm hi
  refine ⟨f, m, hx ▸ hcall, hb, fun i m' => ⟨fun h => ?_, ?_⟩⟩
  · rw [hr] at h
    cases hrun : runFunction s k f x.values m with
    | ok v m₁ => cases (asCall_ok (ha.trans (bind_ok hrun))).symm.trans h
    | error j m₁ =>
      cases (asCall_error (ha.trans (bind_error hrun))).symm.trans h
      exact ⟨j, m₁, rfl, rfl, rfl⟩
  · rintro ⟨j, m₁, hrun, rfl, rfl⟩
    exact hr.trans (asCall_error (ha.trans (bind_error hrun)))

/-- Calls of classes give new instances. -/
theorem Calling.constructs (hn : ∀ native ∈ s.natives, native.Honest) :
    x.Constructs c (after s clock runs).heap := by
  obtain ⟨hinit, harity⟩ := x.class_at_end w hx
  refine ⟨fun v m' h => x.gives_new w hx h, fun v hv => x.new_ne w hn hv, fun hl => ?_, fun hnone => ?_,
    fun init hsome k hk hl => ?_⟩
  · rw [harity] at hl ⊢
    exact result_of_ne (x.callable_cls hx) hl
  · have hzero : (after s clock runs).heap.classArity c = 0 := by simp [Heap.classArity, hnone]
    refine ⟨hzero, fun k hk hempty => x.result_of_none hx hk (hinit.symm.trans hnone) ?_⟩
    rw [← harity, hzero, hempty]
    rfl
  · obtain ⟨f, m, hcall, hb, herror⟩ :=
      x.runs_initializer w hx hk (hinit.symm.trans hsome) (harity ▸ hl)
    refine ⟨f, m, hcall, hb, ?_, herror⟩
    rw [hb.functionArity, Heap.classArity, hsome]
    rfl

end

end

/-! ## Calls of bound methods -/

/-- The expression selects a method for an instance: as a property of the instance that is no field
of it, or through `super`. -/
inductive Selects (s : Setting) : Nat → Expr → Machine → String → Id → Prop
  | property {n object property m o m₁ method} (ho : evaluate s n object m = .ok (.object o) m₁)
      (hp : m₁.heap.property? o property.lexeme = some (.method method)) :
      Selects s (n + 1) (.get object property) m property.lexeme o
  | super {n ref method m q o found} (hparts : superParts s ref m = .ok (.cls q, .object o) m)
      (hf : m.heap.findMethod? q method.lexeme = some found) :
      Selects s (n + 1) (.superRef ref method) m method.lexeme o

section
variable {s : Setting} {clock : Clock} {runs : List (Nat × String)}
  (w : Watched s (ledger s clock runs) (Moment s clock runs))
include w

/-- The method that is selected is bound to the instance. -/
theorem bound_of_selects {n : Nat} {e : Expr} {m : Machine} {name : String} {o : Id}
    (hm : Moment s clock runs n (.evaluate e) m) (h : Selects s n e m name o) :
    ∃ f m', evaluate s n e m = .ok (.function f) m' ∧ (after s clock runs).heap.Bound name f o := by
  have hend := (hm.grows_after w).2.of_map
  cases h with
  | @property n object property m o m₁ method ho hp =>
    have hobject := hm.call .getObject
    obtain ⟨hs, site, hr⟩ := hobject.ready w
    obtain ⟨good, -⟩ := Ends.ok (x := evaluate s n object) (Task.kept w n hobject hs hr) ho
    obtain ⟨_, c, -, -, hl⟩ := method_of_property? hp
    obtain ⟨closure, hc⟩ := good.sound.exists_method hl
    have hx : evaluate s (n + 1) (.get object property) m =
        .ok (.function (m₁.heap.bindMethod method o).1)
          { m₁ with heap := (m₁.heap.bindMethod method o).2 } := by
      refine (bind_ok ho).trans ?_
      rw [Eval.getProperty_object, hp]
    exact ⟨_, _, hx, (hend.ok hx).bound (bound_bindMethod hl hc o)⟩
  | @super n ref method m q o found hparts hf =>
    obtain ⟨hs, -⟩ := hm.ready w
    obtain ⟨d, f⟩ := found
    obtain ⟨-, hl⟩ := findMethod?_eq_some hf
    obtain ⟨closure, hc⟩ := hs.exists_method hl
    have hx : evaluate s (n + 1) (.superRef ref method) m =
        .ok (.function (m.heap.bindMethod f o).1)
          { m with heap := (m.heap.bindMethod f o).2 } := by
      refine (bind_ok hparts).trans ((heap_bind _ _).trans ?_)
      simp only [hf]
      rfl
    exact ⟨_, _, hx, (hend.ok hx).bound (bound_bindMethod hl hc o)⟩

/-- An initializer that is run comes back with the instance that its frame holds as `this`, whatever
its body does. -/
theorem ends_initializer {n : Nat} {f o : Id} {args : List Value} {m : Machine} {c : Closure}
    (hm : Moment s clock runs n (.runFunction f args) m) (hc : m.heap.functions[f]? = some c)
    (hi : c.isInitializer = true) (ho : (m.heap.vars c.frame).lookup "this" = some (.object o)) :
    Ends (runFunction s n f args) m (fun v _ => v = .object o) (fun _ _ => True) := by
  cases n with
  | zero => exact ends_of_error rfl trivial
  | succ n =>
    have hthis : ((m.inBody c args).heap.vars c.frame).lookup "this" = some (.object o) :=
      (grows_newFrame m.heap _).word (.inl rfl) ho
    have hbody := ((hm.call (.body hc)).leaves w (lasts_this c.frame (.object o)) hthis).of_map
    refine ends_bind (ends_of_ok rfl fun _ => ?_)
    simp only [hc]
    refine ends_bind (ends_of_ok rfl fun _ => ?_)
    refine ends_bind (ends_inFrame (hbody.mono (fun ending m₁ _ h _ => ?_) fun _ _ _ => trivial))
    simp only [hi, if_true]
    have hget : m₁.heap.getAt c.frame 0 "this" = .ok (.object o) :=
      getAt_of_ancestor? (k := 0) rfl h
    refine ends_bind (ends_of_ok rfl fun _ => ?_)
    simp only [hget]
    exact ends_pure rfl

/-- At the end of a session the methods stand under their names. -/
theorem named_after : (after s clock runs).heap.Named := by
  have hinitial : (after s clock []).heap.Named := by
    intro c f name hl
    have hnone : (Machine.initial s.natives clock).heap.methods c = [] := rfl
    cases (hnone ▸ hl : ([] : Table Id).lookup name = some f)
  exact lasts_after w lasts_named (List.nil_append runs).symm hinitial

/-- Methods called `init`, bound to an instance, give the instance when they are called. -/
theorem Calling.gives_this (x : Calling s clock runs) {f o : Id} (hx : x.value = .function f)
    (hb : (after s clock runs).heap.Bound initName f o) {v : Value} {m' : Machine}
    (hr : x.result = .ok v m') : v = .object o := by
  have hc : callable? s x.machine.heap x.value =
      some ⟨x.machine.heap.functionName f, x.machine.heap.functionArity f⟩ := by rw [hx]; rfl
  obtain ⟨hl, m₁, ha, -⟩ := of_result_ok hc hr
  have hm := calls hc hl
  rw [hx] at ha hm
  cases hk : x.fuel with
  | zero =>
    rw [hk] at ha
    cases ha
  | succ k =>
    rw [hk] at ha hm
    have hrun := hm.call .function
    have hg := (hrun.grows_after w).1
    obtain ⟨-, site, c, hfc, ⟨-, -, -, -, hinit⟩, -⟩ := hrun.ready w
    obtain ⟨d, method, hlookup, closure, frame, hmethod, hf, -, hthis⟩ := hb
    -- what is called is the method in the frame that holds `this`, and an initializer by its name
    cases Option.some.inj ((hg.functions hfc).symm.trans hf)
    obtain ⟨closure', hmethod', -, hname⟩ := named_after w d method initName hlookup
    cases hmethod.symm.trans hmethod'
    have hi : closure.isInitializer = true := hname.trans (beq_self_eq_true _)
    obtain ⟨o', ho', -⟩ := hinit hi
    cases (hg.word (.inl rfl) ho').symm.trans hthis
    exact (ends_initializer w hrun hfc hi ho').ok ha

end

/-- **Calls of classes and of initializers give instances.** In every session: a call of a class
that comes back gives a new instance of the class, however the class's initializer ends; it is
refused unless it has the arguments that the initializer takes, and fails just if the initializer
fails. A method that is selected, through an instance or through `super`, is bound to the instance
for the rest of the session; and a call of a method called `init` that comes back, made where the
method is selected or of a bound method that has been stored anywhere, gives the instance that the
method is bound to. -/
theorem calls_give_instances (path : String) (natives : List Native)
    (hn : ∀ native ∈ natives, native.Honest) (clock : Clock) (runs : List (Nat × String)) :
    let s : Setting := { path, natives }
    let last := (after s clock runs).heap
    (∀ (x : Calling s clock runs) (c : Id), x.value = .cls c → x.Constructs c last) ∧
    (∀ n e m name o, Moment s clock runs n (.evaluate e) m → Selects s n e m name o →
      ∃ f m', evaluate s n e m = .ok (.function f) m' ∧ last.Bound name f o) ∧
    (∀ (x : Calling s clock runs) (o : Id), Selects s x.fuel x.callee x.before initName o →
      ∀ v m', x.result = .ok v m' → v = .object o) ∧
    ∀ (x : Calling s clock runs) (f o : Id), x.value = .function f → last.Bound initName f o →
      ∀ v m', x.result = .ok v m' → v = .object o := by
  intro s last
  have w : Watched s (ledger s clock runs) (Moment s clock runs) := watched rfl hn
  refine ⟨fun x c hx => x.constructs w hx hn, fun n e m name o hm h => bound_of_selects w hm h,
    fun x o h v m' hr => ?_, fun x f o hx hb v m' hr => x.gives_this w hx hb hr⟩
  obtain ⟨f, m₁, hx, hb⟩ := bound_of_selects w (x.moment.call .callee) h
  have hvalue : x.value = .function f := by
    injection x.called.symm.trans hx
  exact x.gives_this w hvalue hb hr

/-! ## A session, run -/

section
variable (s : Setting)

/-- Whether the expression is a call of `f` with these arguments, which comes back. -/
def isCall (f : Value) (vs : List Value) : Nat × Expr × Machine → Bool
  | (n + 1, .call callee paren args, m) =>
    (do
      let f ← evaluate s n callee
      let vs ← evaluateAll s n args
      pure (f, vs) : Exec (Value × List Value)).run' m == some (f, vs) &&
    ((evaluate s (n + 1) (.call callee paren args)).run' m).isSome
  | _ => false

/-- Whether the expression reads the property `init` of the instance `o`, which is a method, and
comes to be the function `f`. -/
def readsInit (o f : Id) : Nat × Expr × Machine → Bool
  | (n + 1, .get object property, m) =>
    property.lexeme == initName &&
    (do
      let v ← evaluate s n object
      let h ← heap
      pure (v == .object o && h.property? o property.lexeme matches some (.method _)) :
        Exec Bool).run' m == some true &&
    (evaluate s (n + 1) (.get object property)).run' m == some (.function f)
  | _ => false

variable {s} {clock : Clock} {runs : List (Nat × String)}

theorem exists_calling {f : Value} {vs : List Value}
    (h : (evaluations s clock runs).any (isCall s f vs) = true) :
    ∃ x : Calling s clock runs, x.value = f ∧ x.values = vs ∧ ∃ v m', x.result = .ok v m' := by
  obtain ⟨y, hmem, hy⟩ := List.any_eq_true.1 h
  unfold isCall at hy
  split at hy
  · rename_i n callee paren args m
    have hm := moment_of_mem_evaluations s hmem
    rw [Bool.and_eq_true, beq_iff_eq] at hy
    obtain ⟨hx, hr⟩ := hy
    obtain ⟨m₂, hx⟩ := ok_of_run' hx
    obtain ⟨f, m₁, hf, hx⟩ := bind_eq_ok hx
    obtain ⟨vs, m₂, hvs, hx⟩ := bind_eq_ok hx
    cases hx
    obtain ⟨v, hv⟩ := Option.isSome_iff_exists.1 hr
    exact ⟨⟨n, callee, paren, args, m, m₁, m₂, f, vs, hm, hf, hvs⟩, rfl, rfl, v, ok_of_run' hv⟩
  · cases hy

theorem exists_selects {o f : Id} (h : (evaluations s clock runs).any (readsInit s o f) = true) :
    ∃ n e m m', Moment s clock runs n (.evaluate e) m ∧ Selects s n e m initName o ∧
      evaluate s n e m = .ok (.function f) m' := by
  obtain ⟨y, hmem, hy⟩ := List.any_eq_true.1 h
  unfold readsInit at hy
  split at hy
  · rename_i n object property m
    have hm := moment_of_mem_evaluations s hmem
    simp only [Bool.and_eq_true, beq_iff_eq] at hy
    obtain ⟨⟨hname, hx⟩, hf⟩ := hy
    obtain ⟨m₂, hx⟩ := ok_of_run' hx
    obtain ⟨v, m₁, ho, hx⟩ := bind_eq_ok hx
    obtain ⟨m', hf⟩ := ok_of_run' hf
    have hboth : (v == .object o && m₁.heap.property? o property.lexeme matches some (.method _)) =
        true := by injection hx
    rw [Bool.and_eq_true, beq_iff_eq] at hboth
    obtain ⟨rfl, hp⟩ := hboth
    split at hp
    · rename_i hmethod
      exact ⟨n + 1, _, m, m', hm, hname ▸ .property ho hmethod, hf⟩
    · cases hp
  · cases hy

end

/-- An initializer that is left from within a loop, run through `super`, and bound and kept while it
runs. -/
theorem calls_give_instances_of_kept_initializer :
    let s : Setting := { path := "", natives := [Native.clock] }
    let runs := [(40, "class A \x7b init(x) \x7b" ++
        "while (true) \x7b if (x) return; this.m = this.init; x = true; \x7d \x7d \x7d" ++
      "class B < A \x7b init(x) \x7b super.init(x); \x7d \x7d var b = B(nil);"),
      (40, "var g = b.m; g(true);")]
    let last := (after s [] runs).heap
    (∀ native ∈ s.natives, native.Honest) ∧
    (∃ x : Calling s [] runs, x.value = .cls 1 ∧ x.Constructs 1 last ∧
      ∃ m', x.result = .ok (.object x.new) m') ∧
    ∃ n e m f m', (Moment s [] runs n (.evaluate e) m ∧ Selects s n e m initName 0 ∧
      evaluate s n e m = .ok (.function f) m' ∧ last.Bound initName f 0) ∧
      ∃ x : Calling s [] runs, x.value = .function f ∧ ∃ m', x.result = .ok (.object 0) m' := by
  intro s runs last
  obtain ⟨hcls, hbound, -, hcall⟩ := calls_give_instances "" [Native.clock] honest_clock [] runs
  obtain ⟨hany, hkept, hread⟩ : (evaluations s [] runs).any (isCall s (.cls 1) [.nil]) = true ∧
      (evaluations s [] runs).any (isCall s (.function 4) [.bool true]) = true ∧
      (evaluations s [] runs).any (readsInit s 0 4) = true := by decide +kernel
  obtain ⟨x, hx, -, v, m', hr⟩ := exists_calling hany
  obtain ⟨y, hy, -, v', m₁, hr'⟩ := exists_calling hkept
  obtain ⟨n, e, m, m₂, hm, hsel, he⟩ := exists_selects hread
  obtain ⟨f, m₃, hf, hb⟩ := hbound n e m initName 0 hm hsel
  have hconstructs := hcls x 1 hx
  obtain ⟨rfl, -⟩ := hconstructs.gives v m' hr
  cases he.symm.trans hf
  obtain rfl := hcall y 4 0 hy hb v' m₁ hr'
  exact ⟨honest_clock, ⟨x, hx, hconstructs, m', hr⟩, n, e, m, 4, m₂, ⟨hm, hsel, hf, hb⟩, y, hy,
    m₁, hr'⟩

end Session

end Lox

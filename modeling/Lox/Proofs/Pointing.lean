import Lox.Proofs.Making
import Lox.Proofs.Activation
import Lox.Proofs.Growth

/-!
# Faults point at tokens of the code

What is wrong with a program is said of a token that its code keeps, and code keeps its tokens on
its way from the parser: binding references changes no token (`Stmt.madeAll_bindAll`), and a run
keeps the functions that it makes as they were declared. So a static rule is broken at a token of
the code (`Stmt.violationsAll_at`), and a fault of a run points at one, unless a native function has
made it up; the calls that it has left carry the lines of closing parentheses
(`Session.points_runProgram`).

`KeepsTo T P act` says so of an action: begun with functions made of tokens of `T`, it ends with
such functions and a result in `P`, or in an interrupt that points at tokens of `T`.
-/

namespace Lox

variable {T : Token → Prop}

/-! ## Binding -/

mutual

theorem Expr.made_bind (scopes : Scopes) : ∀ (e : Expr), e.Made T → (e.bind scopes).Made T
  | .literal _, h => h
  | .group inner, h => Expr.made_bind scopes inner h
  | .unary _ _ right, h => ⟨h.1, Expr.made_bind scopes right h.2⟩
  | .binary _ _ left right, h =>
    ⟨h.1, Expr.made_bind scopes left h.2.1, Expr.made_bind scopes right h.2.2⟩
  | .logical _ _ left right, h =>
    ⟨h.1, Expr.made_bind scopes left h.2.1, Expr.made_bind scopes right h.2.2⟩
  | .name _, h => h
  | .assign _ value, h => ⟨h.1, Expr.made_bind scopes value h.2⟩
  | .call callee _ args, h =>
    ⟨Expr.made_bind scopes callee h.1, h.2.1, Expr.madeAll_bindAll scopes args h.2.2⟩
  | .get object _, h => ⟨Expr.made_bind scopes object h.1, h.2⟩
  | .set object _ value, h =>
    ⟨Expr.made_bind scopes object h.1, h.2.1, Expr.made_bind scopes value h.2.2⟩
  | .thisRef _, h => h
  | .superRef _ _, h => h

theorem Expr.madeAll_bindAll (scopes : Scopes) :
    ∀ (es : List Expr), Expr.MadeAll T es → Expr.MadeAll T (Expr.bindAll scopes es)
  | [], h => h
  | e :: es, h => ⟨Expr.made_bind scopes e h.1, Expr.madeAll_bindAll scopes es h.2⟩

end

theorem Expr.made_map_bind (scopes : Scopes) {o : Option Expr} (h : ∀ e ∈ o, e.Made T) :
    ∀ e ∈ o.map (·.bind scopes), e.Made T := by
  intro e he
  obtain ⟨e, ho, rfl⟩ := Option.map_eq_some_iff.1 he
  exact e.made_bind scopes (h e ho)

mutual

theorem Stmt.made_bind (scopes : Scopes) : ∀ (s : Stmt), s.Made T → (s.bind scopes).Made T
  | .expression e, h => e.made_bind scopes h
  | .print e, h => e.made_bind scopes h
  | .var _ _, h => ⟨h.1, Expr.made_map_bind _ h.2⟩
  | .block body, h => Stmt.madeAll_bindAll _ body h
  | .ifThen test yes, h => ⟨test.made_bind scopes h.1, Stmt.made_bind scopes yes h.2⟩
  | .ifElse test yes no, h =>
    ⟨test.made_bind scopes h.1, Stmt.made_bind scopes yes h.2.1, Stmt.made_bind scopes no h.2.2⟩
  | .loop test body, h => ⟨test.made_bind scopes h.1, Stmt.made_bind scopes body h.2⟩
  | .function decl, h => FunDecl.made_bind _ decl h
  | .ret _ _, h => ⟨h.1, Expr.made_map_bind _ h.2⟩
  | .classDecl _ superclass methods, h => by
    refine ⟨h.1, fun ref hr => ?_, FunDecl.madeAll_bindAll _ methods h.2.2⟩
    obtain ⟨ref, ho, rfl⟩ := Option.map_eq_some_iff.1 hr
    exact h.2.1 ref ho

/-- Binding changes no token. -/
theorem Stmt.madeAll_bindAll (scopes : Scopes) :
    ∀ (ss : List Stmt), Stmt.MadeAll T ss → Stmt.MadeAll T (Stmt.bindAll scopes ss)
  | [], h => h
  | s :: ss, h => ⟨Stmt.made_bind scopes s h.1, Stmt.madeAll_bindAll _ ss h.2⟩

theorem FunDecl.made_bind (scopes : Scopes) :
    ∀ (d : FunDecl Stmt), FunDecl.Made T d → FunDecl.Made T (FunDecl.bind scopes d)
  | ⟨_, _, body⟩, h => ⟨h.1, h.2.1, Stmt.madeAll_bindAll _ body h.2.2⟩

theorem FunDecl.madeAll_bindAll (scopes : Scopes) :
    ∀ (ds : List (FunDecl Stmt)), FunDecl.MadeAll T ds →
      FunDecl.MadeAll T (FunDecl.bindAll scopes ds)
  | [], h => h
  | d :: ds, h => ⟨FunDecl.made_bind scopes d h.1, FunDecl.madeAll_bindAll scopes ds h.2⟩

end

/-! ## Static rules -/

/-- Each diagnostic is about a token of `T`. -/
def Diagnostic.AllAt (T : Token → Prop) (ds : List Diagnostic) : Prop :=
  ∀ d ∈ ds, ∃ t cause, T t ∧ d = .ofToken t cause

namespace Diagnostic.AllAt

variable {ds ds' : List Diagnostic}

theorem nil : AllAt T [] := fun _ hd => by cases hd

theorem append (h : AllAt T ds) (h' : AllAt T ds') : AllAt T (ds ++ ds') :=
  fun d hd => (List.mem_append.1 hd).elim (h d) (h' d)

theorem one {t : Token} (ht : T t) (cause : Cause) : AllAt T [.ofToken t cause] :=
  fun _ hd => ⟨t, cause, ht, List.mem_singleton.1 hd⟩

/-- A rule that complains about a token or not at all. -/
theorem rule {p : Prop} [Decidable p] {t : Token} (ht : T t) (cause : Cause) :
    AllAt T (if p then [.ofToken t cause] else []) := by
  split
  · exact one ht cause
  · exact nil

theorem getD {α : Type} {o : Option α} {f : α → List Diagnostic} (h : ∀ a ∈ o, AllAt T (f a)) :
    AllAt T ((o.map f).getD []) := by
  cases o with
  | none => exact nil
  | some a => exact h a rfl

end Diagnostic.AllAt

open Diagnostic in
theorem Scopes.paramRule_at (scopes : Scopes) {params : List Token} (h : ∀ p ∈ params, T p) :
    AllAt T (scopes.paramRule params) := by
  induction params generalizing scopes with
  | nil => exact .nil
  | cons p params ih =>
    rw [List.forall_mem_cons] at h
    exact .append (.rule h.1 _) (ih _ h.2)

section
variable (c : ClassContext) (scopes : Scopes)
open Diagnostic

theorem ClassContext.thisRule_at {keyword : Token} (h : T keyword) :
    AllAt T (c.thisRule keyword) := by
  cases c with
  | outside => exact .one h _
  | plain | derived => exact .nil

theorem ClassContext.superRule_at {keyword : Token} (h : T keyword) :
    AllAt T (c.superRule keyword) := by
  cases c with
  | outside | plain => exact .one h _
  | derived => exact .nil

theorem FunctionContext.returnRule_at (f : FunctionContext) {keyword : Token} (h : T keyword)
    (hasValue : Bool) : AllAt T (f.returnRule keyword hasValue) := by
  cases f with
  | outside => exact .one h _
  | plain => exact .nil
  | initializer => exact .rule h _

mutual

theorem Expr.violations_at : ∀ (e : Expr), e.Made T → AllAt T (e.violations c scopes)
  | .literal _, _ => .nil
  | .group inner, h => Expr.violations_at inner h
  | .unary _ _ right, h => Expr.violations_at right h.2
  | .binary _ _ left right, h =>
    .append (Expr.violations_at left h.2.1) (Expr.violations_at right h.2.2)
  | .logical _ _ left right, h =>
    .append (Expr.violations_at left h.2.1) (Expr.violations_at right h.2.2)
  | .name _, h => .rule h.1 _
  | .assign _ value, h => Expr.violations_at value h.2
  | .call callee _ args, h =>
    .append (Expr.violations_at callee h.1) (Expr.violationsAll_at args h.2.2)
  | .get object _, h => Expr.violations_at object h.1
  | .set object _ value, h =>
    .append (Expr.violations_at value h.2.2) (Expr.violations_at object h.1)
  | .thisRef _, h => c.thisRule_at h.1
  | .superRef _ _, h => c.superRule_at h.1.1

theorem Expr.violationsAll_at :
    ∀ (es : List Expr), Expr.MadeAll T es → AllAt T (Expr.violationsAll c scopes es)
  | [], _ => .nil
  | e :: es, h => .append (Expr.violations_at e h.1) (Expr.violationsAll_at es h.2)

end

end

open Diagnostic

mutual

theorem Stmt.violations_at (f : FunctionContext) (c : ClassContext) (scopes : Scopes) :
    ∀ (s : Stmt), s.Made T → AllAt T (s.violations f c scopes)
  | .expression e, h => e.violations_at c scopes h
  | .print e, h => e.violations_at c scopes h
  | .var _ _, h => .append (.rule h.1.1 _) (.getD fun e he => e.violations_at c _ (h.2 e he))
  | .block body, h => Stmt.violationsAll_at f c _ body h
  | .ifThen test yes, h =>
    .append (test.violations_at c scopes h.1) (Stmt.violations_at f c scopes yes h.2)
  | .ifElse test yes no, h =>
    .append (.append (test.violations_at c scopes h.1) (Stmt.violations_at f c scopes yes h.2.1))
      (Stmt.violations_at f c scopes no h.2.2)
  | .loop test body, h =>
    .append (test.violations_at c scopes h.1) (Stmt.violations_at f c scopes body h.2)
  | .function ⟨_, _, body⟩, h =>
    .append (.rule h.1.1 _) (FunDecl.violations_at _ c _ ⟨_, _, body⟩ h)
  | .ret _ _, h =>
    .append (f.returnRule_at h.1.1 _) (.getD fun e he => e.violations_at c _ (h.2 e he))
  | .classDecl _ _ methods, h =>
    .append (.append (.rule h.1.1 _) (.getD fun ref hr =>
      .append (.rule (h.2.1 ref hr).1 _) (.rule (h.2.1 ref hr).1 _)))
      (FunDecl.violationsAll_at _ _ methods h.2.2)

/-- A static rule is broken at a token of the code. -/
theorem Stmt.violationsAll_at (f : FunctionContext) (c : ClassContext) (scopes : Scopes) :
    ∀ (ss : List Stmt), Stmt.MadeAll T ss → AllAt T (Stmt.violationsAll f c scopes ss)
  | [], _ => .nil
  | s :: ss, h =>
    .append (Stmt.violations_at f c scopes s h.1) (Stmt.violationsAll_at f c _ ss h.2)

theorem FunDecl.violations_at (f : FunctionContext) (c : ClassContext) (scopes : Scopes) :
    ∀ (d : FunDecl Stmt), FunDecl.Made T d → AllAt T (FunDecl.violations f c scopes d)
  | ⟨_, _, body⟩, h =>
    .append (Scopes.paramRule_at _ fun p hp => (h.2.1 p hp).1)
      (Stmt.violationsAll_at f c _ body h.2.2)

theorem FunDecl.violationsAll_at (c : ClassContext) (scopes : Scopes) :
    ∀ (ds : List (FunDecl Stmt)), FunDecl.MadeAll T ds →
      AllAt T (FunDecl.violationsAll c scopes ds)
  | [], _ => .nil
  | d :: ds, h =>
    .append (FunDecl.violations_at _ c scopes d h.1) (FunDecl.violationsAll_at c scopes ds h.2)

end

theorem FunDecl.Made.body : ∀ {d : FunDecl Stmt}, FunDecl.Made T d → Stmt.MadeAll T d.body
  | ⟨_, _, _⟩, h => h.2.2

/-! ## Machines -/

/-- The functions of the heap are made of tokens of `T`. -/
def Heap.Made (T : Token → Prop) (h : Heap) : Prop :=
  ∀ (i : Id) (c : Closure), h.functions[i]? = some c → FunDecl.Made T c.decl

namespace Heap

variable {h : Heap}

theorem Made.of_functions {h' : Heap} (hm : h.Made T) (he : h'.functions = h.functions) :
    h'.Made T := by
  intro i c hc
  rw [he] at hc
  exact hm i c hc

theorem made_newFunction {c : Closure} (hm : h.Made T) (hc : FunDecl.Made T c.decl) :
    (h.newFunction c).2.Made T := by
  intro i c' hi
  rcases eq_or_of_newFunction hi with h1 | rfl
  · exact hm i c' h1
  · exact hc

theorem made_bindMethod (hm : h.Made T) (method object : Id) :
    (h.bindMethod method object).2.Made T := by
  unfold bindMethod
  split
  · exact hm
  · rename_i closure hc
    exact made_newFunction (hm.of_functions rfl) (hm method closure hc)

theorem made_getProperty (hm : h.Made T) (object : Id) (name : String) :
    (h.getProperty object name).2.Made T := by
  unfold getProperty
  split
  · exact hm
  · exact hm
  · exact made_bindMethod hm _ _

theorem made_newMethods (frame : Id) {ds : List (FunDecl Stmt)} (hd : FunDecl.MadeAll T ds)
    (hm : h.Made T) : (h.newMethods frame ds).2.Made T := by
  unfold newMethods
  generalize ([] : Table Id) = table
  induction ds generalizing table h with
  | nil => exact hm
  | cons d ds ih => exact ih hd.2 (made_newFunction hm hd.1) _

end Heap

/-- The interrupt points at a token of `T`, unless a native function has made it up, and the calls
that it has left carry the lines of closing parentheses of `T`. -/
def Interrupt.Points (T : Token → Prop) : Interrupt → Prop
  | .fault f => (T f.token ∨ ∃ text, f.reason = .native text) ∧
      ∀ call ∈ f.trace, ∃ t : Token, t.From T .rightParen ∧ call.line = t.line
  | .broken _ | .outOfFuel => True

/-! ## Actions -/

section
variable {α β : Type} {P : α → Prop} {Q : β → Prop} {act : Exec α} {f : α → Exec β}

/-- What an action keeps (module doc). -/
def KeepsTo (T : Token → Prop) (P : α → Prop) (act : Exec α) : Prop :=
  ∀ m : Machine, m.heap.Made T → Ends act m (fun a m' => m'.heap.Made T ∧ P a)
    (fun i m' => m'.heap.Made T ∧ i.Points T)

/-- The action keeps to `T`, whatever its result. -/
abbrev Keeps (T : Token → Prop) (act : Exec α) : Prop := KeepsTo T (fun _ => True) act

theorem keeps_pure {a : α} (h : P a) : KeepsTo T P (pure a) := fun _ hm => ends_pure ⟨hm, h⟩

theorem keeps_bind (h : KeepsTo T P act) (hf : ∀ a, P a → KeepsTo T Q (f a)) :
    KeepsTo T Q (act >>= f) :=
  fun m hm => (h m hm).bind fun a m' _ hq => hf a hq.2 m' hq.1

theorem keeps_map {g : α → β} (h : Keeps T act) :
    Keeps T (g <$> act) :=
  fun m hm => ends_map ((h m hm).mono (fun _ _ _ hq => hq) fun _ _ he => he)

theorem keeps_outOfFuel : KeepsTo T P (throw .outOfFuel) := fun _ hm => ends_throw ⟨hm, trivial⟩

theorem keeps_broken (b : Broken) : KeepsTo T P (throw (.broken b)) :=
  fun _ hm => ends_throw ⟨hm, trivial⟩

theorem keeps_fault {t : Token} (ht : T t) (reason : Reason) : KeepsTo T P (Exec.fault t reason) :=
  fun _ hm => ends_throw ⟨hm, .inl ht, fun _ hc => by cases hc⟩

theorem keeps_get : KeepsTo T (fun m => m.heap.Made T) (get : Exec Machine) :=
  fun _ hm => ends_of_ok rfl ⟨hm, hm⟩

theorem keeps_heap : KeepsTo T (Heap.Made T) Exec.heap := fun _ hm => ends_of_ok rfl ⟨hm, hm⟩

theorem keeps_modify {g : Machine → Machine} (h : ∀ m, m.heap.Made T → (g m).heap.Made T) :
    Keeps T (modify g : Exec PUnit) :=
  fun m hm => ends_of_ok rfl ⟨h m hm, trivial⟩

theorem keeps_make {g : Heap → α × Heap} (h : ∀ h, h.Made T → (g h).2.Made T) :
    Keeps T (Exec.make g) :=
  fun m hm => ends_of_ok rfl ⟨h m.heap hm, trivial⟩

theorem keeps_promised (r : Except Broken α) : Keeps T (Exec.promised r) := by
  cases r with
  | ok a => exact keeps_pure trivial
  | error b => exact keeps_broken b

theorem keeps_define (name : String) (v : Value) : Keeps T (Exec.define name v) :=
  keeps_modify fun _ hm => hm.of_functions rfl

theorem keeps_inFrame {frame : Id} (h : KeepsTo T P act) : KeepsTo T P (Exec.inFrame frame act) :=
  fun m hm => Exec.ends_inFrame ((h { m with frame } hm).mono (fun _ _ _ hq => hq) fun _ _ he => he)

/-- A fault that leaves a call takes the line of its closing parenthesis along. -/
theorem keeps_asCall (s : Setting) {name : String} {paren : Token} (hp : paren.From T .rightParen)
    (h : KeepsTo T P act) : KeepsTo T P (Exec.asCall s ⟨name, paren.line⟩ act) := by
  intro m hm
  have hm' : (m.enter s ⟨name, paren.line⟩).heap.Made T := hm
  refine Exec.ends_asCall ((h _ hm').mono (fun _ _ _ hq => hq) fun i m' he => ?_)
  cases i with
  | fault f =>
    refine ⟨he.1, he.2.1, fun call hc => ?_⟩
    rcases List.mem_append.1 hc with hc | hc
    · exact he.2.2 call hc
    · cases List.mem_singleton.1 hc
      exact ⟨paren, hp, rfl⟩
  | broken b => exact he
  | outOfFuel => exact he

theorem keeps_runNative (native : Native) (args : List Value) :
    Keeps T (Exec.runNative native args) := by
  intro m hm
  have hp : ∀ f : NativeFault, Interrupt.Points T (.fault ⟨f.token, .native f.reason, []⟩) :=
    fun f => ⟨.inr ⟨f.reason, rfl⟩, fun _ hc => by cases hc⟩
  unfold Exec.runNative
  cases hr : native.act args m.clock with
  | mk result clock =>
    cases result with
    | ok v => exact ends_of_ok (a := v) (t := { m with clock }) (by simp only [hr]) ⟨hm, trivial⟩
    | error f =>
      exact ends_of_error (e := .fault ⟨f.token, .native f.reason, []⟩) (t := { m with clock })
        (by simp only [hr]) ⟨hm, hp f⟩

end

/-! ## References -/

section
variable {s : Setting} (hs : s.scoping = .static)

theorem keeps_lookUp (frame : Id) {t : Token} (ht : T t) :
    Keeps T (Exec.lookUp frame t) := by
  unfold Exec.lookUp
  refine keeps_bind keeps_heap fun h _ => ?_
  split
  · exact keeps_pure trivial
  · exact keeps_fault ht _

theorem keeps_assignFrom (frame : Id) {t : Token} (ht : T t) (v : Value) :
    Keeps T (Exec.assignFrom frame t v) := by
  unfold Exec.assignFrom
  refine keeps_bind keeps_heap fun h _ => ?_
  split
  · exact keeps_modify fun _ hm => hm.of_functions rfl
  · exact keeps_fault ht _

theorem keeps_read {ref : Reference} (hr : T ref.token) :
    Keeps T (Exec.read s ref) := by
  unfold Exec.read
  split
  · exact keeps_bind keeps_heap fun h _ => keeps_bind keeps_get fun m _ => keeps_promised _
  · exact keeps_lookUp _ hr
  · exact keeps_bind keeps_get fun m _ => keeps_lookUp _ hr

theorem keeps_write {ref : Reference} (hr : T ref.token) (v : Value) :
    Keeps T (Exec.write s ref v) := by
  unfold Exec.write
  split
  · refine keeps_bind keeps_heap fun h _ => keeps_bind keeps_get fun m _ => ?_
    exact keeps_bind (keeps_promised _) fun g _ => keeps_modify fun _ hm => hm.of_functions rfl
  · exact keeps_assignFrom _ hr v
  · exact keeps_bind keeps_get fun m _ => keeps_assignFrom _ hr v

include hs in
/-- Found by distance, the parts of `super` are there or a promise is broken. -/
theorem keeps_superParts (ref : Reference) : Keeps T (Exec.superParts s ref) := by
  unfold Exec.superParts
  rw [hs]
  cases ref.hops with
  | none => exact keeps_broken _
  | some hops =>
    refine keeps_bind keeps_get fun m _ => keeps_bind keeps_heap fun h _ => ?_
    refine keeps_bind (keeps_promised _) fun v _ => keeps_bind keeps_heap fun h' _ => ?_
    exact keeps_bind (keeps_promised _) fun w _ => keeps_pure trivial

include hs in
theorem keeps_superMethod (ref : Reference) {method : Token} (ht : T method) :
    Keeps T (Eval.superMethod s ref method) := by
  unfold Eval.superMethod
  refine keeps_bind (keeps_superParts hs ref) fun p _ => ?_
  split
  · refine keeps_bind keeps_heap fun h _ => ?_
    split
    · exact keeps_map (keeps_make fun h hm => Heap.made_bindMethod hm _ _)
    · exact keeps_fault ht _
  · exact keeps_broken _
  · exact keeps_broken _

end

/-! ## Operators, properties and declarations -/

section
variable {t : Token} (ht : T t)
include ht

theorem keeps_unaryOp (op : UnaryOp) (v : Value) :
    Keeps T (Eval.unaryOp op t v) := by
  unfold Eval.unaryOp
  split
  · exact keeps_pure trivial
  · exact keeps_pure trivial
  · exact keeps_fault ht _

theorem keeps_numericOp (f : Number → Number → Value) (a b : Value) :
    Keeps T (Eval.numericOp t f a b) := by
  unfold Eval.numericOp
  split
  · exact keeps_pure trivial
  · exact keeps_fault ht _

theorem keeps_addOp (a b : Value) : Keeps T (Eval.addOp t a b) := by
  unfold Eval.addOp
  split
  · exact keeps_pure trivial
  · exact keeps_pure trivial
  · exact keeps_fault ht _

theorem keeps_binaryOp (op : BinaryOp) (a b : Value) :
    Keeps T (Eval.binaryOp op t a b) := by
  cases op with
  | equal | notEqual => exact keeps_pure trivial
  | add => exact keeps_addOp ht a b
  | _ => exact keeps_numericOp ht _ a b

theorem keeps_getProperty (object : Value) :
    Keeps T (Eval.getProperty object t) := by
  unfold Eval.getProperty
  split
  · refine keeps_bind (keeps_make fun h hm => Heap.made_getProperty hm _ _) fun o _ => ?_
    split
    · exact keeps_pure trivial
    · exact keeps_fault ht _
  · exact keeps_fault ht _

end

theorem keeps_superclassOf (s : Setting) {superclass : Option Reference}
    (hr : ∀ ref ∈ superclass, ref.token.From T .identifier) :
    Keeps T (Eval.superclassOf s superclass) := by
  cases superclass with
  | none => exact keeps_pure trivial
  | some ref =>
    refine keeps_bind (keeps_read (hr ref rfl).1) fun v _ => ?_
    split
    · exact keeps_pure trivial
    · exact keeps_fault (hr ref rfl).1 _

theorem keeps_declareClass (s : Setting) (name : Token) {superclass : Option Reference}
    {methods : List (FunDecl Stmt)} (hr : ∀ ref ∈ superclass, ref.token.From T .identifier)
    (hd : FunDecl.MadeAll T methods) :
    Keeps T (Eval.declareClass s name superclass methods) := by
  unfold Eval.declareClass
  refine keeps_bind (keeps_superclassOf s hr) fun parent _ => keeps_bind keeps_get fun m _ => ?_
  have hend : ∀ frame : Id, Keeps T (do
      let table ← Exec.make (·.newMethods frame methods)
      let c ← Exec.make (·.newClass ⟨name.lexeme, parent, table⟩)
      Exec.define name.lexeme (.cls c)) := by
    intro frame
    refine keeps_bind (keeps_make fun h hm => Heap.made_newMethods frame hd hm) fun table _ => ?_
    refine keeps_bind (keeps_make fun h hm => hm.of_functions rfl) fun c _ => keeps_define _ _
  cases parent with
  | none => exact keeps_bind (P := fun _ => True) (keeps_pure trivial) fun frame _ => hend frame
  | some c =>
    exact keeps_bind (keeps_make fun h hm => hm.of_functions rfl) fun frame _ => hend frame

/-! ## Evaluation -/

/-- What the functions of the evaluator keep with the fuel `n`. -/
structure KeepsAll (T : Token → Prop) (s : Setting) (n : Nat) : Prop where
  evaluate : ∀ {e : Expr}, e.Made T → Keeps T (Eval.evaluate s n e)
  evaluateAll : ∀ {es}, Expr.MadeAll T es → Keeps T (Eval.evaluateAll s n es)
  apply : ∀ callee args, Keeps T (Eval.apply s n callee args)
  runFunction : ∀ f args, Keeps T (Eval.runFunction s n f args)
  execute : ∀ {stmt : Stmt}, stmt.Made T → Keeps T (Eval.execute s n stmt)
  executeAll : ∀ {ss}, Stmt.MadeAll T ss → Keeps T (Eval.executeAll s n ss)

section
variable {s : Setting} (hs : s.scoping = .static) {n : Nat} (ih : KeepsAll T s n)
include ih

theorem KeepsAll.call_succ {callee : Expr} {paren : Token} {args : List Expr}
    (h : (Expr.call callee paren args).Made T) :
    Keeps T (Eval.evaluate s (n + 1) (.call callee paren args)) := by
  unfold Eval.evaluate
  refine keeps_bind (ih.evaluate h.1) fun f _ => keeps_bind (ih.evaluateAll h.2.2) fun vs _ => ?_
  refine keeps_bind keeps_heap fun heap _ => ?_
  split
  · exact keeps_fault h.2.1.1 _
  · split
    · exact keeps_asCall s h.2.1 (ih.apply f vs)
    · exact keeps_fault h.2.1.1 _

include hs in
theorem KeepsAll.evaluate_succ {e : Expr} (h : e.Made T) :
    Keeps T (Eval.evaluate s (n + 1) e) := by
  cases e with
  | call callee paren args => exact ih.call_succ h
  | literal c => exact keeps_pure trivial
  | group inner =>
    exact ih.evaluate (e := inner) h
  | unary op token right =>
    exact keeps_bind (ih.evaluate h.2) fun v _ => keeps_unaryOp h.1.1 op v
  | binary op token left right =>
    exact keeps_bind (ih.evaluate h.2.1) fun a _ => keeps_bind (ih.evaluate h.2.2) fun b _ =>
      keeps_binaryOp h.1.1 op a b
  | logical op token left right =>
    refine keeps_bind (ih.evaluate h.2.1) fun a _ => ?_
    split
    · exact keeps_pure trivial
    · exact ih.evaluate h.2.2
  | name ref => exact keeps_read h.1
  | assign ref value =>
    exact keeps_bind (ih.evaluate h.2) fun v _ => keeps_bind (keeps_write h.1.1 v) fun _ _ =>
      keeps_pure trivial
  | get object property =>
    exact keeps_bind (ih.evaluate h.1) fun o _ => keeps_getProperty h.2.1 o
  | set object property value =>
    refine keeps_bind (ih.evaluate h.1) fun o _ => ?_
    split
    · refine keeps_bind (ih.evaluate h.2.2) fun v _ => ?_
      exact keeps_bind (keeps_modify fun _ hm => hm.of_functions rfl) fun _ _ => keeps_pure trivial
    · exact keeps_fault h.2.1.1 _
  | thisRef ref => exact keeps_read h.1
  | superRef ref method => exact keeps_superMethod hs ref h.2.1

theorem KeepsAll.evaluateAll_succ {es : List Expr} (h : Expr.MadeAll T es) :
    Keeps T (Eval.evaluateAll s (n + 1) es) := by
  cases es with
  | nil => exact keeps_pure trivial
  | cons e es =>
    exact keeps_bind (ih.evaluate h.1) fun v _ => keeps_bind (ih.evaluateAll h.2) fun vs _ =>
      keeps_pure trivial

theorem KeepsAll.apply_succ (callee : Value) (args : List Value) :
    Keeps T (Eval.apply s (n + 1) callee args) := by
  unfold Eval.apply
  cases callee with
  | native id =>
    simp only
    split
    · exact keeps_runNative _ args
    · exact keeps_broken _
  | function f => exact ih.runFunction f args
  | cls c =>
    refine keeps_bind (keeps_make fun h hm => hm.of_functions rfl) fun o _ => ?_
    refine keeps_bind keeps_heap fun h _ => ?_
    split
    · refine keeps_bind (keeps_make fun h hm => Heap.made_bindMethod hm _ _) fun f _ => ?_
      exact keeps_bind (ih.runFunction f args) fun _ _ => keeps_pure trivial
    · exact keeps_pure trivial
  | _ => exact keeps_broken _

theorem KeepsAll.runFunction_succ (f : Id) (args : List Value) :
    Keeps T (Eval.runFunction s (n + 1) f args) := by
  unfold Eval.runFunction
  refine keeps_bind keeps_heap fun h hm => ?_
  split
  · exact keeps_broken _
  · rename_i closure hc
    refine keeps_bind (keeps_make fun h hm => hm.of_functions rfl) fun frame _ => ?_
    refine keeps_bind (keeps_inFrame (ih.executeAll (hm f closure hc).body)) fun ending _ => ?_
    split
    · exact keeps_bind keeps_heap fun h _ => keeps_promised _
    · split <;> exact keeps_pure trivial

theorem KeepsAll.executeAll_succ {ss : List Stmt} (h : Stmt.MadeAll T ss) :
    Keeps T (Eval.executeAll s (n + 1) ss) := by
  cases ss with
  | nil => exact keeps_pure trivial
  | cons stmt ss =>
    refine keeps_bind (ih.execute h.1) fun c _ => ?_
    split
    · exact keeps_pure trivial
    · exact ih.executeAll h.2

theorem KeepsAll.execute_succ {stmt : Stmt} (h : stmt.Made T) :
    Keeps T (Eval.execute s (n + 1) stmt) := by
  cases stmt with
  | expression e => exact keeps_bind (ih.evaluate (e := e) h) fun v _ => keeps_pure trivial
  | print e =>
    refine keeps_bind (ih.evaluate (e := e) h) fun v _ => ?_
    exact keeps_bind (keeps_modify fun _ hm => hm.of_functions rfl) fun _ _ => keeps_pure trivial
  | var name init =>
    have hend : ∀ v : Value, Keeps T (do
        Exec.define name.lexeme v
        pure Completion.completed) :=
      fun v => keeps_bind (keeps_define _ v) fun _ _ => keeps_pure trivial
    cases init with
    | none => exact hend .nil
    | some e => exact keeps_bind (ih.evaluate (h.2 e rfl)) fun v _ => hend v
  | block body =>
    refine keeps_bind keeps_get fun m _ => ?_
    refine keeps_bind (keeps_make fun h hm => hm.of_functions rfl) fun frame _ => ?_
    have hbody : Stmt.MadeAll T body := h
    exact keeps_inFrame (ih.executeAll hbody)
  | ifThen test yes =>
    refine keeps_bind (ih.evaluate h.1) fun v _ => ?_
    split
    · exact ih.execute h.2
    · exact keeps_pure trivial
  | ifElse test yes no =>
    refine keeps_bind (ih.evaluate h.1) fun v _ => ?_
    split
    · exact ih.execute h.2.1
    · exact ih.execute h.2.2
  | loop test body =>
    refine keeps_bind (ih.evaluate h.1) fun v _ => ?_
    split
    · refine keeps_bind (ih.execute h.2) fun c _ => ?_
      split
      · exact keeps_pure trivial
      · have hloop : (Stmt.loop test body).Made T := h
        exact ih.execute hloop
    · exact keeps_pure trivial
  | function decl =>
    refine keeps_bind keeps_get fun m _ => ?_
    refine keeps_bind (keeps_make fun heap hm => Heap.made_newFunction hm h) fun f _ => ?_
    exact keeps_bind (keeps_define _ _) fun _ _ => keeps_pure trivial
  | ret keyword o =>
    cases o with
    | none => exact keeps_pure trivial
    | some e => exact keeps_bind (ih.evaluate (h.2 e rfl)) fun v _ => keeps_pure trivial
  | classDecl name superclass methods =>
    exact keeps_bind (keeps_declareClass s name h.2.1 h.2.2) fun _ _ => keeps_pure trivial

end

section
variable {s : Setting} (hs : s.scoping = .static)
include hs

theorem keepsAll (T : Token → Prop) : ∀ n, KeepsAll T s n
  | 0 => by constructor <;> intros <;> exact keeps_outOfFuel
  | n + 1 =>
    have ih := keepsAll T n
    { evaluate := ih.evaluate_succ hs
      evaluateAll := ih.evaluateAll_succ
      apply := ih.apply_succ
      runFunction := ih.runFunction_succ
      execute := ih.execute_succ
      executeAll := ih.executeAll_succ }

theorem keeps_executeEach (fuel : Nat) : ∀ {ss : List Stmt}, Stmt.MadeAll T ss →
    Keeps T (Session.executeEach s fuel ss)
  | [], _ => keeps_pure trivial
  | _ :: _, h => keeps_bind ((keepsAll hs T fuel).execute h.1) fun _ _ => keeps_executeEach fuel h.2

end

/-! ## Programs -/

/-- A program that ends in a fault ends in one that points at tokens of `T`. -/
def Ending.Points (T : Token → Prop) (e : Ending) : Prop :=
  ∀ f, e = .fault f → (Interrupt.fault f).Points T

namespace Session

section
variable {s : Setting} (hs : s.scoping = .static) (fuel : Nat) {stmts : List Stmt}
  (h : Stmt.MadeAll T stmts)
include hs h

theorem points_interpret {m : Machine} (hm : m.heap.Made T) :
    (interpret s fuel stmts m).1.Points T ∧ (interpret s fuel stmts m).2.heap.Made T := by
  have hend := keeps_executeEach hs fuel h (m.record (.interpret s.path stmts.length)) hm
  unfold interpret
  cases hr : executeEach s fuel stmts (m.record (.interpret s.path stmts.length)) with
  | ok a m' =>
    simp only [hr]
    exact ⟨fun f hf => (by cases hf), (hend.ok hr).1⟩
  | error i m' =>
    obtain ⟨hm', hi⟩ := hend.error hr
    cases i with
    | fault f =>
      simp only [hr]
      exact ⟨fun f' hf => Ending.fault.inj hf ▸ hi, hm'⟩
    | broken b =>
      simp only [hr]
      exact ⟨fun f hf => (by cases hf), hm'⟩
    | outOfFuel =>
      simp only [hr]
      exact ⟨fun f hf => (by cases hf), hm'⟩

theorem points_interpretRounds : ∀ (rounds : Nat) {m : Machine}, m.heap.Made T →
    (interpretRounds s fuel stmts rounds m).1.Points T
  | 0, _, _ => fun f hf => by cases hf
  | rounds + 1, m, hm => by
    obtain ⟨hp, hm'⟩ := points_interpret hs fuel h hm
    unfold interpretRounds
    split
    · rename_i m' he
      rw [he] at hm'
      exact points_interpretRounds rounds hm'
    · exact hp

omit h in
/-- A program made of tokens of `T` ends in a fault only if that points at one of them. -/
theorem points_runProgram (options : RunOptions) {p : Program} {m : Machine}
    (hp : Stmt.MadeAll T p.statements) (hm : m.heap.Made T) :
    (runProgram s fuel options p m).ending.Points T := by
  have hfinished : Ending.Points T .finished := fun f hf => by cases hf
  have hstatements : Stmt.MadeAll T (if options.unbound then p.statements else p.bound) := by
    split
    · exact hp
    · exact Stmt.madeAll_bindAll [] _ hp
  unfold runProgram
  split
  · simp only
    split
    · exact points_interpretRounds hs fuel hstatements options.rounds hm
    · exact hfinished
  · exact hfinished

end

theorem diagnostics_runProgram (s : Setting) (fuel : Nat) (options : RunOptions) (p : Program)
    (m : Machine) : (runProgram s fuel options p m).diagnostics = p.diagnostics ∨
      (runProgram s fuel options p m).diagnostics = p.diagnostics ++ p.violations := by
  unfold runProgram
  split
  · simp only
    split <;> exact .inr rfl
  · exact .inl rfl

end Session

end Lox

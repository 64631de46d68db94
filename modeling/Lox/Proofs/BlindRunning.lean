import Lox.Proofs.Bare
import Lox.Proofs.Exec
import Lox.Proofs.Growth
import Lox.Session

/-!
# Running is blind to places

A running program meets tokens in its code, in the functions of the heap and in faults, and it keeps
the lines of calls in traces and in the log. `Machine.bare` takes the places from the functions of a
machine, and leaves out its calls and its log. Two actions are the `Same` if, begun in machines that
are equal when bare, they end in equal ways and in such machines again.

Main statement: a statement and the bare statement are the same action (`blindly`). Evaluation
therefore looks at no place, and neither at the calls nor at the log.
-/

namespace Lox

/-! ## Machines without places -/

def Closure.bare (c : Closure) : Closure := { c with decl := FunDecl.relabel .bare c.decl }

def Heap.bare (h : Heap) : Heap := { h with functions := h.functions.map .bare }

theorem CallStack.depth_nil : 0 = ([] : List Call).length := rfl

/-- The machine without the places of its functions, its calls and its log. -/
def Machine.bare (m : Machine) : Machine :=
  { m with heap := m.heap.bare, calls := ⟨[], 0, CallStack.depth_nil⟩, log := #[] }

theorem Machine.frame_of_bare {m m' : Machine} (h : m.bare = m'.bare) : m.frame = m'.frame :=
  show m.bare.frame = m'.bare.frame from congrArg Machine.frame h

/-- The call without its line. -/
def Call.bare (c : Call) : Call := { c with line := 0 }

def Fault.bare (f : Fault) : Fault := ⟨f.token.bare, f.reason, f.trace.map .bare⟩

def Interrupt.bare : Interrupt → Interrupt
  | .fault f => .fault f.bare
  | i => i

theorem Interrupt.eq_fault_of_bare {f : Fault} {i' : Interrupt}
    (h : (Interrupt.fault f).bare = i'.bare) : ∃ f', i' = .fault f' ∧ f.bare = f'.bare := by
  cases i' with
  | fault f' => exact ⟨f', rfl, Interrupt.fault.inj h⟩
  | broken b => cases h
  | outOfFuel => cases h

theorem Interrupt.eq_broken_of_bare {b : Broken} {i' : Interrupt}
    (h : (Interrupt.broken b).bare = i'.bare) : i' = .broken b := by
  cases i' with
  | broken b' => exact h.symm
  | fault f => cases h
  | outOfFuel => cases h

theorem Interrupt.eq_outOfFuel_of_bare {i' : Interrupt}
    (h : Interrupt.outOfFuel.bare = i'.bare) : i' = .outOfFuel := by
  cases i' with
  | outOfFuel => rfl
  | fault f => cases h
  | broken b => cases h

theorem Fault.leaving_of_bare {f f' : Fault} {c c' : Call} (hf : f.bare = f'.bare)
    (hc : c.name = c'.name) : (f.leaving c).bare = (f'.leaving c').bare := by
  obtain ⟨ht, hr, hs⟩ := Fault.mk.inj hf
  have hb : c.bare = c'.bare := congrArg (Call.mk · 0) hc
  simp only [leaving, bare, List.map_append, List.map_cons, List.map_nil, ht, hr, hs, hb]

theorem Closure.bare_relabel (c : Closure) :
    Closure.bare { c with decl := FunDecl.relabel .bare c.decl } = c.bare :=
  congrArg (fun decl => { c with decl }) (FunDecl.relabel_relabel .bare .bare c.decl)

theorem Closure.params_of_bare {c c' : Closure} (h : c.bare = c'.bare) :
    c.decl.params.map (·.lexeme) = c'.decl.params.map (·.lexeme) := by
  have hp : c.decl.params.map Token.bare = c'.decl.params.map Token.bare := by
    simpa only [Closure.bare, FunDecl.params_relabel] using
      congrArg (fun c : Closure => c.decl.params) h
  have hl : (c.decl.params.map Token.bare).map (·.lexeme) =
      (c'.decl.params.map Token.bare).map (·.lexeme) := by rw [hp]
  simpa only [List.map_map, Function.comp_def, Token.lexeme_bare] using hl

theorem Closure.body_of_bare {c c' : Closure} (h : c.bare = c'.bare) :
    Stmt.relabelAll .bare c.decl.body = Stmt.relabelAll .bare c'.decl.body := by
  simpa only [Closure.bare, FunDecl.body_relabel] using
    congrArg (fun c : Closure => c.decl.body) h

namespace Heap

variable {α : Type} {h h' : Heap}

/-! ### What is read -/

theorem chainWithin_bare (h : Heap) : ∀ (n : Nat) (f : Id), h.bare.chainWithin n f = h.chainWithin n f
  | 0, _ => rfl
  | n + 1, f => by
    have hp : h.bare.parent? f = h.parent? f := rfl
    rw [chainWithin, chainWithin, hp]
    cases h.parent? f with
    | none => rfl
    | some p => exact congrArg (f :: ·) (chainWithin_bare h n p)

theorem get?_bare (f : Id) (name : String) (h : Heap) : h.bare.get? f name = h.get? f name := by
  unfold get? chain
  rw [chainWithin_bare]
  rfl

theorem holder?_bare (f : Id) (name : String) (h : Heap) :
    h.bare.holder? f name = h.holder? f name := by
  unfold holder? chain
  rw [chainWithin_bare]
  rfl

theorem ancestor?_bare (h : Heap) : ∀ (n : Nat) (f : Id), h.bare.ancestor? f n = h.ancestor? f n
  | 0, _ => rfl
  | n + 1, f => by
    have hp : h.bare.parent? f = h.parent? f := rfl
    rw [ancestor?, ancestor?, hp]
    cases h.parent? f with
    | none => rfl
    | some p => exact ancestor?_bare h n p

theorem getAt_bare (f : Id) (hops : Int) (name : String) (h : Heap) :
    h.bare.getAt f hops name = h.getAt f hops name := by
  unfold getAt
  rw [ancestor?_bare]
  rfl

theorem slotAt_bare (f : Id) (hops : Int) (name : String) (h : Heap) :
    h.bare.slotAt f hops name = h.slotAt f hops name := by
  unfold slotAt
  rw [ancestor?_bare]
  rfl

theorem lineageWithin_bare (h : Heap) :
    ∀ (n : Nat) (c : Id), h.bare.lineageWithin n c = h.lineageWithin n c
  | 0, _ => rfl
  | n + 1, c => by
    have hs : h.bare.superclass? c = h.superclass? c := rfl
    rw [lineageWithin, lineageWithin, hs]
    cases h.superclass? c with
    | none => rfl
    | some p => exact congrArg (c :: ·) (lineageWithin_bare h n p)

theorem findMethod?_bare (c : Id) (name : String) (h : Heap) :
    h.bare.findMethod? c name = h.findMethod? c name := by
  unfold findMethod? lineage
  rw [lineageWithin_bare]
  rfl

theorem initializer?_bare (c : Id) (h : Heap) : h.bare.initializer? c = h.initializer? c := by
  unfold initializer?
  rw [findMethod?_bare]

theorem property?_bare (object : Id) (name : String) (h : Heap) :
    h.bare.property? object name = h.property? object name := by
  simp only [property?, findMethod?_bare]
  rfl

theorem functionName_bare (f : Id) (h : Heap) : h.bare.functionName f = h.functionName f := by
  simp only [functionName, bare, Array.getElem?_map, Option.map_map, Function.comp_def,
    Closure.bare, FunDecl.name_relabel, Token.lexeme_bare]

theorem functionArity_bare (f : Id) (h : Heap) : h.bare.functionArity f = h.functionArity f := by
  simp only [functionArity, bare, Array.getElem?_map, Option.map_map, Function.comp_def,
    Closure.bare, FunDecl.params_relabel, List.length_map]

theorem text_bare (v : Value) (h : Heap) : h.bare.text v = h.text v := by
  cases v with
  | function f => simp only [text, functionName_bare]
  | _ => rfl

theorem classArity_bare (c : Id) (h : Heap) : h.bare.classArity c = h.classArity c := by
  have ha : h.bare.functionArity = h.functionArity := funext fun f => functionArity_bare f h
  rw [classArity, classArity, initializer?_bare, ha]

theorem callable?_bare (s : Setting) (v : Value) (h : Heap) :
    Eval.callable? s h.bare v = Eval.callable? s h v := by
  cases v with
  | function f => simp only [Eval.callable?, functionName_bare, functionArity_bare]
  | cls c =>
    simp only [Eval.callable?, classArity_bare]
    rfl
  | _ => rfl

section
variable (he : h.bare = h'.bare)
include he

/-! Heaps that are equal when bare are read alike. -/

theorem get?_of_bare (f : Id) (name : String) : h.get? f name = h'.get? f name := by
  rw [← get?_bare, he, get?_bare]

theorem holder?_of_bare (f : Id) (name : String) : h.holder? f name = h'.holder? f name := by
  rw [← holder?_bare, he, holder?_bare]

theorem getAt_of_bare (f : Id) (hops : Int) (name : String) :
    h.getAt f hops name = h'.getAt f hops name := by
  rw [← getAt_bare, he, getAt_bare]

theorem slotAt_of_bare (f : Id) (hops : Int) (name : String) :
    h.slotAt f hops name = h'.slotAt f hops name := by
  rw [← slotAt_bare, he, slotAt_bare]

theorem findMethod?_of_bare (c : Id) (name : String) :
    h.findMethod? c name = h'.findMethod? c name := by
  rw [← findMethod?_bare, he, findMethod?_bare]

theorem initializer?_of_bare (c : Id) : h.initializer? c = h'.initializer? c := by
  rw [← initializer?_bare, he, initializer?_bare]

theorem callable?_of_bare (s : Setting) (v : Value) :
    Eval.callable? s h v = Eval.callable? s h' v := by
  rw [← callable?_bare, he, callable?_bare]

theorem functions_of_bare (f : Id) :
    h.functions[f]?.map Closure.bare = h'.functions[f]?.map Closure.bare := by
  rw [← Array.getElem?_map, ← Array.getElem?_map]
  exact congrArg (fun h : Heap => h.functions[f]?) he

end

/-! ### What is made -/

/-- What is made and the heap with it, without places. -/
def bareMade (r : α × Heap) : α × Heap := (r.1, r.2.bare)

theorem bare_newFunction (h : Heap) (c : Closure) :
    bareMade (h.newFunction c) = h.bare.newFunction c.bare := by
  simp [bareMade, newFunction, bare]

theorem bare_bindMethod (h : Heap) (method object : Id) :
    bareMade (h.bindMethod method object) = h.bare.bindMethod method object := by
  unfold bindMethod
  rw [show h.bare.functions[method]? = h.functions[method]?.map .bare from Array.getElem?_map ..]
  cases h.functions[method]? with
  | none => rfl
  | some closure => exact bare_newFunction _ _

theorem bare_getProperty (h : Heap) (object : Id) (name : String) :
    bareMade (h.getProperty object name) = h.bare.getProperty object name := by
  unfold getProperty
  rw [property?_bare]
  cases h.property? object name with
  | none => rfl
  | some p =>
    cases p with
    | field v => rfl
    | method f =>
      have hb := bare_bindMethod h f object
      simp only [← hb]
      rfl

theorem bare_addMethod (frame : Id) (made : Table Id × Heap) (d : FunDecl Stmt) :
    bareMade (addMethod frame made d) =
      addMethod frame (bareMade made) (FunDecl.relabel .bare d) := by
  have hf := bare_newFunction made.2 ⟨d, frame, d.isInitializer⟩
  have hd : Closure.bare ⟨d, frame, d.isInitializer⟩ =
      ⟨FunDecl.relabel .bare d, frame, (FunDecl.relabel .bare d).isInitializer⟩ := by
    simp only [Closure.bare, FunDecl.isInitializer, FunDecl.name_relabel, Token.lexeme_bare]
  rw [hd] at hf
  simp only [bareMade] at hf ⊢
  simp only [addMethod, ← hf, FunDecl.name_relabel, Token.lexeme_bare]

theorem bare_addMethods (frame : Id) : ∀ (ds : List (FunDecl Stmt)) (made : Table Id × Heap),
    bareMade (ds.foldl (addMethod frame) made) =
      (FunDecl.relabelAll .bare ds).foldl (addMethod frame) (bareMade made)
  | [], _ => rfl
  | d :: ds, made => by
    rw [FunDecl.relabelAll, List.foldl_cons, List.foldl_cons, bare_addMethods frame ds,
      bare_addMethod]

theorem bare_newMethods (frame : Id) (h : Heap) (decls : List (FunDecl Stmt)) :
    bareMade (h.newMethods frame decls) =
      h.bare.newMethods frame (FunDecl.relabelAll .bare decls) :=
  bare_addMethods frame decls ([], h)

end Heap

/-! ## The same action -/

namespace Exec

section
variable {α β : Type} {x x' x'' : Exec α}

/-- What an action comes to, without places. -/
def bareEnd : EStateM.Result Interrupt Machine α → EStateM.Result Interrupt Machine α
  | .ok a m => .ok a m.bare
  | .error i m => .error i.bare m.bare

/-- Two ends that are equal without places: equal values, or interrupts that are. -/
theorem eq_or_eq_of_bareEnd {r r' : EStateM.Result Interrupt Machine α}
    (h : bareEnd r = bareEnd r') :
    (∃ a m m', r = .ok a m ∧ r' = .ok a m' ∧ m.bare = m'.bare) ∨
      ∃ i i' m m', r = .error i m ∧ r' = .error i' m' ∧ i.bare = i'.bare ∧ m.bare = m'.bare := by
  cases r with
  | ok a m =>
    cases r' with
    | ok a' m' =>
      obtain ⟨rfl, hm⟩ := EStateM.Result.ok.inj h
      exact .inl ⟨a, m, m', rfl, rfl, hm⟩
    | error i' m' => cases h
  | error i m =>
    cases r' with
    | ok a' m' => cases h
    | error i' m' =>
      obtain ⟨hi, hm⟩ := EStateM.Result.error.inj h
      exact .inr ⟨i, i', m, m', rfl, rfl, hi, hm⟩

/-- Two actions that no place can tell apart (module doc). -/
def Same (x x' : Exec α) : Prop :=
  ∀ ⦃m m' : Machine⦄, m.bare = m'.bare → bareEnd (x m) = bareEnd (x' m')

theorem Same.symm (h : Same x x') : Same x' x := fun _ _ hm => (h hm.symm).symm

theorem Same.trans (h : Same x x') (h' : Same x' x'') : Same x x'' := fun _ _ hm =>
  (h rfl).trans (h' hm)

/-! ### Sequences -/

theorem same_pure (a : α) : Same (pure a) (pure a) := fun _ _ hm =>
  congrArg (EStateM.Result.ok a) hm

theorem same_throw {i i' : Interrupt} (hi : i.bare = i'.bare) :
    Same (throw i : Exec α) (throw i') := fun _ _ hm => congrArg₂ EStateM.Result.error hi hm

theorem same_fault {t t' : Token} (ht : t.bare = t'.bare) (reason : Reason) :
    Same (fault t reason : Exec α) (fault t' reason) :=
  same_throw (congrArg (fun t => Interrupt.fault ⟨t, reason, []⟩) ht)

theorem same_promised (r : Except Broken α) : Same (promised r) (promised r) := by
  cases r with
  | ok a => exact same_pure a
  | error b => exact same_throw rfl

theorem same_bind {f f' : α → Exec β} (hx : Same x x') (hf : ∀ a, Same (f a) (f' a)) :
    Same (x >>= f) (x' >>= f') := by
  intro m m' hm
  rcases eq_or_eq_of_bareEnd (hx hm) with
    ⟨a, m₁, m₁', hxm, hxm', hm₁⟩ | ⟨i, i', m₁, m₁', hxm, hxm', hi, hm₁⟩
  · rw [bind_ok hxm, bind_ok hxm']
    exact hf a hm₁
  · rw [bind_error hxm, bind_error hxm']
    exact congrArg₂ EStateM.Result.error hi hm₁

theorem same_map (g : α → β) (hx : Same x x') : Same (g <$> x) (g <$> x') :=
  same_bind hx fun a => same_pure (g a)

/-! ### Machines -/

theorem same_get {f f' : Machine → Exec β}
    (hf : ∀ m m', m.bare = m'.bare → Same (f m) (f' m')) :
    Same ((get : Exec Machine) >>= f) (get >>= f') := fun m m' hm => hf m m' hm hm

theorem same_heap {f f' : Heap → Exec β}
    (hf : ∀ h h', h.bare = h'.bare → Same (f h) (f' h')) :
    Same (heap >>= f) (heap >>= f') := fun m m' hm =>
  hf m.heap m'.heap (congrArg Machine.heap hm) hm

theorem same_modify {g : Machine → Machine} (hg : ∀ m, (g m).bare = g m.bare) :
    Same (modify g : Exec PUnit) (modify g) := by
  intro m m' hm
  change EStateM.Result.ok PUnit.unit (g m).bare = .ok .unit (g m').bare
  rw [hg m, hg m', hm]

theorem same_make {g g' : Heap → α × Heap}
    (hg : ∀ h h', h.bare = h'.bare → Heap.bareMade (g h) = Heap.bareMade (g' h')) :
    Same (make g) (make g') := by
  intro m m' hm
  have h := hg m.heap m'.heap (congrArg Machine.heap hm)
  change EStateM.Result.ok (g m.heap).1 { m.bare with heap := (g m.heap).2.bare } =
    .ok (g' m'.heap).1 { m'.bare with heap := (g' m'.heap).2.bare }
  obtain ⟨ha, hh⟩ := Prod.ext_iff.1 h
  rw [hm, show (g m.heap).1 = (g' m'.heap).1 from ha,
    show (g m.heap).2.bare = (g' m'.heap).2.bare from hh]

/-- Making something from what is not a place. -/
theorem same_make_of_bare {g : Heap → α × Heap} (hg : ∀ h, Heap.bareMade (g h) = g h.bare) :
    Same (make g) (make g) := same_make fun h h' he => by rw [hg h, hg h', he]

theorem same_define (name : String) (v : Value) : Same (define name v) (define name v) :=
  same_modify fun _ => rfl

theorem same_defineIn (frame : Id) (name : String) (v : Value) :
    Same (defineIn frame name v) (defineIn frame name v) := same_modify fun _ => rfl

theorem same_newFunction {c c' : Closure} (hc : c.bare = c'.bare) :
    Same (make (·.newFunction c)) (make (·.newFunction c')) := same_make fun h h' he => by
  rw [Heap.bare_newFunction, Heap.bare_newFunction, he, hc]

theorem same_newMethods (frame : Id) (decls : List (FunDecl Stmt)) :
    Same (make (·.newMethods frame decls))
      (make (·.newMethods frame (FunDecl.relabelAll .bare decls))) := same_make fun h h' he => by
  rw [Heap.bare_newMethods, Heap.bare_newMethods, FunDecl.relabelAll_relabelAll, he]
  rfl

/-! ### Frames and calls -/

theorem same_inFrame (frame : Id) (hx : Same x x') : Same (inFrame frame x) (inFrame frame x') := by
  intro m m' hm
  have hframe : m.frame = m'.frame := Machine.frame_of_bare hm
  have hinside : Machine.bare { m with frame } = Machine.bare { m' with frame } :=
    congrArg (fun m : Machine => { m with frame }) hm
  have h := hx hinside
  unfold inFrame
  rcases eq_or_eq_of_bareEnd h with
    ⟨a, m₁, m₁', hxm, hxm', hm₁⟩ | ⟨i, i', m₁, m₁', hxm, hxm', hi, hm₁⟩
  · simp only [hxm, hxm', hframe]
    exact congrArg (fun m : Machine => EStateM.Result.ok a { m with frame := m'.frame }) hm₁
  · simp only [hxm, hxm', hframe]
    exact congrArg₂ (fun i (m : Machine) => EStateM.Result.error i { m with frame := m'.frame })
      hi hm₁

/-- The lines of the calls may differ. -/
theorem same_asCall (s : Setting) {c c' : Call} (hc : c.name = c'.name) (hx : Same x x') :
    Same (asCall s c x) (asCall s c' x') := by
  intro m m' hm
  have hinside : (m.enter s c).bare = (m'.enter s c').bare := hm
  have h := hx hinside
  unfold asCall
  rcases eq_or_eq_of_bareEnd h with
    ⟨a, m₁, m₁', hxm, hxm', hm₁⟩ | ⟨i, i', m₁, m₁', hxm, hxm', hi, hm₁⟩
  · unfold Machine.enter at hxm hxm'
    simp only [hxm, hxm']
    exact congrArg (EStateM.Result.ok a) hm₁
  · unfold Machine.enter at hxm hxm'
    simp only [hxm, hxm']
    cases i with
    | fault f =>
      obtain ⟨f', rfl, hf⟩ := Interrupt.eq_fault_of_bare hi
      exact congrArg₂ (fun f m => EStateM.Result.error (Interrupt.fault f) m)
        (Fault.leaving_of_bare hf hc) hm₁
    | broken b =>
      cases Interrupt.eq_broken_of_bare hi
      exact congrArg (EStateM.Result.error (Interrupt.broken b)) hm₁
    | outOfFuel =>
      cases Interrupt.eq_outOfFuel_of_bare hi
      exact congrArg (EStateM.Result.error Interrupt.outOfFuel) hm₁

/-- Native functions see the clock only. -/
theorem same_runNative (native : Native) (args : List Value) :
    Same (runNative native args) (runNative native args) := by
  intro m m' hm
  have hc : m.clock = m'.clock := show m.bare.clock = m'.bare.clock from congrArg Machine.clock hm
  unfold runNative
  rw [hc]
  cases native.act args m'.clock with
  | mk result clock =>
    have hm₁ : ({ m with clock } : Machine).bare = ({ m' with clock } : Machine).bare :=
      congrArg (fun m : Machine => { m with clock }) hm
    cases result with
    | ok v => exact congrArg (EStateM.Result.ok v) hm₁
    | error f => exact congrArg (EStateM.Result.error _) hm₁

end

/-! ### References -/

variable (s : Setting) {t t' : Token}

theorem same_lookUp (frame : Id) (t : Token) :
    Same (lookUp frame t) (lookUp frame t.bare) := by
  refine same_heap fun h h' he => ?_
  rw [Token.lexeme_bare, Heap.get?_of_bare he]
  cases h'.get? frame t.lexeme with
  | some v => exact same_pure v
  | none => exact same_fault rfl _

theorem same_assignFrom (frame : Id) (t : Token) (v : Value) :
    Same (assignFrom frame t v) (assignFrom frame t.bare v) := by
  refine same_heap fun h h' he => ?_
  rw [Token.lexeme_bare, Heap.holder?_of_bare he]
  cases h'.holder? frame t.lexeme with
  | some g => exact same_defineIn g t.lexeme v
  | none => exact same_fault rfl _

theorem same_getAt {h h' : Heap} (he : h.bare = h'.bare) (frame : Id) (hops : Int)
    (name : String) :
    Same (promised (h.getAt frame hops name)) (promised (h'.getAt frame hops name)) := by
  rw [Heap.getAt_of_bare he]
  exact same_promised _

theorem same_read (ref : Reference) : Same (read s ref) (read s (ref.relabel .bare)) := by
  obtain ⟨token, hops⟩ := ref
  unfold read
  cases s.scoping with
  | dynamic =>
    refine same_get fun m m' hm => ?_
    rw [Machine.frame_of_bare hm]
    exact same_lookUp m'.frame token
  | static =>
    cases hops with
    | none => exact same_lookUp globals token
    | some hops =>
      refine same_heap fun h h' he => same_get fun m m' hm => ?_
      rw [Machine.frame_of_bare hm]
      exact same_getAt he m'.frame hops token.lexeme

theorem same_write (ref : Reference) (v : Value) :
    Same (write s ref v) (write s (ref.relabel .bare) v) := by
  obtain ⟨token, hops⟩ := ref
  unfold write
  cases s.scoping with
  | dynamic =>
    refine same_get fun m m' hm => ?_
    rw [Machine.frame_of_bare hm]
    exact same_assignFrom m'.frame token v
  | static =>
    cases hops with
    | none => exact same_assignFrom globals token v
    | some hops =>
      refine same_heap fun h h' he => same_get fun m m' hm => ?_
      rw [Machine.frame_of_bare hm, Heap.slotAt_of_bare he]
      exact same_bind (same_promised _) fun g => same_defineIn g token.lexeme v

theorem same_superParts (ref : Reference) :
    Same (superParts s ref) (superParts s (ref.relabel .bare)) := by
  obtain ⟨token, hops⟩ := ref
  unfold superParts
  cases s.scoping with
  | dynamic =>
    refine same_get fun m m' hm => ?_
    rw [Machine.frame_of_bare hm]
    refine same_bind (same_lookUp m'.frame token) fun superclass => ?_
    refine same_bind (same_lookUp m'.frame { token with lexeme := "this" }) fun object => ?_
    exact same_pure (superclass, object)
  | static =>
    cases hops with
    | none => exact same_throw rfl
    | some hops =>
      refine same_get fun m m' hm => ?_
      rw [Machine.frame_of_bare hm]
      refine same_heap fun h h' he => ?_
      refine same_bind (same_getAt he m'.frame hops "super") fun superclass => ?_
      refine same_heap fun h h' he => ?_
      refine same_bind (same_getAt he m'.frame (hops - 1) "this") fun object => ?_
      exact same_pure (superclass, object)

end Exec

namespace Eval

open Exec

/-! ## Evaluation -/

variable (s : Setting) (t : Token)

theorem same_unaryOp (op : UnaryOp) (v : Value) :
    Same (unaryOp op t v) (unaryOp op t.bare v) := by
  cases op with
  | not => exact same_pure _
  | negate =>
    cases v with
    | number n => exact same_pure _
    | _ => exact same_fault rfl _

theorem same_addOp (a b : Value) : Same (addOp t a b) (addOp t.bare a b) := by
  unfold addOp
  split
  · exact same_pure _
  · exact same_pure _
  · exact same_fault rfl _

theorem same_numericOp (f : Number → Number → Value) (a b : Value) :
    Same (numericOp t f a b) (numericOp t.bare f a b) := by
  unfold numericOp
  split
  · exact same_pure _
  · exact same_fault rfl _

theorem same_binaryOp (op : BinaryOp) (a b : Value) :
    Same (binaryOp op t a b) (binaryOp op t.bare a b) := by
  cases op with
  | equal | notEqual => exact same_pure _
  | add => exact same_addOp t a b
  | _ => exact same_numericOp t _ a b

theorem same_getProperty (object : Value) :
    Same (getProperty object t) (getProperty object t.bare) := by
  cases object with
  | object id =>
    refine same_bind (same_make_of_bare fun h => h.bare_getProperty id t.lexeme) fun v => ?_
    cases v with
    | some v => exact same_pure v
    | none => exact same_fault rfl _
  | _ => exact same_fault rfl _

theorem same_superMethod (ref : Reference) :
    Same (superMethod s ref t) (superMethod s (ref.relabel .bare) t.bare) := by
  unfold superMethod
  refine same_bind (same_superParts s ref) fun ⟨superclass, object⟩ => ?_
  split
  · rename_i c o _
    refine same_heap fun h h' he => ?_
    rw [Token.lexeme_bare, Heap.findMethod?_of_bare he]
    cases h'.findMethod? c t.lexeme with
    | some p => exact same_map _ (same_make_of_bare fun h => h.bare_bindMethod p.2 o)
    | none => exact same_fault rfl _
  · exact same_throw rfl
  · exact same_throw rfl

theorem same_superclassOf (superclass : Option Reference) :
    Same (superclassOf s superclass) (superclassOf s (superclass.map (·.relabel .bare))) := by
  cases superclass with
  | none => exact same_pure none
  | some ref =>
    refine same_bind (same_read s ref) fun v => ?_
    cases v with
    | cls c => exact same_pure (some c)
    | _ => exact same_fault rfl _

theorem same_declareClass (superclass : Option Reference) (methods : List (FunDecl Stmt)) :
    Same (declareClass s t superclass methods)
      (declareClass s t.bare (superclass.map (·.relabel .bare))
        (FunDecl.relabelAll .bare methods)) := by
  unfold declareClass
  refine same_bind (same_superclassOf s superclass) fun parent => same_get fun m m' hm => ?_
  rw [Machine.frame_of_bare hm]
  have hrest (frame : Id) : Same
      (do
        let table ← make (·.newMethods frame methods)
        let c ← make (·.newClass ⟨t.lexeme, parent, table⟩)
        define t.lexeme (.cls c))
      (do
        let table ← make (·.newMethods frame (FunDecl.relabelAll .bare methods))
        let c ← make (·.newClass ⟨t.lexeme, parent, table⟩)
        define t.lexeme (.cls c)) :=
    same_bind (same_newMethods frame methods) fun table =>
      same_bind (same_make_of_bare fun _ => rfl) fun c => same_define t.lexeme (.cls c)
  cases parent with
  | some c => exact same_bind (same_make_of_bare fun _ => rfl) hrest
  | none => exact hrest m'.frame

/-- With fuel `n`, code and bare code are the same. -/
structure Blindly (n : Nat) : Prop where
  evaluate : ∀ e, Same (evaluate s n e) (evaluate s n (e.relabel .bare))
  evaluateAll : ∀ es, Same (evaluateAll s n es) (evaluateAll s n (Expr.relabelAll .bare es))
  apply : ∀ callee args, Same (apply s n callee args) (apply s n callee args)
  runFunction : ∀ f args, Same (runFunction s n f args) (runFunction s n f args)
  execute : ∀ stmt, Same (execute s n stmt) (execute s n (stmt.relabel .bare))
  executeAll : ∀ stmts, Same (executeAll s n stmts) (executeAll s n (Stmt.relabelAll .bare stmts))

section
variable {s} {n : Nat} (ih : Blindly s n)
include ih

theorem same_evaluate (e : Expr) :
    Same (evaluate s (n + 1) e) (evaluate s (n + 1) (e.relabel .bare)) := by
  cases e with
  | literal c => exact same_pure c.value
  | group inner => exact ih.evaluate inner
  | unary op token right =>
    simp only [Expr.relabel, evaluate]
    exact same_bind (ih.evaluate right) fun v => same_unaryOp token op v
  | binary op token left right =>
    simp only [Expr.relabel, evaluate]
    exact same_bind (ih.evaluate left) fun a =>
      same_bind (ih.evaluate right) fun b => same_binaryOp token op a b
  | logical op token left right =>
    simp only [Expr.relabel, evaluate]
    refine same_bind (ih.evaluate left) fun a => ?_
    cases decides op a with
    | true => exact same_pure a
    | false => exact ih.evaluate right
  | name ref | thisRef ref => exact same_read s ref
  | assign ref value =>
    simp only [Expr.relabel, evaluate]
    exact same_bind (ih.evaluate value) fun v =>
      same_bind (same_write s ref v) fun _ => same_pure v
  | call callee paren args =>
    simp only [Expr.relabel, evaluate]
    refine same_bind (ih.evaluate callee) fun f => same_bind (ih.evaluateAll args) fun vs => ?_
    refine same_heap fun h h' he => ?_
    rw [Heap.callable?_of_bare he]
    cases callable? s h' f with
    | none => exact same_fault rfl _
    | some c =>
      by_cases hl : (vs.length : Int) = c.arity
      · simp only [hl, if_true]
        exact same_asCall s rfl (ih.apply f vs)
      · simp only [hl, if_false]
        exact same_fault rfl _
  | get object property =>
    simp only [Expr.relabel, evaluate]
    exact same_bind (ih.evaluate object) fun o => same_getProperty property o
  | set object property value =>
    simp only [Expr.relabel, evaluate]
    refine same_bind (ih.evaluate object) fun o => ?_
    cases o with
    | object id =>
      exact same_bind (ih.evaluate value) fun v =>
        same_bind (same_modify fun _ => rfl) fun _ => same_pure v
    | _ => exact same_fault rfl _
  | superRef ref method => exact same_superMethod s method ref

theorem same_evaluateAll (es : List Expr) :
    Same (evaluateAll s (n + 1) es) (evaluateAll s (n + 1) (Expr.relabelAll .bare es)) := by
  cases es with
  | nil => exact same_pure []
  | cons e es =>
    simp only [Expr.relabelAll, evaluateAll]
    exact same_bind (ih.evaluate e) fun v =>
      same_bind (ih.evaluateAll es) fun vs => same_pure (v :: vs)

theorem same_apply (callee : Value) (args : List Value) :
    Same (apply s (n + 1) callee args) (apply s (n + 1) callee args) := by
  cases callee with
  | native id =>
    simp only [apply]
    cases s.natives[id]? with
    | none => exact same_throw rfl
    | some native => exact same_runNative native args
  | function f => exact ih.runFunction f args
  | cls c =>
    simp only [apply]
    refine same_bind (same_make_of_bare fun _ => rfl) fun o => same_heap fun h h' he => ?_
    rw [Heap.initializer?_of_bare he]
    cases h'.initializer? c with
    | none => exact same_pure _
    | some init =>
      exact same_bind (same_make_of_bare fun h => h.bare_bindMethod init o) fun f =>
        same_bind (ih.runFunction f args) fun _ => same_pure _
  | _ => exact same_throw rfl

/-- The two machines may keep the function with its tokens in other places; either body is the same
action as the bare one. -/
theorem same_runFunction (f : Id) (args : List Value) :
    Same (runFunction s (n + 1) f args) (runFunction s (n + 1) f args) := by
  simp only [runFunction]
  refine same_heap fun h h' he => ?_
  have hf := Heap.functions_of_bare he f
  cases hc : h.functions[f]? with
  | none =>
    rw [hc] at hf
    rw [Option.map_eq_none_iff.1 hf.symm]
    exact same_throw rfl
  | some c =>
    rw [hc] at hf
    obtain ⟨c', hc', hcc⟩ := Option.map_eq_some_iff.1 hf.symm
    rw [hc']
    have hframe : c'.frame = c.frame := show c'.bare.frame = c.bare.frame by rw [hcc]
    have hinit : c'.isInitializer = c.isInitializer :=
      show c'.bare.isInitializer = c.bare.isInitializer by rw [hcc]
    have hbody : Same (executeAll s n c.decl.body) (executeAll s n c'.decl.body) := by
      have hb := ih.executeAll c'.decl.body
      rw [Closure.body_of_bare hcc] at hb
      exact (ih.executeAll c.decl.body).trans hb.symm
    simp only [Closure.params_of_bare hcc, hframe, hinit]
    refine same_bind (same_make_of_bare fun _ => rfl) fun frame => ?_
    refine same_bind (same_inFrame frame hbody) fun ending => ?_
    by_cases hi : c.isInitializer = true
    · simp only [hi, if_true]
      exact same_heap fun h h' he => same_getAt he c.frame 0 "this"
    · simp only [hi]
      cases ending with
      | returned v => exact same_pure v
      | completed => exact same_pure Value.nil

theorem same_execute (stmt : Stmt) :
    Same (execute s (n + 1) stmt) (execute s (n + 1) (stmt.relabel .bare)) := by
  cases stmt with
  | expression e =>
    simp only [Stmt.relabel, execute]
    exact same_bind (ih.evaluate e) fun _ => same_pure _
  | print e =>
    simp only [Stmt.relabel, execute]
    refine same_bind (ih.evaluate e) fun v => same_bind (same_modify fun m => ?_) fun _ =>
      same_pure _
    have ht : m.bare.heap.text v = m.heap.text v := m.heap.text_bare v
    simp only [ht]
    rfl
  | var name init =>
    simp only [Stmt.relabel, execute]
    cases init with
    | none =>
      exact same_bind (same_pure Value.nil) fun v =>
        same_bind (same_define name.lexeme v) fun _ => same_pure _
    | some e =>
      exact same_bind (ih.evaluate e) fun v =>
        same_bind (same_define name.lexeme v) fun _ => same_pure _
  | block body =>
    simp only [Stmt.relabel, execute]
    refine same_get fun m m' hm => ?_
    rw [Machine.frame_of_bare hm]
    exact same_bind (same_make_of_bare fun _ => rfl) fun frame =>
      same_inFrame frame (ih.executeAll body)
  | ifThen test yes =>
    simp only [Stmt.relabel, execute]
    refine same_bind (ih.evaluate test) fun v => ?_
    cases v.truthy with
    | true => exact ih.execute yes
    | false => exact same_pure _
  | ifElse test yes no =>
    simp only [Stmt.relabel, execute]
    refine same_bind (ih.evaluate test) fun v => ?_
    cases v.truthy with
    | true => exact ih.execute yes
    | false => exact ih.execute no
  | loop test body =>
    have hloop := ih.execute (.loop test body)
    simp only [Stmt.relabel, execute] at hloop ⊢
    refine same_bind (ih.evaluate test) fun v => ?_
    cases v.truthy with
    | false => exact same_pure _
    | true =>
      refine same_bind (ih.execute body) fun c => ?_
      cases c with
      | returned v => exact same_pure _
      | completed => exact hloop
  | function decl =>
    simp only [Stmt.relabel, execute]
    refine same_get fun m m' hm => ?_
    rw [Machine.frame_of_bare hm, FunDecl.name_relabel, Token.lexeme_bare]
    exact same_bind (same_newFunction (Closure.bare_relabel _).symm) fun f =>
      same_bind (same_define decl.name.lexeme (.function f)) fun _ => same_pure _
  | ret keyword value =>
    simp only [Stmt.relabel, execute]
    cases value with
    | none => exact same_pure _
    | some e => exact same_bind (ih.evaluate e) fun v => same_pure _
  | classDecl name superclass methods =>
    simp only [Stmt.relabel, execute]
    exact same_bind (same_declareClass s name superclass methods) fun _ => same_pure _

theorem same_executeAll (stmts : List Stmt) :
    Same (executeAll s (n + 1) stmts) (executeAll s (n + 1) (Stmt.relabelAll .bare stmts)) := by
  cases stmts with
  | nil => exact same_pure _
  | cons stmt stmts =>
    simp only [Stmt.relabelAll, executeAll]
    refine same_bind (ih.execute stmt) fun c => ?_
    cases c with
    | returned v => exact same_pure _
    | completed => exact ih.executeAll stmts

end

/-- **Evaluation is blind to places**, whatever its fuel. -/
theorem blindly : ∀ n, Blindly s n
  | 0 =>
    ⟨fun _ => same_throw rfl, fun _ => same_throw rfl, fun _ _ => same_throw rfl,
      fun _ _ => same_throw rfl, fun _ => same_throw rfl, fun _ => same_throw rfl⟩
  | n + 1 =>
    have ih := blindly n
    ⟨same_evaluate ih, same_evaluateAll ih, same_apply ih, same_runFunction ih, same_execute ih,
      same_executeAll ih⟩

end Eval

/-! ## Programs -/

/-- The ending without places. -/
def Ending.bare : Ending → Ending
  | .fault f => .fault f.bare
  | e => e

namespace Session

open Exec

variable (s : Setting) (fuel : Nat) {stmts stmts' : List Stmt} {m m' : Machine}

theorem same_executeEach_bare (stmts : List Stmt) :
    Same (executeEach s fuel stmts) (executeEach s fuel (Stmt.relabelAll .bare stmts)) := by
  induction stmts with
  | nil => exact same_pure ()
  | cons stmt stmts ih =>
    simp only [Stmt.relabelAll, executeEach]
    exact same_bind ((Eval.blindly s fuel).execute stmt) fun _ => ih

variable (hs : Stmt.relabelAll .bare stmts = Stmt.relabelAll .bare stmts')
include hs

/-- Statements that are equal when bare are the same action. -/
theorem same_executeEach : Same (executeEach s fuel stmts) (executeEach s fuel stmts') := by
  have h' := same_executeEach_bare s fuel stmts'
  rw [← hs] at h'
  exact (same_executeEach_bare s fuel stmts).trans h'.symm

theorem interpret_of_bare (hm : m.bare = m'.bare) :
    (interpret s fuel stmts m).1.bare = (interpret s fuel stmts' m').1.bare ∧
      (interpret s fuel stmts m).2.bare = (interpret s fuel stmts' m').2.bare := by
  have h := same_executeEach s fuel hs
    (show (m.record (.interpret s.path stmts.length)).bare =
      (m'.record (.interpret s.path stmts'.length)).bare from hm)
  unfold interpret
  rcases eq_or_eq_of_bareEnd h with
    ⟨a, m₁, m₁', hx, hx', hm₁⟩ | ⟨i, i', m₁, m₁', hx, hx', hi, hm₁⟩
  · simp only [hx, hx']
    exact ⟨trivial, hm₁⟩
  · simp only [hx, hx']
    cases i with
    | fault f =>
      obtain ⟨f', rfl, hf⟩ := Interrupt.eq_fault_of_bare hi
      exact ⟨congrArg Ending.fault hf, congrArg (fun m : Machine => { m with frame := globals }) hm₁⟩
    | broken b =>
      cases Interrupt.eq_broken_of_bare hi
      exact ⟨rfl, hm₁⟩
    | outOfFuel =>
      cases Interrupt.eq_outOfFuel_of_bare hi
      exact ⟨rfl, hm₁⟩

theorem interpretRounds_of_bare (rounds : Nat) (hm : m.bare = m'.bare) :
    (interpretRounds s fuel stmts rounds m).1.bare =
        (interpretRounds s fuel stmts' rounds m').1.bare ∧
      (interpretRounds s fuel stmts rounds m).2.bare =
        (interpretRounds s fuel stmts' rounds m').2.bare := by
  induction rounds generalizing m m' with
  | zero => exact ⟨rfl, hm⟩
  | succ rounds ih =>
    obtain ⟨he, hm₁⟩ := interpret_of_bare s fuel hs hm
    unfold interpretRounds
    generalize interpret s fuel stmts m = r at he hm₁ ⊢
    generalize interpret s fuel stmts' m' = r' at he hm₁ ⊢
    obtain ⟨e, m₁⟩ := r
    obtain ⟨e', m₁'⟩ := r'
    -- the next round begins in both runs or in neither
    cases e with
    | finished =>
      cases e' with
      | finished => exact ih hm₁
      | fault _ | broken _ | outOfFuel => cases he
    | fault _ | broken _ | outOfFuel =>
      cases e' with
      | finished => cases he
      | fault _ | broken _ | outOfFuel => exact ⟨he, hm₁⟩

end Session

end Lox

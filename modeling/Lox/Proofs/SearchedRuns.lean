import Lox.Proofs.Searching

/-!
# Runs by searching

In clear code evaluation by distances and evaluation by searching agree (`concords`), by induction on
the fuel.

Main statement: an accepted unshadowed program has the same outcome whichever way its references are
looked up (`Session.run_searching`).
-/

namespace Lox

open Exec Eval Heap

/-- A value that is returned can be run. -/
def Heap.ReturnClears (D : Roster) (h : Heap) : Completion → Prop
  | .completed => True
  | .returned v => Clears D h v

/-- Evaluation with fuel `n` agrees with evaluation by searching. -/
structure Concords (s : Setting) (n : Nat) : Prop where
  evaluate : ∀ {D m scopes e}, Tidy D m.heap → Around D m.heap m.frame scopes →
    Expr.Clear scopes e → Agrees D m (Eval.evaluate s n e) (Eval.evaluate s.searching n e) Clears
  evaluateAll : ∀ {D m scopes es}, Tidy D m.heap → Around D m.heap m.frame scopes →
    (∀ r ∈ Expr.referencesAll es, Reference.Clear scopes r) →
    Agrees D m (Eval.evaluateAll s n es) (Eval.evaluateAll s.searching n es)
      fun D h vs => ∀ v ∈ vs, Clears D h v
  apply : ∀ {D m callee args}, Tidy D m.heap → Clears D m.heap callee →
    (∀ a ∈ args, Clears D m.heap a) →
    Agrees D m (Eval.apply s n callee args) (Eval.apply s.searching n callee args) Clears
  runFunction : ∀ {D m f args}, Tidy D m.heap → Closes D m.heap f →
    (∀ a ∈ args, Clears D m.heap a) →
    Agrees D m (Eval.runFunction s n f args) (Eval.runFunction s.searching n f args) Clears
  execute : ∀ {D m scopes t}, Tidy D m.heap → Around D m.heap m.frame scopes →
    Stmt.Clear scopes t →
    Agrees D m (Eval.execute s n t) (Eval.execute s.searching n t) ReturnClears
  executeAll : ∀ {D m scopes ts}, Tidy D m.heap → Around D m.heap m.frame scopes →
    Stmt.ClearAll scopes ts →
    Agrees D m (Eval.executeAll s n ts) (Eval.executeAll s.searching n ts) ReturnClears

section
variable {s : Setting} (hst : s.scoping = .static)
  (hn : ∀ native ∈ s.natives, native.Honest) {n : Nat} (ih : Concords s n)
  {D : Roster} {m : Machine} {scopes : List (List String)} (ht : Tidy D m.heap)
  (ha : Around D m.heap m.frame scopes)

/-! ## Expressions -/

include ih ht ha in
theorem concords_call {callee : Expr} {paren : Token} {args : List Expr}
    (he : (Expr.call callee paren args).Clear scopes) :
    Agrees D m (Eval.evaluate s (n + 1) (.call callee paren args))
      (Eval.evaluate s.searching (n + 1) (.call callee paren args)) Clears := by
  obtain ⟨hcallee, hargs⟩ := List.forall_mem_append.1 he
  simp only [Eval.evaluate]
  refine agrees_bind (ih.evaluate ht ha hcallee) fun f D₁ m₁ hk₁ hf => ?_
  refine agrees_bind (ih.evaluateAll hk₁.tidy (hk₁.around ha) hargs) fun vs D₂ m₂ hk₂ hvs => ?_
  refine agrees_heap ?_
  have hcallable : callable? s.searching m₂.heap f = callable? s m₂.heap f := by cases f <;> rfl
  rw [hcallable]
  cases callable? s m₂.heap f with
  | none => exact agrees_fault _ _
  | some c =>
    by_cases hl : (vs.length : Int) = c.arity
    · simp only [hl, if_true]
      exact agrees_asCall s _ (ih.apply hk₂.tidy (hk₂.later.clears hf) hvs)
    · simp only [hl, if_false]
      exact agrees_fault _ _

include hst ih ht ha in
theorem concords_evaluate {e : Expr} (he : e.Clear scopes) :
    Agrees D m (Eval.evaluate s (n + 1) e) (Eval.evaluate s.searching (n + 1) e) Clears := by
  cases e with
  | literal c =>
    have hp : c.value.isPlain = true := by cases c <;> rfl
    exact agrees_pure ht (clears_of_isPlain hp)
  | group inner => exact ih.evaluate ht ha he
  | unary op t right =>
    simp only [Eval.evaluate]
    refine agrees_bind (ih.evaluate ht ha he) fun v D₁ m₁ hk₁ _ => ?_
    exact agrees_look hk₁.tidy ((ends_unaryOp op t v).mono
      (fun w m₂ _ hw => ⟨hw.1, clears_of_isPlain hw.2⟩) fun _ _ => id)
  | binary op t left right =>
    obtain ⟨hl, hr⟩ := List.forall_mem_append.1 he
    simp only [Eval.evaluate]
    refine agrees_bind (ih.evaluate ht ha hl) fun a D₁ m₁ hk₁ _ => ?_
    refine agrees_bind (ih.evaluate hk₁.tidy (hk₁.around ha) hr) fun b D₂ m₂ hk₂ _ => ?_
    exact agrees_look hk₂.tidy ((ends_binaryOp op t a b).mono
      (fun w m₃ _ hw => ⟨hw.1, clears_of_isPlain hw.2⟩) fun _ _ => id)
  | logical op t left right =>
    obtain ⟨hl, hr⟩ := List.forall_mem_append.1 he
    simp only [Eval.evaluate]
    refine agrees_bind (ih.evaluate ht ha hl) fun a D₁ m₁ hk₁ hv => ?_
    cases decides op a with
    | true => exact agrees_pure hk₁.tidy hv
    | false => exact ih.evaluate hk₁.tidy (hk₁.around ha) hr
  | name ref => exact agrees_read hst ht ha (he _ List.mem_cons_self)
  | assign ref value =>
    obtain ⟨hr, hv⟩ := List.forall_mem_cons.1 he
    simp only [Eval.evaluate]
    refine agrees_bind (ih.evaluate ht ha hv) fun v D₁ m₁ hk₁ hc => ?_
    refine agrees_bind (agrees_write hst hk₁.tidy (hk₁.around ha) hr hc) fun _ D₂ m₂ hk₂ _ => ?_
    exact agrees_pure hk₂.tidy (hk₂.later.clears hc)
  | call callee paren args => exact concords_call ih ht ha he
  | get object property =>
    simp only [Eval.evaluate]
    exact agrees_bind (ih.evaluate ht ha he) fun o D₁ m₁ hk₁ _ =>
      agrees_getProperty hk₁.tidy o property
  | set object property value =>
    obtain ⟨ho, hv⟩ := List.forall_mem_append.1 he
    simp only [Eval.evaluate]
    refine agrees_bind (ih.evaluate ht ha ho) fun o D₁ m₁ hk₁ _ => ?_
    cases o with
    | object o =>
      refine agrees_bind (ih.evaluate hk₁.tidy (hk₁.around ha) hv) fun v D₂ m₂ hk₂ hc => ?_
      have hl := later_edit D₂ m₂.heap (.field o property.lexeme v)
      exact agrees_of_ok (a := v)
        (t := { m₂ with heap := m₂.heap.setField o property.lexeme v }) rfl rfl
        (.heap (hk₂.tidy.setField o property.lexeme hc) hl) (hl.clears hc)
    | _ => exact agrees_fault _ _
  | thisRef ref => exact agrees_read hst ht ha (he _ List.mem_cons_self)
  | superRef ref method => exact agrees_superMethod ht hst ha (he _ List.mem_cons_self) method

include ih ht ha in
theorem concords_evaluateAll {es : List Expr}
    (he : ∀ r ∈ Expr.referencesAll es, Reference.Clear scopes r) :
    Agrees D m (Eval.evaluateAll s (n + 1) es) (Eval.evaluateAll s.searching (n + 1) es)
      fun D h vs => ∀ v ∈ vs, Clears D h v := by
  cases es with
  | nil => exact agrees_pure ht (List.forall_mem_nil _)
  | cons e es =>
    obtain ⟨he, hes⟩ := List.forall_mem_append.1 he
    simp only [Eval.evaluateAll]
    refine agrees_bind (ih.evaluate ht ha he) fun v D₁ m₁ hk₁ hv => ?_
    refine agrees_bind (ih.evaluateAll hk₁.tidy (hk₁.around ha) hes) fun vs D₂ m₂ hk₂ hvs => ?_
    exact agrees_pure hk₂.tidy (List.forall_mem_cons.2 ⟨hk₂.later.clears hv, hvs⟩)

/-! ## Calls -/

include hn ih ht in
theorem concords_apply {callee : Value} {args : List Value} (hc : Clears D m.heap callee)
    (hargs : ∀ a ∈ args, Clears D m.heap a) :
    Agrees D m (Eval.apply s (n + 1) callee args) (Eval.apply s.searching (n + 1) callee args)
      Clears := by
  cases callee with
  | native id =>
    simp only [Eval.apply, Setting.searching]
    cases hnat : s.natives[id]? with
    | none => exact agrees_throw _
    | some native => exact agrees_runNative ht (hn native (List.mem_of_getElem? hnat)) hargs
  | function f => exact ih.runFunction ht hc hargs
  | cls c =>
    simp only [Eval.apply]
    have hmake : Agrees D m (make (·.newInstance c)) (make (·.newInstance c)) fun _ _ _ => True :=
      agrees_make (ht.newInstance c) (later_edit D m.heap (.object c)) trivial
    refine agrees_bind hmake fun o D₁ m₁ hk₁ _ => agrees_heap ?_
    unfold Heap.initializer?
    cases hm : m₁.heap.findMethod? c initName with
    | none => exact agrees_pure hk₁.tidy trivial
    | some p =>
      obtain ⟨-, hl⟩ := findMethod?_eq_some hm
      refine agrees_bind (agrees_bindMethod hk₁.tidy (hk₁.tidy.methods hl) o)
        fun f D₂ m₂ hk₂ hf => ?_
      have hargs₂ : ∀ a ∈ args, Clears D₂ m₂.heap a := fun a hm =>
        (hk₁.trans hk₂).later.clears (hargs a hm)
      exact agrees_bind (ih.runFunction hk₂.tidy hf hargs₂) fun _ D₃ m₃ hk₃ _ =>
        agrees_pure hk₃.tidy trivial
  | nil | bool _ | number _ | string _ | object _ => exact agrees_throw _

include ht in
/-- The frame of a call binds the parameters, which are names of the scope of the function. -/
theorem Heap.Tidy.newCall {c : Closure} {args : List Value}
    (hargs : ∀ a ∈ args, Clears D m.heap a) :
    Tidy (D.add m.heap (Stmt.localNames c.decl.params c.decl.body))
      (m.heap.newFrame ⟨Table.insertAll [] ((c.decl.params.map (·.lexeme)).zip args),
        some c.frame⟩).2 := by
  refine ht.newFrame (fun x hb => ?_) fun {x v} hl => ?_
  · obtain ⟨v, hl⟩ := Table.binds_iff.1 hb
    rcases Table.lookup_insertAll hl with hm | ⟨hnil, -⟩
    · obtain ⟨p, hp, rfl⟩ := List.mem_map.1 (List.of_mem_zip hm).1
      exact List.mem_map.2 ⟨p, List.mem_append_left _ hp, rfl⟩
    · cases hnil
  · rcases Table.lookup_insertAll hl with hm | ⟨hnil, -⟩
    · exact hargs v (List.of_mem_zip hm).2
    · cases hnil

include ih ht in
/-- The body of a function runs in a frame of its scope, wherever it is called from. -/
theorem concords_runFunction {f : Id} {args : List Value} (hf : Closes D m.heap f)
    (hargs : ∀ a ∈ args, Clears D m.heap a) :
    Agrees D m (Eval.runFunction s (n + 1) f args) (Eval.runFunction s.searching (n + 1) f args)
      Clears := by
  obtain ⟨c, scopes, hc, ha, hd⟩ := hf
  simp only [Eval.runFunction]
  refine agrees_heap ?_
  simp only [hc]
  have hmake : Agrees D m
      (make (·.newFrame ⟨Table.insertAll [] ((c.decl.params.map (·.lexeme)).zip args), some c.frame⟩))
      (make (·.newFrame ⟨Table.insertAll [] ((c.decl.params.map (·.lexeme)).zip args), some c.frame⟩))
      fun D h g => Around D h g (Stmt.localNames c.decl.params c.decl.body :: scopes) :=
    agrees_make (ht.newCall hargs) (later_newFrame _ _ _ _) (ha.newFrame (ha.lt ht) rfl)
  refine agrees_bind hmake fun g D₁ m₁ hk₁ hg => ?_
  refine agrees_bind (agrees_inFrame (ih.executeAll hk₁.tidy hg hd.body)) fun e D₂ m₂ hk₂ he => ?_
  by_cases hi : c.isInitializer = true
  · simp only [hi, if_true]
    refine agrees_heap ?_
    cases hv : m₂.heap.getAt c.frame 0 "this" with
    | error b => exact agrees_throw _
    | ok v =>
      have hnone : ∀ names ∈ scopes.take (0 : Int).toNat, "this" ∉ names := by simp
      exact agrees_pure hk₂.tidy
        (get?_of_getAt hk₂.tidy ((hk₁.trans hk₂).later.around ha) hnone hv).2
  · simp only [hi]
    cases e with
    | completed => exact agrees_pure hk₂.tidy trivial
    | returned v => exact agrees_pure hk₂.tidy he

/-! ## Statements -/

include hst ih ht ha in
theorem concords_execute {t : Stmt} (hs : t.Clear scopes) :
    Agrees D m (Eval.execute s (n + 1) t) (Eval.execute s.searching (n + 1) t) ReturnClears := by
  cases t with
  | expression e =>
    simp only [Eval.execute]
    exact agrees_bind (ih.evaluate ht ha hs) fun _ D₁ m₁ hk₁ _ => agrees_pure hk₁.tidy trivial
  | print e =>
    simp only [Eval.execute]
    refine agrees_bind (ih.evaluate ht ha hs) fun v D₁ m₁ hk₁ _ => ?_
    exact agrees_of_ok (a := .completed)
      (t := { m₁ with printed := m₁.printed ++ m₁.heap.text v ++ "\n" }) rfl rfl
      ⟨hk₁.tidy, .refl D₁ m₁.heap, rfl⟩ trivial
  | var name init =>
    obtain ⟨hname, hinit⟩ := hs
    have hdefine : ∀ {v D₁ m₁}, Kept D m D₁ m₁ → Clears D₁ m₁.heap v →
        Agrees D₁ m₁ (do define name.lexeme v; pure Completion.completed)
          (do define name.lexeme v; pure Completion.completed) ReturnClears := fun hk₁ hv =>
      agrees_bind (agrees_define hk₁.tidy (hk₁.around ha) hname hv) fun _ D₂ m₂ hk₂ _ =>
        agrees_pure hk₂.tidy trivial
    simp only [Eval.execute]
    cases init with
    | none => exact hdefine (v := .nil) (.refl ht) trivial
    | some e =>
      exact agrees_bind (ih.evaluate ht ha (hinit e rfl)) fun v D₁ m₁ hk₁ hv => hdefine hk₁ hv
  | block body =>
    simp only [Eval.execute]
    have hmake : Agrees D m (make (·.newFrame ⟨[], some m.frame⟩))
        (make (·.newFrame ⟨[], some m.frame⟩))
        fun D h g => Around D h g (Stmt.localNames [] body :: scopes) :=
      agrees_make (ht.newFrame (fun _ hb => by cases hb) fun hl => by cases hl)
        (later_newFrame _ _ _ _) (ha.newFrame (ha.lt ht) rfl)
    refine agrees_get ?_
    exact agrees_bind hmake fun g D₁ m₁ hk₁ hg =>
      agrees_inFrame (ih.executeAll hk₁.tidy hg hs)
  | ifThen test yes =>
    simp only [Eval.execute]
    refine agrees_bind (ih.evaluate ht ha hs.1) fun v D₁ m₁ hk₁ _ => ?_
    cases v.truthy with
    | true => exact ih.execute hk₁.tidy (hk₁.around ha) hs.2
    | false => exact agrees_pure hk₁.tidy trivial
  | ifElse test yes no =>
    simp only [Eval.execute]
    refine agrees_bind (ih.evaluate ht ha hs.1) fun v D₁ m₁ hk₁ _ => ?_
    cases v.truthy with
    | true => exact ih.execute hk₁.tidy (hk₁.around ha) hs.2.1
    | false => exact ih.execute hk₁.tidy (hk₁.around ha) hs.2.2
  | loop test body =>
    simp only [Eval.execute]
    refine agrees_bind (ih.evaluate ht ha hs.1) fun v D₁ m₁ hk₁ _ => ?_
    cases v.truthy with
    | false => exact agrees_pure hk₁.tidy trivial
    | true =>
      refine agrees_bind (ih.execute hk₁.tidy (hk₁.around ha) hs.2) fun c D₂ m₂ hk₂ hc => ?_
      cases c with
      | returned v => exact agrees_pure hk₂.tidy hc
      | completed => exact ih.execute hk₂.tidy (hk₂.around (hk₁.around ha)) hs
  | function decl =>
    obtain ⟨hname, hdecl⟩ := hs
    simp only [Eval.execute]
    have hl := later_edit D m.heap (.function ⟨decl, m.frame, false⟩)
    have hmake : Agrees D m (make (·.newFunction ⟨decl, m.frame, false⟩))
        (make (·.newFunction ⟨decl, m.frame, false⟩)) Closes :=
      agrees_make (ht.newFunction _) hl
        ⟨_, scopes, getElem?_newFunction m.heap _, hl.around ha, hdecl⟩
    refine agrees_get (agrees_bind hmake fun f D₁ m₁ hk₁ hf => ?_)
    exact agrees_bind (agrees_define (v := .function f) hk₁.tidy (hk₁.around ha) hname hf)
      fun _ D₂ m₂ hk₂ _ => agrees_pure hk₂.tidy trivial
  | ret keyword value =>
    simp only [Eval.execute]
    cases value with
    | none => exact agrees_pure ht trivial
    | some e =>
      exact agrees_bind (ih.evaluate ht ha (hs e rfl)) fun v D₁ m₁ hk₁ hv => agrees_pure hk₁.tidy hv
  | classDecl name superclass methods =>
    obtain ⟨hname, hsuper, hmethods⟩ := hs
    simp only [Eval.execute]
    exact agrees_bind (agrees_declareClass ht hst ha hname hsuper hmethods)
      fun _ D₁ m₁ hk₁ _ => agrees_pure hk₁.tidy trivial

include ih ht ha in
theorem concords_executeAll {ts : List Stmt} (hs : Stmt.ClearAll scopes ts) :
    Agrees D m (Eval.executeAll s (n + 1) ts) (Eval.executeAll s.searching (n + 1) ts)
      ReturnClears := by
  cases ts with
  | nil => exact agrees_pure ht trivial
  | cons t ts =>
    simp only [Eval.executeAll]
    refine agrees_bind (ih.execute ht ha hs.1) fun c D₁ m₁ hk₁ hc => ?_
    cases c with
    | returned v => exact agrees_pure hk₁.tidy hc
    | completed => exact ih.executeAll hk₁.tidy (hk₁.around ha) hs.2

end

/-- **Evaluation agrees with evaluation by searching**, in clear code and a tidy heap. -/
theorem concords {s : Setting} (hst : s.scoping = .static)
    (hn : ∀ native ∈ s.natives, native.Honest) : ∀ n, Concords s n
  | 0 =>
    ⟨fun _ _ _ => agrees_throw _, fun _ _ _ => agrees_throw _, fun _ _ _ => agrees_throw _,
      fun _ _ _ => agrees_throw _, fun _ _ _ => agrees_throw _, fun _ _ _ => agrees_throw _⟩
  | n + 1 =>
    have ih := concords hst hn n
    ⟨fun ht ha => concords_evaluate hst ih ht ha, fun ht ha => concords_evaluateAll ih ht ha,
      fun ht => concords_apply hn ih ht, fun ht => concords_runFunction ih ht,
      fun ht ha => concords_execute hst ih ht ha, fun ht ha => concords_executeAll ih ht ha⟩

/-! ## Programs -/

namespace Session

variable {s : Setting} {D : Roster} {m : Machine} {fuel : Nat} {stmts : List Stmt}

theorem agrees_executeEach (hc : Concords s fuel) (ht : Tidy D m.heap) (hf : m.frame = globals)
    (hs : Stmt.ClearAll [] stmts) :
    Agrees D m (executeEach s fuel stmts) (executeEach s.searching fuel stmts)
      fun _ _ _ => True := by
  induction stmts generalizing D m with
  | nil => exact agrees_pure ht trivial
  | cons stmt rest ih =>
    have ha : Around D m.heap m.frame [] := hf ▸ .globals
    exact agrees_bind (hc.execute ht ha hs.1) fun _ D₁ m₁ hk₁ _ =>
      ih hk₁.tidy (hk₁.frame.trans hf) hs.2

/-- Statements that break no promise are executed alike. -/
theorem interpret_searching (hc : Concords s fuel) (ht : Tidy D m.heap) (hf : m.frame = globals)
    (hs : Stmt.ClearAll [] stmts) (hb : ∀ b, (interpret s fuel stmts m).1 ≠ .broken b) :
    interpret s.searching fuel stmts m = interpret s fuel stmts m := by
  have hx := agrees_executeEach (m := m.record (.interpret s.path stmts.length)) hc ht hf hs
  have hpath : s.searching.path = s.path := rfl
  cases h : executeEach s fuel stmts (m.record (.interpret s.path stmts.length)) with
  | ok u m₁ => simp only [interpret, hpath, h, (Ends.ok hx h).1]
  | error i m₁ =>
    rcases Ends.error hx h with h' | ⟨b, rfl⟩
    · simp only [interpret, hpath, h, h']
    · exact absurd (by simp only [interpret, h]) (hb b)

/-- The globals of a new machine hold natives only. -/
theorem tidy_initial (D : Roster) (natives : List Native) (clock : Clock) :
    Tidy D (Machine.initial natives clock).heap where
  root := ⟨_, rfl, rfl⟩
  names {f name} hb := by
    rw [Machine.initial, vars_newFrame] at hb
    split at hb
    · rename_i hf
      exact .inl hf
    · cases hb
  values {f name v} hl := by
    rw [Machine.initial, vars_newFrame] at hl
    split at hl
    · rcases Table.lookup_insertAll hl with hm | ⟨hnil, -⟩
      · obtain ⟨⟨native, id⟩, -, he⟩ := List.mem_map.1 hm
        cases he
        trivial
      · cases hnil
    · cases hl
  fields hl := by cases hl
  methods hl := by cases hl

/-- **Names tell their scopes.** An accepted source in which no local name is declared twice, none is
left to the globals and no initializer of a local variable assigns to it has the same outcome,
whichever way its references are looked up: by the distances found before the run, or by searching for
the name from the current frame outwards. It prints the same, leaves the same globals and ends alike. -/
theorem run_searching (path : String) {natives : List Native}
    (hn : ∀ native ∈ natives, native.Honest) (clock : Clock) (fuel : Nat) {source : String}
    (ha : (Program.compile source).Accepted) (hu : (Program.compile source).Unshadowed) :
    run { path, natives, scoping := .dynamic } fuel source {} (.initial natives clock) =
      run { path, natives, scoping := .static } fuel source {} (.initial natives clock) := by
  let s : Setting := { path, natives }
  change run s.searching fuel source {} (.initial natives clock) =
    run s fuel source {} (.initial natives clock)
  have hself : ∀ e, ¬ SelfAssigns ([] ++ [(fuel, source)]) e := by
    rintro e ⟨r, hr, -, he⟩
    rw [List.mem_singleton.1 hr, hu.own] at he
    cases he
  have w : Watched s (ledger s clock [(fuel, source)]) (Moment s clock [(fuel, source)]) :=
    watched rfl hn
  have hbroken := ending_ne_broken w hself
  have hafter : after s clock [] = .initial natives clock := rfl
  rw [hafter, run_of_accepted s fuel ha] at hbroken
  rw [run_of_accepted s.searching fuel ha, run_of_accepted s fuel ha]
  have hsame := interpret_searching (concords rfl hn fuel)
    (m := compiled (Program.compile source) (.initial natives clock))
    (tidy_initial (fun _ => []) natives clock) rfl (Program.clearAll_bound ha hu) hbroken
  rw [hsame]

/-- A closure that calls itself, a loop, and a local class with a superclass. -/
theorem run_searching_of_closures :
    let source := "fun f(n) \x7b fun g(b) \x7b n = n + b; if (b > 1) return g(b - 1); return n; \x7d" ++
      " return g; \x7d var h = f(1); for (var i = 2; i < 4; i = i + 1) print h(i);" ++
      " class A \x7b m() \x7b return this.k; \x7d \x7d" ++
      " \x7b class B < A \x7b m() \x7b return super.m(); \x7d \x7d var o = B(); o.k = 5; print o.m(); \x7d"
    let natives := [Native.clock]
    (∀ native ∈ natives, native.Honest) ∧ (Program.compile source).Accepted ∧
      (Program.compile source).Unshadowed ∧
      (run { path := "", natives } 30 source {} (.initial natives [])).machine.printed =
        "4\n10\n5\n" ∧
      run { path := "", natives, scoping := .dynamic } 30 source {} (.initial natives []) =
        run { path := "", natives, scoping := .static } 30 source {} (.initial natives []) := by
  intro source natives
  have h : (Program.compile source).Accepted ∧ (Program.compile source).Unshadowed ∧
      (run { path := "", natives } 30 source {} (.initial natives [])).machine.printed =
        "4\n10\n5\n" := by decide +kernel
  obtain ⟨ha, hu, hprinted⟩ := h
  exact ⟨honest_clock, ha, hu, hprinted, run_searching "" honest_clock [] 30 ha hu⟩

/-- A reference that is left to the globals although a local scope declares its name later on. -/
example :
    let source := "var x = 1; \x7b fun show() \x7b print x; \x7d show(); var x = 2; show(); \x7d"
    let natives := [Native.clock]
    ¬ (Program.compile source).Unshadowed ∧
      (run { path := "", natives } 20 source {} (.initial natives [])).machine.printed =
        "1\n1\n" ∧
      (run { path := "", natives, scoping := .dynamic } 20 source {}
        (.initial natives [])).machine.printed = "1\n2\n" := by
  decide +kernel

end Session

end Lox

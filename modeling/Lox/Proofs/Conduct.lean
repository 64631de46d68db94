import Lox.Proofs.Passage

/-!
# What every task does

Main statement: every task ends where its own steps lead, with its results in hand, or it is stopped
on the way (`Task.ends_run`). What a whole run keeps is derived from this by induction over the
fuel, without another look at the evaluator. A task is begun in a machine that the task before it
passes through (`Calls.begins`).
-/

namespace Lox

open Heap Exec Eval

/-! ## Running what is begun -/

section
variable {s : Setting} {n : Nat} {task : Task} {m₀ m : Machine} {hand : List Value}

theorem Passes.runs (h : Passes s n task m₀ hand m) (door : Door) (task' : Task)
    (hb : Begins s n task m₀ hand m door task') :
    Ends (task'.run s n) (door.enter s m)
      (fun vs m' => Passes s n task m₀ (vs ++ hand) (door.leave m m'))
      (fun i m' => Stopped s n task m₀ (door.through i) (door.stop i m m')) := by
  cases hr : task'.run s n (door.enter s m) with
  | ok vs m' => exact ends_of_ok hr (h.run hb hr)
  | error i m' => exact ends_of_error hr (.begun h hb hr)

theorem Passes.evaluate (h : Passes s n task m₀ hand m) {e : Expr}
    (hc : Calls s n task m₀ (.evaluate e) m) :
    Ends (Eval.evaluate s n e) m (fun v m' => Passes s n task m₀ (v :: hand) m')
      (Stopped s n task m₀) :=
  Ends.of_map (R := fun vs m' => Passes s n task m₀ (vs ++ hand) m')
    (h.runs .here (.evaluate e) ⟨hc, List.forall_mem_nil _, rfl, trivial⟩)

theorem Passes.evaluateAll (h : Passes s n task m₀ hand m) {es : List Expr}
    (hc : Calls s n task m₀ (.evaluateAll es) m) :
    Ends (Eval.evaluateAll s n es) m (fun vs m' => Passes s n task m₀ (vs ++ hand) m')
      (Stopped s n task m₀) :=
  h.runs .here (.evaluateAll es) ⟨hc, List.forall_mem_nil _, rfl, trivial⟩

theorem Passes.runFunction (h : Passes s n task m₀ hand m) {f : Id} {args : List Value}
    (hb : Begins s n task m₀ hand m .here (.runFunction f args)) :
    Ends (Eval.runFunction s n f args) m (fun v m' => Passes s n task m₀ (v :: hand) m')
      (Stopped s n task m₀) :=
  Ends.of_map (R := fun vs m' => Passes s n task m₀ (vs ++ hand) m')
    (h.runs .here (.runFunction f args) hb)

theorem Passes.execute (h : Passes s n task m₀ hand m) {stmt : Stmt}
    (hc : Calls s n task m₀ (.execute stmt) m) :
    Ends (Eval.execute s n stmt) m (fun c m' => Passes s n task m₀ (c.values ++ hand) m')
      (Stopped s n task m₀) :=
  Ends.of_map (R := fun vs m' => Passes s n task m₀ (vs ++ hand) m')
    (h.runs .here (.execute stmt) ⟨hc, List.forall_mem_nil _, rfl, trivial⟩)

theorem Passes.executeAll (h : Passes s n task m₀ hand m) {stmts : List Stmt}
    (hc : Calls s n task m₀ (.executeAll stmts) m) :
    Ends (Eval.executeAll s n stmts) m (fun c m' => Passes s n task m₀ (c.values ++ hand) m')
      (Stopped s n task m₀) :=
  Ends.of_map (R := fun vs m' => Passes s n task m₀ (vs ++ hand) m')
    (h.runs .here (.executeAll stmts) ⟨hc, List.forall_mem_nil _, rfl, trivial⟩)

/-- Statements that run in a frame of their own. -/
theorem Passes.inFrame (h : Passes s n task m₀ hand m) {g : Id} (hg : g < m.heap.frames.size)
    {stmts : List Stmt} (hc : Calls s n task m₀ (.executeAll stmts) { m with frame := g }) :
    Ends (Exec.inFrame g (Eval.executeAll s n stmts)) m
      (fun c m' => Passes s n task m₀ (c.values ++ hand) m') (Stopped s n task m₀) :=
  ends_inFrame (Ends.of_map
    (R := fun vs (m' : Machine) => Passes s n task m₀ (vs ++ hand) { m' with frame := m.frame })
    (h.runs (.frame g) (.executeAll stmts) ⟨hc, List.forall_mem_nil _, rfl, hg⟩))

/-- A callee that is applied as a call. -/
theorem Passes.asCall (h : Passes s n task m₀ hand m) {call : Call} {f : Value} {args : List Value}
    (hb : Begins s n task m₀ hand m (.call call) (.apply f args)) :
    Ends (Exec.asCall s call (Eval.apply s n f args)) m
      (fun v m' => Passes s n task m₀ (v :: hand) m') (Stopped s n task m₀) :=
  ends_asCall (Ends.of_map
    (R := fun vs (m' : Machine) => Passes s n task m₀ (vs ++ hand) { m' with calls := m'.calls.pop })
    (h.runs (.call call) (.apply f args) hb))

end

/-! ## Where tasks are begun -/

section
variable {s : Setting} {n : Nat} {task task' : Task} {m m' : Machine}

theorem begins_apply {callee : Expr} {paren : Token} {args : List Expr} {f : Value}
    {vs : List Value} {m₁ m₂ : Machine} {c : Callable} (hf : evaluate s n callee m = .ok f m₁)
    (hvs : evaluateAll s n args m₁ = .ok vs m₂) (hc : callable? s m₂.heap f = some c)
    (hl : vs.length = c.arity) :
    Begins s n (.evaluate (.call callee paren args)) m (vs ++ [f]) m₂
      (.call ⟨c.name, paren.line⟩) (.apply f vs) where
  calls := .apply hf hvs hc hl
  values v hv := by
    rcases List.mem_cons.1 hv with rfl | hv
    · exact List.mem_append_right _ List.mem_cons_self
    · exact List.mem_append_left _ hv
  opened := by
    have hc' : callable? s (m₂.enter s ⟨c.name, paren.line⟩).heap f = some c := hc
    simp only [opened?, Task.paren?, Expr.paren?, Door.enter, hc', Option.bind_some,
      Option.map_some, Door.call?]
  leads := trivial

theorem passes_inBlock (body : List Stmt) :
    Passes s n (.execute (.block body)) m [] { m.inBlock with frame := m.frame } :=
  Passes.start.edit (e := .frame ⟨[], some m.frame⟩)
    ⟨⟨_, rfl, .current rfl⟩, fun name v hl => by cases hl⟩

theorem passes_inBody {f : Id} {args : List Value} {c : Closure}
    (hc : m.heap.functions[f]? = some c) :
    Passes s n (.runFunction f args) m (.function f :: args)
      { m.inBody c args with frame := m.frame } :=
  Passes.start.edit (e := .frame
    ⟨Table.insertAll [] ((c.decl.params.map (·.lexeme)).zip args), some c.frame⟩)
    ⟨⟨_, rfl, .closure hc rfl⟩, fun name v hl => by
      rcases Table.lookup_insertAll hl with hm | ⟨h, -⟩
      · exact List.mem_cons_of_mem _ (List.of_mem_zip hm).2
      · cases h⟩

theorem passes_withInstance (c : Id) (args : List Value) :
    Passes s n (.apply (.cls c) args) m (.object m.heap.instances.size :: .cls c :: args)
      (m.withInstance c) := by
  have h1 : Passes s n (.apply (.cls c) args) m (.cls c :: args) (m.withInstance c) :=
    Passes.start.edit (e := .object c) List.mem_cons_self
  exact h1.take (.object (by simp [Machine.withInstance, Heap.newInstance]))

theorem passes_withBound {c init : Id} {args : List Value}
    (hi : (m.withInstance c).heap.initializer? c = some init) :
    Passes s n (.apply (.cls c) args) m
      (.function ((m.withInstance c).heap.bindMethod init m.heap.instances.size).1 ::
        .object m.heap.instances.size :: .cls c :: args)
      ((m.withInstance c).withBound init m.heap.instances.size) := by
  obtain ⟨⟨d, f⟩, hf, rfl⟩ := Option.map_eq_some_iff.1 hi
  exact (passes_withInstance c args).bindMethod (.method (findMethod?_eq_some hf).2)
    List.mem_cons_self

theorem begins_initializer {c init : Id} {args : List Value}
    (hi : (m.withInstance c).heap.initializer? c = some init) :
    Begins s n (.apply (.cls c) args) m
      (.function ((m.withInstance c).heap.bindMethod init m.heap.instances.size).1 ::
        .object m.heap.instances.size :: .cls c :: args)
      ((m.withInstance c).withBound init m.heap.instances.size) .here
      (.runFunction ((m.withInstance c).heap.bindMethod init m.heap.instances.size).1 args) where
  calls := .initializer hi
  values v hv := by
    rcases List.mem_cons.1 hv with rfl | hv
    · exact List.mem_cons_self
    · exact List.mem_cons_of_mem _ (List.mem_cons_of_mem _ (List.mem_cons_of_mem _ hv))
  opened := rfl
  leads := trivial

/-- A task is begun in a machine that the one before it passes through, behind some door. -/
theorem Calls.begins (hc : Calls s n task m task' m') :
    ∃ hand m₁ door, Passes s n task m hand m₁ ∧ Begins s n task m hand m₁ door task' ∧
      m' = door.enter s m₁ := by
  have here : ∀ {hand : List Value}, Passes s n task m hand m' → (∀ v ∈ task'.values, v ∈ hand) →
      opened? s task task' m' = none → ∃ hand m₁ door, Passes s n task m hand m₁ ∧
        Begins s n task m hand m₁ door task' ∧ m' = door.enter s m₁ :=
    fun {hand} h hv ho => ⟨hand, m', .here, h, ⟨hc, hv, ho, trivial⟩, rfl⟩
  cases hc with
  | group | operand | left | test | assigned | callee | getObject | setObject | head | expression
  | print | init | thenTest | elseTest | loopTest | returned | first =>
    exact here .start (List.forall_mem_nil _) rfl
  | function => exact here .start (fun v hv => hv) rfl
  | right hl => exact here ((Passes.evaluate .start .left).ok hl) (List.forall_mem_nil _) rfl
  | undecided hl _ => exact here ((Passes.evaluate .start .test).ok hl) (List.forall_mem_nil _) rfl
  | arguments hf => exact here ((Passes.evaluate .start .callee).ok hf) (List.forall_mem_nil _) rfl
  | setValue ho => exact here ((Passes.evaluate .start .setObject).ok ho) (List.forall_mem_nil _) rfl
  | tail hv => exact here ((Passes.evaluate .start .head).ok hv) (List.forall_mem_nil _) rfl
  | thenYes hv _ => exact here ((Passes.evaluate .start .thenTest).ok hv) (List.forall_mem_nil _) rfl
  | elseYes hv _ | elseNo hv _ =>
    exact here ((Passes.evaluate .start .elseTest).ok hv) (List.forall_mem_nil _) rfl
  | loopBody hv _ => exact here ((Passes.evaluate .start .loopTest).ok hv) (List.forall_mem_nil _) rfl
  | @loopAgain test body _ v m₁ _ hv ht hb =>
    have h1 : Passes s n (.execute (.loop test body)) m [v] m₁ :=
      (Passes.evaluate .start .loopTest).ok hv
    exact here ((h1.execute (.loopBody hv ht)).ok hb) (List.forall_mem_nil _) rfl
  | rest hs => exact here ((Passes.execute .start .first).ok hs) (List.forall_mem_nil _) rfl
  | @apply callee paren args _ f m₁ vs m₂ c hf hvs hc hl =>
    have h1 : Passes s n (.evaluate (.call callee paren args)) m [f] m₁ :=
      (Passes.evaluate .start .callee).ok hf
    have h2 := (h1.evaluateAll (.arguments hf)).ok hvs
    exact ⟨_, _, _, h2, begins_apply hf hvs hc hl, rfl⟩
  | initializer hi => exact ⟨_, _, _, passes_withBound hi, begins_initializer hi, rfl⟩
  | body hc =>
    exact ⟨_, _, .frame m.heap.frames.size, passes_inBody hc,
      ⟨.body hc, List.forall_mem_nil _, rfl, by simp [Door.Leads, Machine.inBody, Heap.newFrame]⟩, rfl⟩
  | @block body =>
    exact ⟨_, _, .frame m.heap.frames.size, passes_inBlock body,
      ⟨.block, List.forall_mem_nil _, rfl, by simp [Door.Leads, Machine.inBlock, Heap.newFrame]⟩, rfl⟩

/-- The code of a task that is begun is code of the one before it, or of a function. -/
theorem Calls.references (hc : Calls s n task m task' m') :
    ∀ r ∈ task'.references, r ∈ task.references ∨ m'.heap.Refers r := by
  intro r hr
  cases hc with
  | @body f args m closure hc =>
    refine .inr ⟨f, closure, hc, ?_⟩
    rw [FunDecl.references_eq]
    exact hr
  | apply | function | initializer => cases hr
  | _ =>
    simp only [Task.references, Expr.references, Expr.referencesAll, Stmt.references,
      Stmt.referencesAll, List.mem_append, List.mem_cons, Option.map_some, Option.getD_some] at hr ⊢
    grind

end

/-! ## Every task -/

section
variable {s : Setting} {n : Nat} {m : Machine}

/-- What is to be shown of an action that makes up a task. -/
def Conducts (s : Setting) (n : Nat) (task : Task) (m : Machine) {α : Type} (act : Exec α)
    (values : α → List Value) : Prop :=
  Ends act m (fun a m' => Comes s n task m (values a) m') (Stopped s n task m)

theorem conducts_call (callee : Expr) (paren : Token) (args : List Expr) :
    Conducts s n (.evaluate (.call callee paren args)) m
      (Eval.evaluate s (n + 1) (.call callee paren args)) ([·]) := by
  simp only [Conducts, Eval.evaluate]
  refine (Passes.evaluate .start .callee).bind fun f m₁ hf h1 => ?_
  refine (h1.evaluateAll (.arguments hf)).bind fun vs m₂ hvs h2 => ?_
  refine ends_bind (ends_of_ok rfl fun _ => ?_)
  cases hc : callable? s m₂.heap f with
  | none => exact ends_throw (.own h2 (Interrupt.fresh_fault _ _))
  | some c =>
    by_cases hl : (vs.length : Int) = c.arity
    · simp only [hl, if_true]
      exact (h2.asCall (begins_apply hf hvs hc hl)).mono (fun v m₃ _ h3 => h3.comes_head)
        fun _ _ hi => hi
    · simp only [hl, if_false]
      exact ends_throw (.own h2 (Interrupt.fresh_fault _ _))

theorem conducts_evaluate (e : Expr) :
    Conducts s n (.evaluate e) m (Eval.evaluate s (n + 1) e) ([·]) := by
  cases e with
  | literal c =>
    have hp : c.value.isPlain = true := by cases c <;> rfl
    exact ends_pure (Passes.start.take (.plain hp)).comes_head
  | group e =>
    simp only [Conducts, Eval.evaluate]
    exact (Passes.evaluate .start .group).mono (fun v m₁ _ h1 => h1.comes_head) fun _ _ hi => hi
  | unary op token e =>
    simp only [Conducts, Eval.evaluate]
    refine (Passes.evaluate .start .operand).bind fun v m₁ _ h1 => ?_
    exact (h1.operator (ends_unaryOp op token v)).mono (fun w m₂ _ h2 => h2.comes_head)
      fun _ _ hi => hi
  | binary op token l r =>
    simp only [Conducts, Eval.evaluate]
    refine (Passes.evaluate .start .left).bind fun a m₁ ha h1 => ?_
    refine (h1.evaluate (.right ha)).bind fun b m₂ _ h2 => ?_
    exact (h2.operator (ends_binaryOp op token a b)).mono (fun w m₃ _ h3 => h3.comes_head)
      fun _ _ hi => hi
  | logical op token l r =>
    simp only [Conducts, Eval.evaluate]
    refine (Passes.evaluate .start .test).bind fun a m₁ ha h1 => ?_
    cases hd : decides op a with
    | true => exact ends_pure h1.comes_head
    | false =>
      exact (h1.evaluate (.undecided ha hd)).mono (fun v m₂ _ h2 => h2.comes_head) fun _ _ hi => hi
  | name ref =>
    exact (Passes.start.look (shows_read ref)).mono (fun v m₁ _ h1 => h1.comes_head) fun _ _ hi => hi
  | assign ref value =>
    simp only [Conducts, Eval.evaluate]
    refine (Passes.evaluate .start .assigned).bind fun v m₁ _ h1 => ?_
    refine Ends.bind ((ends_write_bind ref v).mono (fun _ m₂ _ h2 => h2)
      fun _ _ hi => .of_refused h1 hi) fun _ m₂ _ h2 => ?_
    obtain ⟨g, hg, rfl⟩ := h2
    exact ends_pure (h1.edit (e := .bind g ref.name v) ⟨.there hg, List.mem_cons_self⟩).comes_head
  | call callee paren args => exact conducts_call callee paren args
  | get object property =>
    simp only [Conducts, Eval.evaluate]
    refine (Passes.evaluate .start .getObject).bind fun o m₁ _ h1 => ?_
    exact h1.getProperty List.mem_cons_self property
  | set object property value =>
    simp only [Conducts, Eval.evaluate]
    refine (Passes.evaluate .start .setObject).bind fun o m₁ ho h1 => ?_
    cases o with
    | object id =>
      refine (h1.evaluate (.setValue ho)).bind fun v m₂ _ h2 => ?_
      have h3 := h2.edit (e := .field id property.lexeme v)
        ⟨List.mem_cons_of_mem _ List.mem_cons_self, List.mem_cons_self⟩
      exact ends_bind (ends_of_ok rfl fun _ => ends_pure h3.comes_head)
    | _ => exact ends_throw (.own h1 (Interrupt.fresh_fault _ _))
  | thisRef ref =>
    exact (Passes.start.look (shows_read ref)).mono (fun v m₁ _ h1 => h1.comes_head) fun _ _ hi => hi
  | superRef ref method => exact Passes.start.superMethod ref method

theorem conducts_evaluateAll (es : List Expr) :
    Conducts s n (.evaluateAll es) m (Eval.evaluateAll s (n + 1) es) id := by
  cases es with
  | nil => exact ends_pure (Passes.start.comes (List.forall_mem_nil _))
  | cons e es =>
    simp only [Conducts, Eval.evaluateAll]
    refine (Passes.evaluate .start .head).bind fun v m₁ hv h1 => ?_
    refine (h1.evaluateAll (.tail hv)).bind fun vs m₂ _ h2 => ?_
    refine ends_pure (h2.comes fun w hw => ?_)
    rcases List.mem_cons.1 hw with rfl | hw
    · exact List.mem_append_right _ List.mem_cons_self
    · exact List.mem_append_left _ hw

theorem conducts_apply_class (c : Id) (args : List Value) :
    Conducts s n (.apply (.cls c) args) m (Eval.apply s (n + 1) (.cls c) args) ([·]) := by
  simp only [Conducts, Eval.apply]
  refine ends_bind (ends_of_ok (a := m.heap.instances.size) (t := m.withInstance c) rfl fun _ => ?_)
  refine ends_bind (ends_of_ok rfl fun _ => ?_)
  cases hi : (m.withInstance c).heap.initializer? c with
  | none => exact ends_pure (passes_withInstance c args).comes_head
  | some init =>
    refine ends_bind (ends_of_ok (t := (m.withInstance c).withBound init m.heap.instances.size) rfl
      fun _ => ?_)
    refine ((passes_withBound hi).runFunction (begins_initializer hi)).bind fun v m₁ _ h1 => ?_
    refine ends_pure (h1.comes fun w hw => ?_)
    rw [List.mem_singleton.1 hw]
    exact List.mem_cons_of_mem _ (List.mem_cons_of_mem _ List.mem_cons_self)

theorem conducts_apply (callee : Value) (args : List Value) :
    Conducts s n (.apply callee args) m (Eval.apply s (n + 1) callee args) ([·]) := by
  cases callee with
  | native id =>
    simp only [Conducts, Eval.apply]
    cases hn : s.natives[id]? with
    | none => exact ends_throw (.own .start (Interrupt.fresh_broken _))
    | some native =>
      exact Passes.start.runNative (List.mem_of_getElem? hn) fun a ha => List.mem_cons_of_mem _ ha
  | function f =>
    exact (Passes.runFunction .start ⟨.function, fun v hv => hv, rfl, trivial⟩).mono
      (fun v m₁ _ h1 => h1.comes_head) fun _ _ hi => hi
  | cls c => exact conducts_apply_class c args
  | _ => exact ends_throw (.own .start (Interrupt.fresh_broken _))

theorem conducts_runFunction (f : Id) (args : List Value) :
    Conducts s n (.runFunction f args) m (Eval.runFunction s (n + 1) f args) ([·]) := by
  simp only [Conducts, Eval.runFunction]
  refine ends_bind (ends_of_ok rfl fun _ => ?_)
  cases hc : m.heap.functions[f]? with
  | none => exact ends_throw (.own .start (Interrupt.fresh_broken _))
  | some c =>
    refine ends_bind (ends_of_ok (t := { m.inBody c args with frame := m.frame }) rfl fun _ => ?_)
    have hg : m.heap.frames.size < (m.inBody c args).heap.frames.size := by
      simp [Machine.inBody, Heap.newFrame]
    refine ((passes_inBody hc).inFrame hg (.body hc)).bind fun ending m₂ _ h2 => ?_
    cases c.isInitializer with
    | true =>
      have hthis := shows_promised (m := m₂) (r := m₂.heap.getAt c.frame 0 "this")
        fun _ hv => shows_of_getAt hv
      exact ends_bind (ends_of_ok rfl fun _ =>
        (h2.look hthis).mono (fun v m₃ _ h3 => h3.comes_head) fun _ _ hi => hi)
    | false =>
      cases ending with
      | returned v => exact ends_pure h2.comes_head
      | completed => exact ends_pure (h2.take (.plain rfl)).comes_head

theorem conducts_execute (stmt : Stmt) :
    Conducts s n (.execute stmt) m (Eval.execute s (n + 1) stmt) Completion.values := by
  simp only [Conducts, Eval.execute]
  cases stmt with
  | expression e =>
    refine (Passes.evaluate .start .expression).bind fun v m₁ _ h1 => ?_
    exact ends_pure (h1.comes (List.forall_mem_nil _))
  | print e =>
    refine (Passes.evaluate .start .print).bind fun v m₁ _ h1 => ?_
    have h2 : Passes s n (.execute (.print e)) m _
        { m₁ with printed := m₁.printed ++ m₁.heap.text v ++ "\n" } := h1.print.print
    exact ends_bind (ends_of_ok rfl fun _ => ends_pure (h2.comes (List.forall_mem_nil _)))
  | var name init =>
    cases init with
    | none =>
      have h1 : Passes s n (.execute (.var name none)) m (.nil :: []) m :=
        Passes.start.take (.plain rfl)
      have h2 := h1.edit (e := .bind m.frame name.lexeme .nil) ⟨.current rfl, List.mem_cons_self⟩
      exact ends_bind (ends_pure fun _ => ends_bind (ends_of_ok rfl fun _ =>
        ends_pure (h2.comes (List.forall_mem_nil _))))
    | some e =>
      refine (Passes.evaluate .start .init).bind fun v m₁ _ h1 => ?_
      have h2 := h1.edit (e := .bind m₁.frame name.lexeme v) ⟨.current rfl, List.mem_cons_self⟩
      exact ends_bind (ends_of_ok rfl fun _ => ends_pure (h2.comes (List.forall_mem_nil _)))
  | block body =>
    refine ends_bind (ends_of_ok rfl fun _ => ?_)
    refine ends_bind (ends_of_ok (t := { m.inBlock with frame := m.frame }) rfl fun _ => ?_)
    have hg : m.heap.frames.size < m.inBlock.heap.frames.size := by
      simp [Machine.inBlock, Heap.newFrame]
    exact ((passes_inBlock body).inFrame hg .block).mono
      (fun c m₂ _ h2 => h2.comes fun v hv => List.mem_append_left _ hv) fun _ _ hi => hi
  | ifThen test yes =>
    refine (Passes.evaluate .start .thenTest).bind fun v m₁ hv h1 => ?_
    by_cases ht : v.truthy = true
    · simp only [ht, if_true]
      exact (h1.execute (.thenYes hv ht)).mono
        (fun c m₂ _ h2 => h2.comes fun v hv => List.mem_append_left _ hv) fun _ _ hi => hi
    · simp only [ht]
      exact ends_pure (h1.comes (List.forall_mem_nil _))
  | ifElse test yes no =>
    refine (Passes.evaluate .start .elseTest).bind fun v m₁ hv h1 => ?_
    cases ht : v.truthy with
    | true =>
      exact (h1.execute (.elseYes hv ht)).mono
        (fun c m₂ _ h2 => h2.comes fun v hv => List.mem_append_left _ hv) fun _ _ hi => hi
    | false =>
      exact (h1.execute (.elseNo hv ht)).mono
        (fun c m₂ _ h2 => h2.comes fun v hv => List.mem_append_left _ hv) fun _ _ hi => hi
  | loop test body =>
    refine (Passes.evaluate .start .loopTest).bind fun v m₁ hv h1 => ?_
    by_cases ht : v.truthy = true
    · simp only [ht, if_true]
      refine (h1.execute (.loopBody hv ht)).bind fun c m₂ hb h2 => ?_
      cases c with
      | returned w => exact ends_pure h2.comes_head
      | completed =>
        exact (h2.execute (.loopAgain hv ht hb)).mono
          (fun c m₃ _ h3 => h3.comes fun v hv => List.mem_append_left _ hv) fun _ _ hi => hi
    · simp only [ht]
      exact ends_pure (h1.comes (List.forall_mem_nil _))
  | function decl =>
    have h1 : Passes s n (.execute (.function decl)) m _ _ :=
      Passes.start.edit (e := .function ⟨decl, m.frame, false⟩)
        ⟨.current rfl, fun r hr => .inl hr⟩
    have h2 := h1.take (v := .function m.heap.functions.size) (.function (by
      simp [Edit.apply, Heap.newFunction]))
    have h3 := h2.edit (e := .bind m.frame decl.name.lexeme (.function m.heap.functions.size))
      ⟨.current rfl, List.mem_cons_self⟩
    exact ends_of_ok (a := Completion.completed) rfl (h3.comes (List.forall_mem_nil _))
  | ret keyword value =>
    cases value with
    | none => exact ends_pure (Passes.start.take (.plain rfl)).comes_head
    | some e =>
      refine (Passes.evaluate .start .returned).bind fun v m₁ _ h1 => ?_
      exact ends_pure h1.comes_head
  | classDecl name superclass methods =>
    have hd : ∀ d ∈ methods, ∀ r ∈ FunDecl.references d,
        r ∈ Task.references (.execute (.classDecl name superclass methods)) := by
      intro d hm r hr
      exact List.mem_append_right _ (FunDecl.mem_referencesAll hr hm)
    simp only [declareClass_eq]
    refine ends_bind (Ends.bind ((shows_superclassOf superclass).mono (fun parent m₁ _ hp => hp)
      fun _ _ hi => .of_refused .start hi) fun parent m₁ _ hp => ends_of_ok rfl fun _ => ?_)
    obtain ⟨rfl, hp⟩ := hp
    cases parent with
    | none =>
      exact ends_pure (Passes.start.classHeap (fun q hq => by cases hq) hd)
    | some q =>
      have h1 : Passes s n (.execute (.classDecl name superclass methods)) m₁ [.cls q] m₁ :=
        Passes.start.take (hp q rfl)
      exact ends_pure (h1.classHeap (fun q hq => by cases hq; exact List.mem_cons_self) hd)

theorem conducts_executeAll (stmts : List Stmt) :
    Conducts s n (.executeAll stmts) m (Eval.executeAll s (n + 1) stmts) Completion.values := by
  cases stmts with
  | nil => exact ends_pure (Passes.start.comes (List.forall_mem_nil _))
  | cons stmt stmts =>
    simp only [Conducts, Eval.executeAll]
    refine (Passes.execute .start .first).bind fun c m₁ hc h1 => ?_
    cases c with
    | returned v => exact ends_pure h1.comes_head
    | completed =>
      exact (h1.executeAll (.rest hc)).mono
        (fun c m₂ _ h2 => h2.comes fun v hv => List.mem_append_left _ hv) fun _ _ hi => hi

/-- **What a task does.** It ends where its own steps and the tasks that it has run lead, with its
results in hand; or it is stopped on the way. -/
theorem Task.ends_run (s : Setting) (n : Nat) (task : Task) (m : Machine) :
    Ends (task.run s (n + 1)) m (Comes s n task m) (Stopped s n task m) := by
  cases task with
  | evaluate e => exact ends_map (conducts_evaluate e)
  | evaluateAll es => exact conducts_evaluateAll es
  | apply callee args => exact ends_map (conducts_apply callee args)
  | runFunction f args => exact ends_map (conducts_runFunction f args)
  | execute stmt => exact ends_map (conducts_execute stmt)
  | executeAll stmts => exact ends_map (conducts_executeAll stmts)

end

end Lox

import Lox.Proofs.Activation
import Lox.Proofs.Actions

/-!
# Evaluation keeps the invariant

`Task.Ready` says what a task needs of the machine it begins in, `Task.Kept` what it leaves behind:
a sound heap grown from the one before, the same current frame, and results that exist. A promise
of the binding pass is broken only by an assignment that the ledger excuses (`Blamed`).

The induction is over the fuel. A task begins only tasks that are ready (`Task.ready_calls`), so
each case follows the text of the evaluator (`Task.kept`).
-/

namespace Lox

open Heap Exec Eval

section
variable (s : Setting) (L : Ledger)

/-! ## Before and after a task -/

/-- What a task needs of the machine it begins in. -/
def Task.Ready (site : Site) (m : Machine) : Task → Prop
  | .evaluate e => Fits L m.heap true m.frame site ∧ e.Scoped L.excused site
  | .evaluateAll es => Fits L m.heap true m.frame site ∧ Expr.ScopedAll L.excused site es
  | .apply callee args =>
    m.heap.Has L callee ∧ (∀ a ∈ args, m.heap.Has L a) ∧
      ∃ c, callable? s m.heap callee = some c ∧ (args.length : Int) = c.arity
  | .runFunction f args =>
    ∃ c, m.heap.functions[f]? = some c ∧ m.heap.Runs L c ∧ (∀ a ∈ args, m.heap.Has L a) ∧
      args.length = c.decl.params.length
  | .execute stmt => Fits L m.heap true m.frame site ∧ stmt.Scoped L.excused site
  | .executeAll stmts => Fits L m.heap true m.frame site ∧ Stmt.ScopedAll L.excused site stmts

/-- The promise `b` is broken by an assignment, begun by the task, to a variable in its own
initializer. -/
def Blamed (n : Nat) (task : Task) (m : Machine) (b : Broken) : Prop :=
  ∃ k ref value m₁ v m₂, Visits s n task m (k + 1) (.evaluate (.assign ref value)) m₁ ∧
    L.excused (.assign ref value) ∧ evaluate s k value m₁ = .ok v m₂ ∧
    write s ref v m₂ = .error (.broken b) m₂ ∧ b = .notBound ref.name 0

/-- How a task may be interrupted. -/
def Stops (n : Nat) (task : Task) (m : Machine) (i : Interrupt) (m' : Machine) : Prop :=
  Good L m m' ∧ ∀ b, i = .broken b → Blamed s L n task m b

/-- A value that is returned exists. -/
def Completion.Ok (h : Heap) : Completion → Prop
  | .completed => True
  | .returned v => h.Has L v

/-- What a task leaves behind. -/
def Task.Kept (n : Nat) (site : Site) (m : Machine) : Task → Prop
  | .evaluate e =>
    Ends (Eval.evaluate s n e) m (fun v m' => Good L m m' ∧ m'.heap.Has L v) (Stops s L n (.evaluate e) m)
  | .evaluateAll es =>
    Ends (Eval.evaluateAll s n es) m (fun vs m' => Good L m m' ∧ ∀ v ∈ vs, m'.heap.Has L v)
      (Stops s L n (.evaluateAll es) m)
  | .apply callee args =>
    Ends (Eval.apply s n callee args) m (fun v m' => Good L m m' ∧ m'.heap.Has L v)
      (Stops s L n (.apply callee args) m)
  | .runFunction f args =>
    Ends (Eval.runFunction s n f args) m (fun v m' => Good L m m' ∧ m'.heap.Has L v)
      (Stops s L n (.runFunction f args) m)
  | .execute stmt =>
    Ends (Eval.execute s n stmt) m
      (fun c m' => Good L m m' ∧ c.Ok L m'.heap ∧ (c = .completed →
        Fits L m'.heap true m'.frame { site with scopes := stmt.declare site.scopes }))
      (Stops s L n (.execute stmt) m)
  | .executeAll stmts =>
    Ends (Eval.executeAll s n stmts) m (fun c m' => Good L m m' ∧ c.Ok L m'.heap)
      (Stops s L n (.executeAll stmts) m)

/-- What the proof asks of a session and its ledger: hops decide where references are found, the
native functions that the tasks in `V` call are lawful, and the ledger has an entry for every class
statement among these tasks, and for its methods. -/
structure Watched (V : Nat → Task → Machine → Prop) : Prop where
  static : s.scoping = .static
  lawful : ∀ {n id native args m}, V (n + 1) (.apply (.native id) args) m →
    s.natives[id]? = some native → native.Lawful L.raw args m
  calls : ∀ {n task m task' m'}, V (n + 1) task m → Calls s n task m task' m' → V n task' m'
  made : ∀ {n name superclass methods m m' C},
    V n (.execute (.classDecl name superclass methods)) m →
    Eval.execute s n (.classDecl name superclass methods) m = .ok .completed m' →
    m'.heap.classes[m.heap.classes.size]? = some C →
    L.made m.heap.classes.size m.heap.frames.size C (.classDecl name superclass methods)
  raw : ∀ {n name superclass methods m m' f},
    V n (.execute (.classDecl name superclass methods)) m →
    Eval.execute s n (.classDecl name superclass methods) m = .ok .completed m' →
    m.heap.functions.size ≤ f → f < m'.heap.functions.size → L.raw f

/-- Every task of `V` with fuel `n` that is ready is kept. -/
def AllKept (V : Nat → Task → Machine → Prop) (n : Nat) : Prop :=
  ∀ {task site m}, V n task m → m.heap.Sound L → task.Ready s L site m → task.Kept s L n site m

end

section
variable {s : Setting} {L : Ledger} {n : Nat} {task task' : Task} {m m₁ m' : Machine}

theorem Blamed.call (hc : Calls s n task m task' m₁) {b : Broken} (hb : Blamed s L n task' m₁ b) :
    Blamed s L (n + 1) task m b := by
  obtain ⟨k, ref, value, m₂, v, m₃, hv, hrest⟩ := hb
  exact ⟨k, ref, value, m₂, v, m₃, .call hc hv, hrest⟩

theorem Stops.of_faulted (g : Good L m m₁) {i : Interrupt} (h : Faulted m₁ i m') :
    Stops s L n task m i m' := by
  obtain ⟨rfl, f, rfl⟩ := h
  exact ⟨g, fun b hb => by cases hb⟩

theorem Stops.of_fault (g : Good L m m') {i : Interrupt} (h : ∃ f, i = .fault f) :
    Stops s L n task m i m' := by
  obtain ⟨f, rfl⟩ := h
  exact ⟨g, fun b hb => by cases hb⟩

theorem Stops.call (g : Good L m m₁) (hc : Calls s n task m task' m₁) {i : Interrupt}
    (h : Stops s L n task' m₁ i m') : Stops s L (n + 1) task m i m' :=
  ⟨g.trans h.1, fun b hb => (h.2 b hb).call hc⟩

/-! ## Sites that change -/

/-- While a variable is initialized it is bound, but not ready. -/
theorem Heap.Fits.pending {h : Heap} {f : Id} {site : Site} (hf : Fits L h true f site) {name : Token}
    (hn : ¬ isWord name.lexeme) :
    Fits L h true f { site with scopes := site.scopes.declare name false } := by
  cases hf with
  | globals => exact .globals
  | scope hp hw hb ho =>
    refine .scope hp (fun other hother => ?_) (fun other hother => ?_) ho
    · rw [List.lookup_cons]
      have hne : (other == name.lexeme) = false := by
        simp only [beq_eq_false_iff_ne]
        exact fun he => hn (he ▸ hother)
      rw [hne]
      exact hw other hother
    · rw [List.lookup_cons] at hother
      split at hother
      · cases hother
      · exact hb other hother

theorem Heap.Fits.inBlock {site : Site} (hf : Fits L m.heap true m.frame site) :
    Fits L m.inBlock.heap true m.inBlock.frame { site with scopes := [] :: site.scopes } :=
  .scope (parent?_newFrame_self m.heap _) (fun _ _ => rfl) (fun _ h => by cases h)
    (hf.grows (grows_newFrame m.heap _))

theorem Good.inBlock (hs : m.heap.Sound L) : m.inBlock.heap.Sound L := by
  refine hs.newFrame fun {name v} hl => ?_
  cases hl

/-- What the scope of a function with its parameters binds. -/
theorem lookup_withParams (scopes : Scopes) : ∀ (params : List Token) (scope : Scope),
    ∃ scope', params.foldl (fun scopes param => Scopes.declare scopes param true) (scope :: scopes) =
      scope' :: scopes ∧ ∀ name ready, scope'.lookup name = some ready →
        (∃ p ∈ params, p.lexeme = name) ∨ scope.lookup name = some ready
  | [], scope => ⟨scope, rfl, fun _ _ h => .inr h⟩
  | p :: params, scope => by
    obtain ⟨scope', he, hl⟩ := lookup_withParams scopes params ((p.lexeme, true) :: scope)
    refine ⟨scope', he, fun name ready h => ?_⟩
    rcases hl name ready h with ⟨q, hq, rfl⟩ | h
    · exact .inl ⟨q, List.mem_cons_of_mem _ hq, rfl⟩
    · rw [List.lookup_cons] at h
      split at h
      · rename_i heq
        exact .inl ⟨p, List.mem_cons_self, (beq_iff_eq.1 heq).symm⟩
      · exact .inr h

/-- The body of a function runs in a frame that binds the parameters. -/
theorem Heap.Fits.inBody {c : Closure} {args : List Value} {code : Bool} {site : Site}
    (hf : Fits L m.heap code c.frame site) (hl : args.length = c.decl.params.length)
    (hp : ∀ p ∈ c.decl.params, ¬ isWord p.lexeme) :
    Fits L (m.inBody c args).heap true (m.inBody c args).frame
      { site with scopes := site.scopes.withParams c.decl.params } := by
  obtain ⟨scope, he, hscope⟩ := lookup_withParams site.scopes c.decl.params []
  have hw : site.scopes.withParams c.decl.params = scope :: site.scopes := he
  rw [hw]
  refine .scope (parent?_newFrame_self m.heap _) (fun name hname => ?_) (fun name hname => ?_)
    (hf.grows (grows_newFrame m.heap _))
  · cases hs : scope.lookup name with
    | none => rfl
    | some ready =>
      rcases hscope name ready hs with ⟨p, hm, rfl⟩ | h
      · exact absurd hname (hp p hm)
      · cases h
  · rcases hscope name true hname with ⟨p, hm, rfl⟩ | h
    · obtain ⟨i, hi, rfl⟩ := List.getElem_of_mem hm
      change ((m.heap.newFrame _).2.vars m.heap.frames.size).binds _ = true
      rw [vars_newFrame_self]
      refine Table.binds_insertAll (a := args[i]) ?_
      refine List.mem_iff_getElem.2 ⟨i, by simp; omega, ?_⟩
      simp
    · cases h

theorem Good.inBody (hs : m.heap.Sound L) {c : Closure} {args : List Value}
    (ha : ∀ a ∈ args, m.heap.Has L a) : (m.inBody c args).heap.Sound L := by
  refine hs.newFrame fun {name v} hl => ?_
  rcases Table.lookup_insertAll hl with hm | ⟨h, -⟩
  · exact ha v (List.of_mem_zip hm).2
  · cases h

/-! ## A ready task begins ready tasks -/

section
variable {V : Nat → Task → Machine → Prop} (w : Watched s L V) (ih : AllKept s L V n)
include w ih

theorem AllKept.evaluate {e : Expr} {site : Site} (hv : V (n + 1) task m)
    (hc : Calls s n task m (.evaluate e) m₁) (hs : m₁.heap.Sound L)
    (hr : Task.Ready s L site m₁ (.evaluate e)) {v : Value} (he : evaluate s n e m₁ = .ok v m') :
    Good L m₁ m' ∧ m'.heap.Has L v :=
  Ends.ok (x := Eval.evaluate s n e) (ih (w.calls hv hc) hs hr) he

omit w ih in
/-- Calling a class whose initializer takes the arguments. -/
theorem ready_initializer {c init : Id} {args : List Value} (hs : m.heap.Sound L)
    (hc : m.heap.Has L (.cls c)) (ha : ∀ a ∈ args, m.heap.Has L a)
    (hl : args.length = m.heap.classArity c)
    (hi : (m.withInstance c).heap.initializer? c = some init) :
    ((m.withInstance c).withBound init m.heap.instances.size).heap.Sound L ∧
      Task.Ready s L ⟨[], none⟩ ((m.withInstance c).withBound init m.heap.instances.size)
        (.runFunction ((m.withInstance c).heap.bindMethod init m.heap.instances.size).1 args) := by
  have hs1 : (m.withInstance c).heap.Sound L := hs.newInstance hc
  have gr1 : m.heap.Grows (m.withInstance c).heap := grows_newInstance m.heap c
  obtain ⟨⟨d, f⟩, hf, rfl⟩ := Option.map_eq_some_iff.1 hi
  obtain ⟨hcd, hm⟩ := findMethod?_eq_some hf
  have ho : (m.withInstance c).heap.classOf? m.heap.instances.size = some c := by
    change (m.heap.newInstance c).2.classOf? _ = _
    rw [classOf?_newInstance, if_pos rfl]
  have hmo := hs1.methods hm
  obtain ⟨gr2, hs2, c', hc', hruns⟩ := hs1.bindMethod hmo ho hcd
  refine ⟨hs2, c', hc', hruns, fun a hm => (gr1.trans gr2).has (ha a hm), ?_⟩
  -- the bound method has the parameters of the initializer, which the class has asked for
  obtain ⟨closure, -, -, -, -, -, hfn, -⟩ := hmo
  cases hc'.symm.trans (getElem?_bindMethod hfn _)
  have hfn0 : m.heap.functions[f]? = some closure := hfn
  have hinit : m.heap.initializer? c = some f := by
    have hclasses : m.heap.classes = (m.withInstance c).heap.classes := rfl
    have hsame := findMethod?_congr hclasses c initName
    unfold initializer?
    rw [hsame, hf]
    rfl
  rw [hl]
  simp [classArity, hinit, functionArity, hfn0]

/-- Each task that a ready task begins is ready. -/
theorem Task.ready_calls {site : Site} (hv : V (n + 1) task m) (hs : m.heap.Sound L)
    (hr : task.Ready s L site m) (hc : Calls s n task m task' m') :
    m'.heap.Sound L ∧ ∃ site', task'.Ready s L site' m' := by
  cases hc with
  | group | operand | getObject => exact ⟨hs, site, hr⟩
  | left | test | callee | setObject | head => exact ⟨hs, site, hr.1, hr.2.1⟩
  | assigned => exact ⟨hs, site, hr.1, hr.2.2.2⟩
  | right hl =>
    obtain ⟨g, -⟩ := ih.evaluate w hv .left hs ⟨hr.1, hr.2.1⟩ hl
    exact ⟨g.sound, site, g.fits hr.1, hr.2.2⟩
  | undecided hl _ =>
    obtain ⟨g, -⟩ := ih.evaluate w hv .test hs ⟨hr.1, hr.2.1⟩ hl
    exact ⟨g.sound, site, g.fits hr.1, hr.2.2⟩
  | arguments hf =>
    obtain ⟨g, -⟩ := ih.evaluate w hv .callee hs ⟨hr.1, hr.2.1⟩ hf
    exact ⟨g.sound, site, g.fits hr.1, hr.2.2⟩
  | @apply callee paren args m f m₁ vs m₂ c hf hvs hc hl =>
    obtain ⟨g, hfv⟩ := ih.evaluate w hv .callee hs ⟨hr.1, hr.2.1⟩ hf
    have hargs : Task.Ready s L site m₁ (.evaluateAll args) := ⟨g.fits hr.1, hr.2.2⟩
    obtain ⟨g', hall⟩ := Ends.ok (x := Eval.evaluateAll s n args)
      (ih (w.calls hv (.arguments hf)) g.sound hargs) hvs
    exact ⟨g'.sound, site, g'.grows.has hfv, hall, c, hc, hl⟩
  | setValue ho =>
    obtain ⟨g, -⟩ := ih.evaluate w hv .setObject hs ⟨hr.1, hr.2.1⟩ ho
    exact ⟨g.sound, site, g.fits hr.1, hr.2.2⟩
  | tail hv' =>
    obtain ⟨g, -⟩ := ih.evaluate w hv .head hs ⟨hr.1, hr.2.1⟩ hv'
    exact ⟨g.sound, site, g.fits hr.1, hr.2.2⟩
  | function =>
    obtain ⟨⟨c, hc, hruns⟩, ha, k, hk, hl⟩ := hr
    cases hk
    refine ⟨hs, site, c, hc, hruns, ha, ?_⟩
    simp only [functionArity, hc, Option.map_some, Option.getD_some] at hl
    omega
  | @initializer c args m init hi =>
    obtain ⟨hc, ha, k, hk, hl⟩ := hr
    cases hk
    obtain ⟨hs', hr'⟩ := ready_initializer (s := s) hs hc ha (Int.ofNat.inj hl) hi
    exact ⟨hs', _, hr'⟩
  | @body f args m closure hc =>
    obtain ⟨c, hc', ⟨code, site', hf, hsc, -⟩, ha, hl⟩ := hr
    cases hc.symm.trans hc'
    obtain ⟨hp, hbody⟩ := FunDecl.scoped_iff.1 hsc
    exact ⟨Good.inBody hs ha, _, Fits.inBody hf hl hp, hbody⟩
  | expression | print | thenTest | elseTest | loopTest =>
    first
    | exact ⟨hs, site, hr⟩
    | exact ⟨hs, site, hr.1, hr.2.1⟩
  | init => exact ⟨hs, _, Fits.pending hr.1 hr.2.1, hr.2.2 _ rfl⟩
  | block => exact ⟨Good.inBlock hs, _, Fits.inBlock hr.1, hr.2⟩
  | thenYes hv' _ =>
    obtain ⟨g, -⟩ := ih.evaluate w hv .thenTest hs ⟨hr.1, hr.2.1⟩ hv'
    exact ⟨g.sound, site, g.fits hr.1, hr.2.2.1⟩
  | elseYes hv' _ =>
    obtain ⟨g, -⟩ := ih.evaluate w hv .elseTest hs ⟨hr.1, hr.2.1⟩ hv'
    exact ⟨g.sound, site, g.fits hr.1, hr.2.2.1.1⟩
  | elseNo hv' _ =>
    obtain ⟨g, -⟩ := ih.evaluate w hv .elseTest hs ⟨hr.1, hr.2.1⟩ hv'
    exact ⟨g.sound, site, g.fits hr.1, hr.2.2.2.1⟩
  | loopBody hv' _ =>
    obtain ⟨g, -⟩ := ih.evaluate w hv .loopTest hs ⟨hr.1, hr.2.1⟩ hv'
    exact ⟨g.sound, site, g.fits hr.1, hr.2.2.1⟩
  | @loopAgain test body m v m₁ m₂ hv' ht hb =>
    obtain ⟨g, -⟩ := ih.evaluate w hv .loopTest hs ⟨hr.1, hr.2.1⟩ hv'
    have hbody : Task.Ready s L site m₁ (.execute body) := ⟨g.fits hr.1, hr.2.2.1⟩
    obtain ⟨g', -, -⟩ := Ends.ok (x := Eval.execute s n body)
      (ih (w.calls hv (.loopBody hv' ht)) g.sound hbody) hb
    exact ⟨g'.sound, site, (g.trans g').fits hr.1, hr.2⟩
  | returned => exact ⟨hs, site, hr.1, hr.2 _ rfl⟩
  | first => exact ⟨hs, site, hr.1, hr.2.1⟩
  | @rest stmt stmts m m' hb =>
    have hfirst : Task.Ready s L site m (.execute stmt) := ⟨hr.1, hr.2.1⟩
    obtain ⟨g, -, hfits⟩ := Ends.ok (x := Eval.execute s n stmt)
      (ih (w.calls hv .first) hs hfirst) hb
    exact ⟨g.sound, _, hfits rfl, hr.2.2⟩

/-! ## The induction -/

omit w ih in
/-- What a task relies on when it begins another one: the other's results, and its own blame. -/
theorem Ends.called {α : Type} {act : Exec α} {P : α → Machine → Prop}
    (h : Ends act m₁ (fun a m' => Good L m₁ m' ∧ P a m') (Stops s L n task' m₁))
    (hc : Calls s n task m task' m₁) (g : Good L m m₁) :
    Ends act m₁ (fun a m' => Good L m m' ∧ Good L m₁ m' ∧ P a m') (Stops s L (n + 1) task m) :=
  h.mono (fun _ _ _ hq => ⟨g.trans hq.1, hq.1, hq.2⟩) (fun _ _ hi => hi.call g hc)

theorem AllKept.call {site : Site} (hv : V (n + 1) task m) (hs : m.heap.Sound L)
    (hr : task.Ready s L site m) (hc : Calls s n task m task' m') :
    ∃ site', task'.Kept s L n site' m' := by
  obtain ⟨hs', site', hr'⟩ := Task.ready_calls w ih hv hs hr hc
  exact ⟨site', ih (w.calls hv hc) hs' hr'⟩

theorem AllKept.callEvaluate {site : Site} (hv : V (n + 1) task m) (hs : m.heap.Sound L)
    (hr : task.Ready s L site m) (g : Good L m m₁) {e : Expr}
    (hc : Calls s n task m (.evaluate e) m₁) :
    Ends (Eval.evaluate s n e) m₁ (fun v m' => Good L m m' ∧ Good L m₁ m' ∧ m'.heap.Has L v)
      (Stops s L (n + 1) task m) := by
  obtain ⟨site', hk⟩ := ih.call w hv hs hr hc
  exact Ends.called hk hc g

/-- Calling: the callee and the arguments are evaluated, and the call has as many arguments as it
takes. -/
theorem kept_call {callee : Expr} {paren : Token} {args : List Expr} {site : Site}
    (hv : V (n + 1) (.evaluate (.call callee paren args)) m) (hs : m.heap.Sound L)
    (hr : Task.Ready s L site m (.evaluate (.call callee paren args))) :
    Task.Kept s L (n + 1) site m (.evaluate (.call callee paren args)) := by
  simp only [Task.Kept, Eval.evaluate]
  refine ends_bind ((ih.callEvaluate w hv hs hr (.refl hs) .callee).mono
    (fun f m₁ hf h1 _ => ?_) fun _ _ hi => hi)
  obtain ⟨site₂, hk⟩ := ih.call w hv hs hr (.arguments hf)
  refine ends_bind ((Ends.called hk (.arguments hf) h1.1).mono
    (fun vs m₂ hvs h2 _ => ?_) fun _ _ hi => hi)
  refine ends_bind (ends_of_ok rfl fun _ => ?_)
  cases hc : callable? s m₂.heap f with
  | none => exact ends_throw (.of_fault h2.1 ⟨_, rfl⟩)
  | some c =>
    by_cases hl : (vs.length : Int) = c.arity
    · have hcall : Calls s n (.evaluate (.call callee paren args)) m (.apply f vs)
          (m₂.enter s ⟨c.name, paren.line⟩) := .apply hf hvs hc hl
      obtain ⟨site₃, hk⟩ := ih.call w hv hs hr hcall
      have g : Good L m (m₂.enter s ⟨c.name, paren.line⟩) := ⟨h2.1.sound, h2.1.grows, h2.1.frame⟩
      simp only [hl, if_true]
      refine ends_asCall ((Ends.called hk hcall g).mono (fun v m₃ _ h3 => ?_) (fun i m₃ h3 => ?_))
      · exact ⟨⟨h3.1.sound, h3.1.grows, h3.1.frame⟩, h3.2.2⟩
      · cases i with
        | fault f =>
          have g' : Good L m { m₃ with calls := m₃.calls.pop } :=
            ⟨h3.1.sound, h3.1.grows, h3.1.frame⟩
          exact .of_fault g' ⟨_, rfl⟩
        | broken b => exact h3
        | outOfFuel => exact h3
    · simp only [hl, if_false]
      exact ends_throw (.of_fault h2.1 ⟨_, rfl⟩)

/-- Assigning: in its own initializer a variable may not be there yet, which is the one way to break
a promise. -/
theorem kept_assign {ref : Reference} {value : Expr} {site : Site}
    (hv : V (n + 1) (.evaluate (.assign ref value)) m) (hs : m.heap.Sound L)
    (hr : Task.Ready s L site m (.evaluate (.assign ref value))) :
    Task.Kept s L (n + 1) site m (.evaluate (.assign ref value)) := by
  simp only [Task.Kept, Eval.evaluate]
  refine ends_bind ((ih.callEvaluate w hv hs hr (.refl hs) .assigned).mono
    (fun v m₁ hval h1 _ => ?_) fun _ _ hi => hi)
  obtain ⟨hf, hn, hplace, -⟩ := hr
  rcases hplace with hready | ⟨hpending, hexc⟩
  · refine ends_bind ((ends_write w.static h1.1.sound (h1.1.fits hf) hn hready h1.2.2).mono
      (fun _ m₂ _ g _ => ?_) fun _ _ hi => .of_faulted h1.1 hi)
    exact ends_pure ⟨h1.1.trans g, g.grows.has h1.2.2⟩
  · have hw := ends_write_pending w.static h1.1.sound hn hpending h1.2.2
    cases hwr : Exec.write s ref v m₁ with
    | ok u m₂ =>
      have g := hw.ok hwr
      exact ends_bind (ends_of_ok hwr fun _ =>
        ends_pure ⟨h1.1.trans g, g.grows.has h1.2.2⟩)
    | error i m₂ =>
      obtain ⟨rfl, rfl⟩ := hw.error hwr
      refine ends_bind (ends_of_error hwr ⟨h1.1, fun b hb => ?_⟩)
      cases hb
      exact ⟨n, ref, value, m, v, m₂, .here, hexc, hval, hwr, rfl⟩

theorem kept_evaluate {e : Expr} {site : Site} (hv : V (n + 1) (.evaluate e) m)
    (hs : m.heap.Sound L) (hr : Task.Ready s L site m (.evaluate e)) :
    Task.Kept s L (n + 1) site m (.evaluate e) := by
  cases e with
  | literal c =>
    have hp : c.value.isPlain = true := by cases c <;> rfl
    simp only [Task.Kept, Eval.evaluate]
    exact ends_pure ⟨.refl hs, has_of_isPlain hp⟩
  | group e =>
    exact (ih.callEvaluate w hv hs hr (.refl hs) .group).mono (fun _ _ _ h1 => ⟨h1.1, h1.2.2⟩)
      fun _ _ hi => hi
  | unary op token e =>
    simp only [Task.Kept, Eval.evaluate]
    refine ends_bind ((ih.callEvaluate w hv hs hr (.refl hs) .operand).mono
      (fun v m₁ _ h1 _ => ?_) fun _ _ hi => hi)
    refine (ends_unaryOp op token v).mono (fun r m₂ _ h2 => ?_)
      fun _ _ hi => .of_faulted h1.1 hi.faulted
    obtain ⟨rfl, hp⟩ := h2
    exact ⟨h1.1, has_of_isPlain hp⟩
  | binary op token l r =>
    simp only [Task.Kept, Eval.evaluate]
    refine ends_bind ((ih.callEvaluate w hv hs hr (.refl hs) .left).mono
      (fun a m₁ ha h1 _ => ?_) fun _ _ hi => hi)
    refine ends_bind ((ih.callEvaluate w hv hs hr h1.1 (.right ha)).mono
      (fun b m₂ _ h2 _ => ?_) fun _ _ hi => hi)
    refine (ends_binaryOp op token a b).mono (fun r m₃ _ h3 => ?_)
      fun _ _ hi => .of_faulted h2.1 hi.faulted
    obtain ⟨rfl, hp⟩ := h3
    exact ⟨h2.1, has_of_isPlain hp⟩
  | logical op token l r =>
    simp only [Task.Kept, Eval.evaluate]
    refine ends_bind ((ih.callEvaluate w hv hs hr (.refl hs) .test).mono
      (fun a m₁ ha h1 _ => ?_) fun _ _ hi => hi)
    cases hd : decides op a with
    | true => exact ends_pure ⟨h1.1, h1.2.2⟩
    | false =>
      exact (ih.callEvaluate w hv hs hr h1.1 (.undecided ha hd)).mono
        (fun _ _ _ h2 => ⟨h2.1, h2.2.2⟩) fun _ _ hi => hi
  | name ref =>
    refine Ends.mono (x := Exec.read s ref) (ends_read w.static hs hr.1 hr.2) (fun v m' _ h1 => ?_)
      fun _ _ hi => .of_faulted (.refl hs) hi
    obtain ⟨rfl, hv⟩ := h1
    exact ⟨.refl hs, hv⟩
  | assign ref value => exact kept_assign w ih hv hs hr
  | call callee paren args => exact kept_call w ih hv hs hr
  | get object property =>
    simp only [Task.Kept, Eval.evaluate]
    refine ends_bind ((ih.callEvaluate w hv hs hr (.refl hs) .getObject).mono
      (fun o m₁ _ h1 _ => ?_) fun _ _ hi => hi)
    exact (ends_getProperty h1.1.sound o property).mono
      (fun v m₂ _ h2 => ⟨h1.1.trans h2.1, h2.2⟩) fun _ _ hi => .of_fault (h1.1.trans hi.1) hi.2
  | set object property value =>
    simp only [Task.Kept, Eval.evaluate]
    refine ends_bind ((ih.callEvaluate w hv hs hr (.refl hs) .setObject).mono
      (fun o m₁ ho h1 _ => ?_) fun _ _ hi => hi)
    cases o with
    | object id =>
      refine ends_bind ((ih.callEvaluate w hv hs hr h1.1 (.setValue ho)).mono
        (fun v m₂ _ h2 _ => ?_) fun _ _ hi => hi)
      have gr := grows_setField m₂.heap id property.lexeme v
      have hset := h2.1.sound.setField id property.lexeme h2.2.2
      exact ends_bind (ends_of_ok rfl fun _ =>
        ends_pure ⟨h2.1.trans (.heap gr hset), gr.has h2.2.2⟩)
    | _ => exact ends_throw (.of_fault h1.1 ⟨_, rfl⟩)
  | thisRef ref =>
    obtain ⟨hf, hn, hh, K, hK⟩ := hr
    refine Ends.mono (x := Exec.read s ref) (ends_read_this w.static hs hf hK hn hh)
      (fun v m' _ h1 => ?_) fun _ _ hi => .of_faulted (.refl hs) hi
    obtain ⟨rfl, hv⟩ := h1
    exact ⟨.refl hs, hv⟩
  | superRef ref method =>
    obtain ⟨hf, hh, K, hK, hd, -⟩ := hr
    exact (ends_superMethod w.static hs hf hK hd hh method).mono (fun v m' _ h1 => h1)
      fun _ _ hi => .of_faulted (.refl hs) hi

theorem kept_evaluateAll {es : List Expr} {site : Site} (hv : V (n + 1) (.evaluateAll es) m)
    (hs : m.heap.Sound L) (hr : Task.Ready s L site m (.evaluateAll es)) :
    Task.Kept s L (n + 1) site m (.evaluateAll es) := by
  cases es with
  | nil =>
    simp only [Task.Kept, Eval.evaluateAll]
    exact ends_pure ⟨.refl hs, fun v hm => by cases hm⟩
  | cons e es =>
    simp only [Task.Kept, Eval.evaluateAll]
    refine ends_bind ((ih.callEvaluate w hv hs hr (.refl hs) .head).mono
      (fun v m₁ hval h1 _ => ?_) fun _ _ hi => hi)
    obtain ⟨site', hk⟩ := ih.call w hv hs hr (.tail hval)
    refine ends_bind ((Ends.called hk (.tail hval) h1.1).mono
      (fun vs m₂ _ h2 _ => ends_pure ⟨h2.1, fun u hm => ?_⟩) fun _ _ hi => hi)
    rcases List.mem_cons.1 hm with rfl | hm
    · exact h2.2.1.grows.has h1.2.2
    · exact h2.2.2 u hm

/-- Applying a class makes an instance, and runs the initializer on it if there is one. -/
theorem kept_apply_class {c : Id} {args : List Value} {site : Site}
    (hv : V (n + 1) (.apply (.cls c) args) m) (hs : m.heap.Sound L)
    (hr : Task.Ready s L site m (.apply (.cls c) args)) :
    Task.Kept s L (n + 1) site m (.apply (.cls c) args) := by
  have hs1 : (m.withInstance c).heap.Sound L := hs.newInstance hr.1
  have gr1 : m.heap.Grows (m.withInstance c).heap := grows_newInstance m.heap c
  have g1 : Good L m (m.withInstance c) := ⟨hs1, gr1, rfl⟩
  have ho : (m.withInstance c).heap.Has L (.object m.heap.instances.size) := by
    change _ < (m.heap.instances.push _).size
    simp
  simp only [Task.Kept, Eval.apply]
  refine ends_bind (ends_of_ok (a := m.heap.instances.size) (t := m.withInstance c) rfl fun _ => ?_)
  refine ends_bind (ends_of_ok rfl fun _ => ?_)
  cases hi : (m.withInstance c).heap.initializer? c with
  | none => exact ends_pure ⟨g1, ho⟩
  | some init =>
    have hcall : Calls s n (.apply (.cls c) args) m _ _ := .initializer hi
    obtain ⟨hs2, -⟩ := Task.ready_calls w ih hv hs hr hcall
    obtain ⟨site', hk⟩ := ih.call w hv hs hr hcall
    obtain ⟨⟨d, f⟩, hf, rfl⟩ := Option.map_eq_some_iff.1 hi
    obtain ⟨hcd, hm⟩ := findMethod?_eq_some hf
    have hoc : (m.withInstance c).heap.classOf? m.heap.instances.size = some c := by
      change (m.heap.newInstance c).2.classOf? _ = _
      rw [classOf?_newInstance, if_pos rfl]
    obtain ⟨gr2, -, -⟩ := hs1.bindMethod (hs1.methods hm) hoc hcd
    have g2 : Good L m ((m.withInstance c).withBound f m.heap.instances.size) :=
      ⟨hs2, gr1.trans gr2, rfl⟩
    refine ends_bind (ends_of_ok (t := (m.withInstance c).withBound f m.heap.instances.size) rfl
      fun _ => ?_)
    refine ends_bind ((Ends.called hk hcall g2).mono (fun v m₃ _ h3 _ => ?_) fun _ _ hi => hi)
    exact ends_pure ⟨h3.1, h3.2.1.grows.has (gr2.has ho)⟩

theorem kept_apply {callee : Value} {args : List Value} {site : Site}
    (hv : V (n + 1) (.apply callee args) m) (hs : m.heap.Sound L)
    (hr : Task.Ready s L site m (.apply callee args)) :
    Task.Kept s L (n + 1) site m (.apply callee args) := by
  cases callee with
  | native id =>
    obtain ⟨-, ha, k, hk, -⟩ := hr
    obtain ⟨native, hn, -⟩ := Option.map_eq_some_iff.1 hk
    have hlawful := w.lawful hv hn
    simp only [Task.Kept, Eval.apply, hn]
    exact (ends_runNative hlawful hs ha).mono (fun v m' _ h1 => h1)
      fun _ _ hi => .of_fault hi.1 hi.2
  | function f =>
    obtain ⟨site', hk⟩ := ih.call w hv hs hr .function
    simp only [Task.Kept, Eval.apply]
    exact (Ends.called hk .function (.refl hs)).mono (fun v m' _ h1 => ⟨h1.1, h1.2.2⟩)
      fun _ _ hi => hi
  | cls c => exact kept_apply_class w ih hv hs hr
  | nil | bool b | number x | string x | object o =>
    obtain ⟨-, -, k, hk, -⟩ := hr
    cases hk

theorem kept_runFunction {f : Id} {args : List Value} {site : Site}
    (hv : V (n + 1) (.runFunction f args) m) (hs : m.heap.Sound L)
    (hr : Task.Ready s L site m (.runFunction f args)) :
    Task.Kept s L (n + 1) site m (.runFunction f args) := by
  obtain ⟨c, hc, ⟨-, -, -, -, hinit⟩, ha, -⟩ := id hr
  obtain ⟨site', hk⟩ := ih.call w hv hs hr (.body hc)
  have g1 : Good L m { m.inBody c args with frame := m.frame } :=
    ⟨Good.inBody hs ha, grows_newFrame m.heap _, rfl⟩
  simp only [Task.Kept, Eval.runFunction]
  refine ends_bind (ends_of_ok rfl fun _ => ?_)
  simp only [hc]
  refine ends_bind (ends_of_ok (t := { m.inBody c args with frame := m.frame }) rfl fun _ => ?_)
  refine ends_bind (ends_inFrame (Ends.mono (x := Eval.executeAll s n c.decl.body) hk
    (fun ending m₂ _ h2 _ => ?_) (fun i m₂ h2 => ?_)))
  · have g2 : Good L m { m₂ with frame := m.frame } :=
      ⟨h2.1.sound, g1.grows.trans h2.1.grows, rfl⟩
    by_cases hi : c.isInitializer = true
    · obtain ⟨o, ho, hlt⟩ := hinit hi
      have ho' := g2.grows.word (.inl rfl) ho
      have hhas : m₂.heap.Has L (.object o) := Nat.lt_of_lt_of_le hlt g2.grows.instances_size
      simp only [hi, if_true]
      refine ends_of_ok (a := .object o) (t := { m₂ with frame := m.frame }) ?_ ⟨g2, hhas⟩
      have hget : m₂.heap.getAt c.frame 0 "this" = .ok (.object o) :=
        getAt_of_ancestor? (k := 0) rfl ho'
      simp only [heap_bind, hget]
      rfl
    · simp only [Bool.not_eq_true] at hi
      simp only [hi, Bool.false_eq_true, if_false]
      cases ending with
      | completed => exact ends_pure ⟨g2, trivial⟩
      | returned v => exact ends_pure ⟨g2, h2.2⟩
  · exact ⟨⟨h2.1.sound, g1.grows.trans h2.1.grows, rfl⟩, fun b hb => (h2.2 b hb).call (.body hc)⟩

omit w ih in
/-- A statement that declares nothing leaves the site as it was. -/
theorem Heap.Fits.after {stmt : Stmt} (hd : stmt.isDeclaration = false) {site : Site}
    (hf : Fits L m.heap true m.frame site) :
    Fits L m.heap true m.frame { site with scopes := stmt.declare site.scopes } := by
  rw [Stmt.declare_of_not_isDeclaration hd]
  exact hf

/-- The statements that bind a name: the name is bound in the current frame when they are done. -/
theorem kept_var {name : Token} {init : Option Expr} {site : Site}
    (hv : V (n + 1) (.execute (.var name init)) m) (hs : m.heap.Sound L)
    (hr : Task.Ready s L site m (.execute (.var name init))) :
    Task.Kept s L (n + 1) site m (.execute (.var name init)) := by
  have bind : ∀ {v : Value} {m₁ : Machine}, Good L m m₁ → m₁.heap.Has L v →
      Ends (do Exec.define name.lexeme v; pure Completion.completed) m₁
        (fun c m' => Good L m m' ∧ c.Ok L m'.heap ∧ (c = .completed →
          Fits L m'.heap true m'.frame { site with scopes := site.scopes.declare name true }))
        (Stops s L (n + 1) (.execute (.var name init)) m) := by
    intro v m₁ g hval
    refine ends_bind (ends_of_ok rfl fun _ => ends_pure ⟨g.trans ?_, trivial, fun _ => ?_⟩)
    · exact .heap (grows_define _ _ v hr.2.1) (g.sound.define _ hr.2.1 hval)
    · exact (g.fits hr.1).declare hr.2.1
  simp only [Task.Kept, Eval.execute]
  cases init with
  | none => exact bind (v := .nil) (.refl hs) trivial
  | some e =>
    exact ends_bind ((ih.callEvaluate w hv hs hr (.refl hs) .init).mono
      (fun v m₁ _ h1 _ => bind h1.1 h1.2.2) fun _ _ hi => hi)

omit w ih in
theorem kept_function {decl : FunDecl Stmt} {site : Site} (hs : m.heap.Sound L)
    (hr : Task.Ready s L site m (.execute (.function decl))) :
    Task.Kept s L (n + 1) site m (.execute (.function decl)) := by
  obtain ⟨hf, hn, hsc⟩ := hr
  let h₁ := (m.heap.newFunction ⟨decl, m.frame, false⟩).2
  let h₂ := h₁.define m.frame decl.name.lexeme (.function m.heap.functions.size)
  have gr1 : m.heap.Grows h₁ := grows_newFunction _ _
  have gr2 : h₁.Grows h₂ := grows_define _ _ _ hn
  have hfits : Fits L h₂ true m.frame
      { site with scopes := site.scopes.declare decl.name true } := (hf.grows gr1).declare hn
  -- the body finds the function's own name only after it has been bound
  have hruns : h₂.Runs L ⟨decl, m.frame, false⟩ := ⟨true, _, hfits, hsc, fun h => by cases h⟩
  have hs2 : h₂.Sound L := hs.declareFunction m.frame hn hruns
  have g : Good L m { m with heap := h₂ } := .heap (gr1.trans gr2) hs2
  simp only [Task.Kept]
  exact ends_of_ok (a := Completion.completed) (t := { m with heap := h₂ }) rfl
    ⟨g, trivial, fun _ => hfits⟩

theorem kept_loop {test : Expr} {body : Stmt} {site : Site}
    (hv : V (n + 1) (.execute (.loop test body)) m) (hs : m.heap.Sound L)
    (hr : Task.Ready s L site m (.execute (.loop test body))) :
    Task.Kept s L (n + 1) site m (.execute (.loop test body)) := by
  simp only [Task.Kept, Eval.execute]
  refine ends_bind ((ih.callEvaluate w hv hs hr (.refl hs) .loopTest).mono
    (fun v m₁ hval h1 _ => ?_) fun _ _ hi => hi)
  by_cases ht : v.truthy = true
  · simp only [ht, if_true]
    obtain ⟨site₁, hk₁⟩ := ih.call w hv hs hr (.loopBody hval ht)
    refine ends_bind ((Ends.called hk₁ (.loopBody hval ht) h1.1).mono
      (fun c m₂ hb h2 _ => ?_) fun _ _ hi => hi)
    cases c with
    | returned v => exact ends_pure ⟨h2.1, h2.2.2.1, fun h => by cases h⟩
    | completed =>
      obtain ⟨site₂, hk₂⟩ := ih.call w hv hs hr (.loopAgain hval ht hb)
      exact (Ends.called hk₂ (.loopAgain hval ht hb) h2.1).mono
        (fun c m₃ _ h3 => ⟨h3.1, h3.2.2.1, fun _ => h3.1.fits hr.1⟩) fun _ _ hi => hi
  · simp only [ht]
    exact ends_pure ⟨h1.1, trivial, fun _ => h1.1.fits hr.1⟩

/-- A branch of a statement that declares nothing itself. -/
theorem AllKept.branch {stmt branch : Stmt} {site : Site} (hd : stmt.isDeclaration = false)
    (hv : V (n + 1) (.execute stmt) m) (hs : m.heap.Sound L)
    (hr : Task.Ready s L site m (.execute stmt)) (hf : Fits L m.heap true m.frame site)
    (g : Good L m m₁) (hc : Calls s n (.execute stmt) m (.execute branch) m₁) :
    Ends (Eval.execute s n branch) m₁
      (fun c m' => Good L m m' ∧ c.Ok L m'.heap ∧ (c = .completed →
        Fits L m'.heap true m'.frame { site with scopes := stmt.declare site.scopes }))
      (Stops s L (n + 1) (.execute stmt) m) := by
  obtain ⟨site', hk⟩ := ih.call w hv hs hr hc
  exact (Ends.called hk hc g).mono
    (fun c m' _ h1 => ⟨h1.1, h1.2.2.1, fun _ => (h1.1.fits hf).after hd⟩) fun _ _ hi => hi

theorem kept_execute {stmt : Stmt} {site : Site} (hv : V (n + 1) (.execute stmt) m)
    (hs : m.heap.Sound L) (hr : Task.Ready s L site m (.execute stmt)) :
    Task.Kept s L (n + 1) site m (.execute stmt) := by
  cases stmt with
  | expression e =>
    simp only [Task.Kept, Eval.execute]
    exact ends_bind ((ih.callEvaluate w hv hs hr (.refl hs) .expression).mono
      (fun v m₁ _ h1 _ => ends_pure ⟨h1.1, trivial, fun _ => h1.1.fits hr.1⟩) fun _ _ hi => hi)
  | print e =>
    simp only [Task.Kept, Eval.execute]
    refine ends_bind ((ih.callEvaluate w hv hs hr (.refl hs) .print).mono
      (fun v m₁ _ h1 _ => ?_) fun _ _ hi => hi)
    have g : Good L m { m₁ with printed := m₁.printed ++ m₁.heap.text v ++ "\n" } :=
      ⟨h1.1.sound, h1.1.grows, h1.1.frame⟩
    exact ends_bind (ends_of_ok rfl fun _ => ends_pure ⟨g, trivial, fun _ => g.fits hr.1⟩)
  | var name init => exact kept_var w ih hv hs hr
  | block body =>
    obtain ⟨site', hk⟩ := ih.call w hv hs hr .block
    have gr : m.heap.Grows m.inBlock.heap := grows_newFrame m.heap _
    simp only [Task.Kept, Eval.execute]
    refine ends_bind (ends_of_ok rfl fun _ => ?_)
    refine ends_bind (ends_of_ok (t := { m.inBlock with frame := m.frame }) rfl fun _ => ?_)
    refine ends_inFrame (Ends.mono (x := Eval.executeAll s n body) hk
      (fun c m₂ _ h2 => ?_) (fun i m₂ h2 => ?_))
    · have g : Good L m { m₂ with frame := m.frame } := ⟨h2.1.sound, gr.trans h2.1.grows, rfl⟩
      exact ⟨g, h2.2, fun _ => g.fits hr.1⟩
    · exact ⟨⟨h2.1.sound, gr.trans h2.1.grows, rfl⟩, fun b hb => (h2.2 b hb).call .block⟩
  | ifThen test yes =>
    simp only [Task.Kept, Eval.execute]
    refine ends_bind ((ih.callEvaluate w hv hs hr (.refl hs) .thenTest).mono
      (fun v m₁ hval h1 _ => ?_) fun _ _ hi => hi)
    by_cases ht : v.truthy = true
    · simp only [ht, if_true]
      exact ih.branch w rfl hv hs hr hr.1 h1.1 (.thenYes hval ht)
    · simp only [ht]
      exact ends_pure ⟨h1.1, trivial, fun _ => h1.1.fits hr.1⟩
  | ifElse test yes no =>
    simp only [Task.Kept, Eval.execute]
    refine ends_bind ((ih.callEvaluate w hv hs hr (.refl hs) .elseTest).mono
      (fun v m₁ hval h1 _ => ?_) fun _ _ hi => hi)
    cases ht : v.truthy with
    | true => exact ih.branch w rfl hv hs hr hr.1 h1.1 (.elseYes hval ht)
    | false => exact ih.branch w rfl hv hs hr hr.1 h1.1 (.elseNo hval ht)
  | loop test body => exact kept_loop w ih hv hs hr
  | function decl => exact kept_function hs hr
  | ret keyword value =>
    simp only [Task.Kept, Eval.execute]
    cases value with
    | none => exact ends_pure ⟨.refl hs, trivial, fun h => by cases h⟩
    | some e =>
      exact ends_bind ((ih.callEvaluate w hv hs hr (.refl hs) .returned).mono
        (fun v m₁ _ h1 _ => ends_pure ⟨h1.1, h1.2.2, fun h => by cases h⟩) fun _ _ hi => hi)
  | classDecl name superclass methods =>
    have hmade : ∀ m' C, declareClass s name superclass methods m = .ok () m' →
        m'.heap.classes[m.heap.classes.size]? = some C → L.made m.heap.classes.size
          m.heap.frames.size C (.classDecl name superclass methods) :=
      fun _ _ hd hC => w.made hv (bind_ok hd) hC
    have hraw : ∀ m' f, declareClass s name superclass methods m = .ok () m' →
        m.heap.functions.size ≤ f → f < m'.heap.functions.size → L.raw f :=
      fun _ _ hd hle hlt => w.raw hv (bind_ok hd) hle hlt
    simp only [Task.Kept, Eval.execute]
    refine ends_bind ((ends_declareClass w.static hs hr.1 hr.2 hmade hraw).mono
      (fun u m₁ _ h1 _ => ?_) fun _ _ hi => .of_faulted (.refl hs) hi)
    exact ends_pure ⟨h1.1, trivial, fun _ => h1.2⟩

theorem kept_executeAll {stmts : List Stmt} {site : Site} (hv : V (n + 1) (.executeAll stmts) m)
    (hs : m.heap.Sound L) (hr : Task.Ready s L site m (.executeAll stmts)) :
    Task.Kept s L (n + 1) site m (.executeAll stmts) := by
  cases stmts with
  | nil =>
    simp only [Task.Kept, Eval.executeAll]
    exact ends_pure ⟨.refl hs, trivial⟩
  | cons stmt stmts =>
    obtain ⟨site₁, hk₁⟩ := ih.call w hv hs hr .first
    simp only [Task.Kept, Eval.executeAll]
    refine ends_bind ((Ends.called hk₁ .first (.refl hs)).mono
      (fun c m₁ hc h1 _ => ?_) fun _ _ hi => hi)
    cases c with
    | returned v => exact ends_pure ⟨h1.1, h1.2.2.1⟩
    | completed =>
      obtain ⟨site₂, hk₂⟩ := ih.call w hv hs hr (.rest hc)
      exact (Ends.called hk₂ (.rest hc) h1.1).mono (fun c m₂ _ h2 => ⟨h2.1, h2.2.2⟩)
        fun _ _ hi => hi

end

/-- A ready task keeps the invariant, whatever its fuel. -/
theorem Task.kept {V : Nat → Task → Machine → Prop} (w : Watched s L V) :
    ∀ n, AllKept s L V n
  | 0, task, site, m, _, hs, _ => by
    have hfuel : Stops s L 0 task m .outOfFuel m := ⟨.refl hs, fun b hb => by cases hb⟩
    cases task <;> exact hfuel
  | n + 1, task, site, m, hv, hs, hr => by
    have ih : AllKept s L V n := Task.kept w n
    cases task with
    | evaluate e => exact kept_evaluate w ih hv hs hr
    | evaluateAll es => exact kept_evaluateAll w ih hv hs hr
    | apply callee args => exact kept_apply w ih hv hs hr
    | runFunction f args => exact kept_runFunction w ih hv hs hr
    | execute stmt => exact kept_execute w ih hv hs hr
    | executeAll stmts => exact kept_executeAll w ih hv hs hr

end

end Lox

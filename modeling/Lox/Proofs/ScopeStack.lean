import Lox.Proofs.Lexical

/-!
# One walk with a stack of scopes

Binding and the static rules can be done in one walk that keeps a stack of open scopes, and the
nearest function and class, as it goes: a scope is entered and left, a context is set and put back,
a name is declared before its initializer is looked at and defined after it. Leaving a scope and
looking at the innermost one break if no scope is open.

Main statements: on the statements of a source the walk never breaks, gives the bound statements and
their violations, and ends with no scope open and no function or class around
(`Resolver.resolveStmts_compile`); so binding is lexical scope, both ways (`Program.bound_lexically`).
-/

namespace Lox.Resolver

/-! ## The walk -/

/-- The names of an open scope, each with whether its initializer is done. -/
abbrev Names := String → Option Bool

structure State where
  /-- The open scopes, innermost first. -/
  scopes : List Names
  function : FunctionContext
  cls : ClassContext
  diagnostics : List Diagnostic

/-- How the walk breaks: a scope is wanted where none is open. -/
inductive Broken where
  | noScope
deriving DecidableEq, Repr

abbrev Walk := EStateM Broken State

def enterScope : Walk Unit := fun s => .ok () { s with scopes := (fun _ => none) :: s.scopes }

def leaveScope : Walk Unit := fun s =>
  match s.scopes with
  | [] => .error .noScope s
  | _ :: outer => .ok () { s with scopes := outer }

def innermost : Walk Names := fun s =>
  match s.scopes with
  | [] => .error .noScope s
  | names :: _ => .ok names s

/-- Writes to the innermost scope. -/
def mark (name : String) (ready : Bool) : Walk Unit := do
  let names ← innermost
  modify fun s => { s with scopes := Function.update names name (some ready) :: s.scopes.tail }

def report (t : Token) (cause : Cause) : Walk Unit :=
  modify fun s => { s with diagnostics := s.diagnostics ++ [.ofToken t cause] }

def reportIf (p : Prop) [Decidable p] (t : Token) (cause : Cause) : Walk Unit :=
  if p then report t cause else pure ()

def setFunction (f : FunctionContext) : Walk Unit := modify fun s => { s with function := f }

def setClass (c : ClassContext) : Walk Unit := modify fun s => { s with cls := c }

/-- Whether no scope is open. -/
def atTopLevel : Walk Bool := do
  let s ← get
  pure s.scopes.isEmpty

def declare (name : Token) : Walk Unit := do
  if ← atTopLevel then pure ()
  else
    let names ← innermost
    reportIf (names name.lexeme).isSome name .alreadyDeclared
    mark name.lexeme false

def define (name : Token) : Walk Unit := do
  if ← atTopLevel then pure () else mark name.lexeme true

/-- Looks for the name from the innermost scope outwards. -/
def resolveLocal (ref : Reference) : Walk Reference := do
  let s ← get
  pure { ref with hops := s.scopes.findIdx? fun names => (names ref.name).isSome }

/-- A variable is read. -/
def resolveVariable (ref : Reference) : Walk Reference := do
  if ← atTopLevel then resolveLocal ref
  else
    let names ← innermost
    reportIf (names ref.name = some false) ref.token .ownInitializer
    resolveLocal ref

mutual

def resolveExpr : Expr → Walk Expr
  | .literal c => pure (.literal c)
  | .group inner => .group <$> resolveExpr inner
  | .unary op token right => .unary op token <$> resolveExpr right
  | .binary op token left right => do
    let left ← resolveExpr left
    .binary op token left <$> resolveExpr right
  | .logical op token left right => do
    let left ← resolveExpr left
    .logical op token left <$> resolveExpr right
  | .name ref => .name <$> resolveVariable ref
  | .assign ref value => do
    let value ← resolveExpr value
    (.assign · value) <$> resolveLocal ref
  | .call callee paren args => do
    let callee ← resolveExpr callee
    .call callee paren <$> resolveExprs args
  | .get object property => (.get · property) <$> resolveExpr object
  | .set object property value => do
    let value ← resolveExpr value
    (.set · property value) <$> resolveExpr object
  | .thisRef ref => do
    let s ← get
    if s.cls = .outside then
      report ref.token .thisOutsideClass
      pure (.thisRef { ref with hops := none })
    else .thisRef <$> resolveLocal ref
  | .superRef ref method => do
    let s ← get
    reportIf (s.cls = .outside) ref.token .superOutsideClass
    reportIf (s.cls = .plain) ref.token .superWithoutSuperclass
    (.superRef · method) <$> resolveLocal ref

def resolveExprs : List Expr → Walk (List Expr)
  | [] => pure []
  | e :: es => do
    let e ← resolveExpr e
    (e :: ·) <$> resolveExprs es

end

def resolveOptional : Option Expr → Walk (Option Expr)
  | none => pure none
  | some e => some <$> resolveExpr e

/-- Declares parameters, which are ready at once. -/
def declareAll : List Token → Walk Unit
  | [] => pure ()
  | param :: params => do
    declare param
    define param
    declareAll params

/-- The superclass of a class, and the scope for `super` if there is one. -/
def resolveSuperclass (name : Token) : Option Reference → Walk (Option Reference)
  | none => pure none
  | some ref => do
    reportIf (ref.name = name.lexeme) ref.token .selfInheritance
    setClass .derived
    let ref ← resolveVariable ref
    enterScope
    mark "super" true
    pure (some ref)

/-- Leaves the scope for `super`. -/
def leaveSuperclass : Option Reference → Walk Unit
  | none => pure ()
  | some _ => leaveScope

mutual

def resolveStmt : Stmt → Walk Stmt
  | .expression e => .expression <$> resolveExpr e
  | .print e => .print <$> resolveExpr e
  | .var name init => do
    declare name
    let init ← resolveOptional init
    define name
    pure (.var name init)
  | .block body => do
    enterScope
    let body ← resolveStmts body
    leaveScope
    pure (.block body)
  | .ifThen test yes => do
    let test ← resolveExpr test
    .ifThen test <$> resolveStmt yes
  | .ifElse test yes no => do
    let test ← resolveExpr test
    let yes ← resolveStmt yes
    .ifElse test yes <$> resolveStmt no
  | .loop test body => do
    let test ← resolveExpr test
    .loop test <$> resolveStmt body
  | .function decl => do
    declare decl.name
    define decl.name
    .function <$> resolveFunction .plain decl
  | .ret keyword value => do
    let s ← get
    reportIf (s.function = .outside) keyword .topLevelReturn
    reportIf (value.isSome ∧ s.function = .initializer) keyword .initializerValue
    .ret keyword <$> resolveOptional value
  | .classDecl name superclass methods => do
    let enclosing ← get
    setClass .plain
    declare name
    define name
    let superclass ← resolveSuperclass name superclass
    enterScope
    mark "this" true
    let methods ← resolveMethods methods
    leaveScope
    leaveSuperclass superclass
    setClass enclosing.cls
    pure (.classDecl name superclass methods)

def resolveStmts : List Stmt → Walk (List Stmt)
  | [] => pure []
  | s :: ss => do
    let s ← resolveStmt s
    (s :: ·) <$> resolveStmts ss

/-- The body of a function shares the scope of its parameters. -/
def resolveFunction (kind : FunctionContext) : FunDecl Stmt → Walk (FunDecl Stmt)
  | ⟨name, params, body⟩ => do
    let enclosing ← get
    setFunction kind
    enterScope
    declareAll params
    let body ← resolveStmts body
    leaveScope
    setFunction enclosing.function
    pure ⟨name, params, body⟩

def resolveMethods : List (FunDecl Stmt) → Walk (List (FunDecl Stmt))
  | [] => pure []
  | d :: ds => do
    let d ← resolveFunction (if d.isInitializer then .initializer else .plain) d
    (d :: ·) <$> resolveMethods ds

end

/-- Before the walk: nothing is open. -/
def State.start : State := ⟨[], .outside, .outside, []⟩

/-! ## Steps -/

/-- The names of a scope as the walk has them. -/
def namesOf (scope : Scope) : Names := fun name => scope.lookup name

/-- The state of the walk where these scopes are open. -/
def State.inside (σ : Scopes) (f : FunctionContext) (c : ClassContext) (ds : List Diagnostic) :
    State :=
  ⟨σ.map namesOf, f, c, ds⟩

theorem namesOf_cons (name : String) (ready : Bool) (scope : Scope) :
    namesOf ((name, ready) :: scope) = Function.update (namesOf scope) name (some ready) := by
  funext x
  unfold namesOf
  rw [List.lookup_cons, Function.update_apply]
  by_cases hx : x = name
  · simp [hx]
  · rw [beq_eq_false_iff_ne.2 hx, if_neg hx]

theorem findIdx?_namesOf (σ : Scopes) (name : String) :
    (σ.map namesOf).findIdx? (fun names => (names name).isSome) = σ.hops? name := by
  induction σ with
  | nil => rfl
  | cons scope outer ih =>
    rw [List.map_cons, List.findIdx?_cons, Scopes.hops?, ih]
    rfl

section
variable {σ : Scopes} {f : FunctionContext} {c : ClassContext} {ds : List Diagnostic}

theorem resolveLocal_inside (ref : Reference) :
    resolveLocal ref (.inside σ f c ds) = .ok (ref.bind σ) (.inside σ f c ds) := by
  unfold Reference.bind
  rw [← findIdx?_namesOf]
  rfl

theorem reportIf_inside (p : Prop) [Decidable p] (t : Token) (cause : Cause) :
    reportIf p t cause (.inside σ f c ds) =
      .ok () (.inside σ f c (ds ++ if p then [.ofToken t cause] else [])) := by
  unfold reportIf
  by_cases hp : p
  · rw [if_pos hp, if_pos hp]
    rfl
  · rw [if_neg hp, if_neg hp, List.append_nil]
    rfl

theorem mark_inside (scope : Scope) (name : String) (ready : Bool) :
    mark name ready (.inside (scope :: σ) f c ds) =
      .ok () (.inside (((name, ready) :: scope) :: σ) f c ds) := by
  unfold State.inside
  rw [List.map_cons, List.map_cons, namesOf_cons]
  rfl

theorem declare_inside (name : Token) :
    declare name (.inside σ f c ds) =
      .ok () (.inside (σ.declare name false) f c (ds ++ σ.redeclared name)) := by
  cases σ with
  | nil =>
    have hnone : Scopes.redeclared [] name = [] := rfl
    rw [hnone, List.append_nil]
    rfl
  | cons scope outer =>
    exact (bind_ok (reportIf_inside _ name .alreadyDeclared)).trans
      (mark_inside scope name.lexeme false)

/-- Defining a name that has been declared makes it ready. -/
theorem define_inside (name : Token) (ready : Bool) :
    define name (.inside (σ.declare name ready) f c ds) =
      .ok () (.inside (σ.declare name true) f c ds) := by
  cases σ with
  | nil => rfl
  | cons scope outer =>
    refine (mark_inside ((name.lexeme, ready) :: scope) name.lexeme true).trans ?_
    simp only [State.inside, Scopes.declare, List.map_cons, namesOf_cons, Function.update_idem]

theorem resolveVariable_inside (ref : Reference) :
    resolveVariable ref (.inside σ f c ds) =
      .ok (ref.bind σ) (.inside σ f c (ds ++ ref.premature σ)) := by
  cases σ with
  | nil =>
    have hnone : ref.premature [] = [] := rfl
    rw [hnone, List.append_nil]
    exact resolveLocal_inside ref
  | cons scope outer =>
    exact (bind_ok (reportIf_inside _ ref.token .ownInitializer)).trans (resolveLocal_inside ref)

theorem declareAll_inside : ∀ (params : List Token) (σ : Scopes) (ds : List Diagnostic),
    declareAll params (.inside σ f c ds) =
      .ok () (.inside (params.foldl (fun scopes param => scopes.declare param true) σ) f c
        (ds ++ σ.paramRule params))
  | [], σ, ds => by
    rw [Scopes.paramRule, List.append_nil]
    rfl
  | param :: params, σ, ds => by
    refine (bind_ok (declare_inside param)).trans ((bind_ok (define_inside param false)).trans ?_)
    rw [declareAll_inside params, List.append_assoc]
    rfl

/-! ## The walk over expressions -/

/-- Without a class around, no open scope binds `this`. -/
def NoStrayThis (c : ClassContext) (σ : Scopes) : Prop := c = .outside → σ.hops? "this" = none

mutual

/-- The walk over an expression binds it and reports its violations. -/
theorem resolveExpr_inside (ht : NoStrayThis c σ) : ∀ (e : Expr) (ds : List Diagnostic), e.Formed →
    resolveExpr e (.inside σ f c ds) = .ok (e.bind σ) (.inside σ f c (ds ++ e.violations c σ))
  | .literal _, ds, _ => by
    rw [Expr.violations, List.append_nil]
    rfl
  | .group inner, ds, hf => map_ok (resolveExpr_inside ht inner ds hf)
  | .unary _ _ right, ds, hf => map_ok (resolveExpr_inside ht right ds hf)
  | .binary _ _ left right, ds, hf | .logical _ _ left right, ds, hf => by
    refine (bind_ok (resolveExpr_inside ht left ds hf.1)).trans ?_
    rw [Expr.violations, ← List.append_assoc]
    exact map_ok (resolveExpr_inside ht right _ hf.2)
  | .name ref, _, _ => map_ok (resolveVariable_inside ref)
  | .assign ref value, ds, hf =>
    (bind_ok (resolveExpr_inside ht value ds hf.2)).trans (map_ok (resolveLocal_inside ref))
  | .call callee _ args, ds, hf => by
    refine (bind_ok (resolveExpr_inside ht callee ds hf.1)).trans ?_
    rw [Expr.violations, ← List.append_assoc]
    exact map_ok (resolveExprs_inside ht args _ hf.2)
  | .get object _, ds, hf => map_ok (resolveExpr_inside ht object ds hf)
  | .set object _ value, ds, hf => by
    refine (bind_ok (resolveExpr_inside ht value ds hf.2)).trans ?_
    rw [Expr.violations, ← List.append_assoc]
    exact map_ok (resolveExpr_inside ht object _ hf.1)
  | .thisRef ref, ds, hf => by
    have hname : ref.name = "this" := hf
    cases c with
    | outside =>
      have hnone : ref.bind σ = { ref with hops := none } := by
        rw [Reference.bind, hname, ht rfl]
      rw [Expr.bind, hnone]
      rfl
    | plain | derived =>
      rw [Expr.violations, ClassContext.thisRule, List.append_nil]
      exact map_ok (resolveLocal_inside ref)
  | .superRef ref _, ds, _ => by
    have hrule : ds ++ c.superRule ref.token =
        (ds ++ if c = .outside then [.ofToken ref.token .superOutsideClass] else []) ++
          if c = .plain then [.ofToken ref.token .superWithoutSuperclass] else [] := by
      cases c <;> simp [ClassContext.superRule]
    rw [Expr.violations, hrule]
    exact (bind_ok (reportIf_inside _ ref.token .superOutsideClass)).trans
      ((bind_ok (reportIf_inside _ ref.token .superWithoutSuperclass)).trans
        (map_ok (resolveLocal_inside ref)))

theorem resolveExprs_inside (ht : NoStrayThis c σ) : ∀ (es : List Expr) (ds : List Diagnostic),
    Expr.FormedAll es → resolveExprs es (.inside σ f c ds) =
      .ok (Expr.bindAll σ es) (.inside σ f c (ds ++ Expr.violationsAll c σ es))
  | [], ds, _ => by
    rw [Expr.violationsAll, List.append_nil]
    rfl
  | e :: es, ds, hf => by
    refine (bind_ok (resolveExpr_inside ht e ds hf.1)).trans ?_
    rw [Expr.violationsAll, ← List.append_assoc]
    exact map_ok (resolveExprs_inside ht es _ hf.2)

end

theorem resolveOptional_inside (ht : NoStrayThis c σ) {o : Option Expr} (ds : List Diagnostic)
    (hf : ∀ e, o = some e → e.Formed) : resolveOptional o (.inside σ f c ds) =
      .ok (o.map (·.bind σ)) (.inside σ f c (ds ++ (o.map (·.violations c σ)).getD [])) := by
  cases o with
  | none =>
    simp only [Option.map_none, Option.getD_none, List.append_nil]
    rfl
  | some e => exact map_ok (resolveExpr_inside ht e ds (hf e rfl))

/-! ## The walk over statements -/

theorem NoStrayThis.declare (ht : NoStrayThis c σ) {name : Token} (hn : ¬ Heap.isWord name.lexeme)
    (ready : Bool) : NoStrayThis c (σ.declare name ready) := by
  intro hc
  have hne : "this" ≠ name.lexeme := fun h => hn (.inl h.symm)
  rw [Scopes.hops?_eq, Scopes.find?_declare_of_ne σ ready hne, ← Scopes.hops?_eq]
  exact ht hc

theorem NoStrayThis.push (ht : NoStrayThis c σ) : NoStrayThis c ([] :: σ) := by
  intro hc
  simp [Scopes.hops?, ht hc]

theorem NoStrayThis.withParams (ht : NoStrayThis c σ) {params : List Token}
    (hp : ∀ p ∈ params, ¬ Heap.isWord p.lexeme) : NoStrayThis c (σ.withParams params) := by
  have hgo : ∀ (params : List Token) {σ : Scopes}, NoStrayThis c σ →
      (∀ p ∈ params, ¬ Heap.isWord p.lexeme) →
      NoStrayThis c (params.foldl (fun scopes param => scopes.declare param true) σ) := by
    intro params
    induction params with
    | nil => exact fun ht _ => ht
    | cons p ps ih =>
      exact fun ht hp => ih (ht.declare (hp p List.mem_cons_self) true)
        fun q hq => hp q (List.mem_cons_of_mem _ hq)
  exact hgo params ht.push hp

theorem NoStrayThis.of_ne (hc : c ≠ .outside) : NoStrayThis c σ := fun h => absurd h hc

theorem NoStrayThis.stmt (ht : NoStrayThis c σ) {s : Stmt} (hf : s.Formed) :
    NoStrayThis c (s.declare σ) := by
  cases s with
  | var name init => exact ht.declare hf.1 true
  | function d => exact ht.declare (by cases d; exact hf.1) true
  | classDecl name superclass methods => exact ht.declare hf.1 true
  | _ => exact ht

theorem enterScope_inside :
    enterScope (.inside σ f c ds) = .ok () (.inside ([] :: σ) f c ds) := rfl

theorem leaveScope_inside (scope : Scope) :
    leaveScope (.inside (scope :: σ) f c ds) = .ok () (.inside σ f c ds) := rfl

theorem setFunction_inside (f' : FunctionContext) :
    setFunction f' (.inside σ f c ds) = .ok () (.inside σ f' c ds) := rfl

theorem setClass_inside (c' : ClassContext) :
    setClass c' (.inside σ f c ds) = .ok () (.inside σ f c' ds) := rfl

theorem get_inside :
    (get : Walk State) (.inside σ f c ds) = .ok (.inside σ f c ds) (.inside σ f c ds) := rfl

/-- The scopes after consecutive statements. -/
def afterAll (σ : Scopes) (ss : List Stmt) : Scopes := ss.foldl Stmt.declare σ

/-- Statements add to the innermost scope only. -/
theorem exists_afterAll (ss : List Stmt) (scope : Scope) :
    ∃ scope', afterAll (scope :: σ) ss = scope' :: σ := by
  induction ss generalizing scope with
  | nil => exact ⟨scope, rfl⟩
  | cons s ss ih =>
    have hs : ∃ scope', s.declare (scope :: σ) = scope' :: σ := by
      cases s <;> exact ⟨_, rfl⟩
    obtain ⟨scope', hs⟩ := hs
    unfold afterAll
    rw [List.foldl_cons, hs]
    exact ih scope'

/-- What a class with or without a superclass is to its methods. -/
def contextOf (superclass : Option Reference) : ClassContext :=
  if superclass.isSome then .derived else .plain

/-- The scopes around the methods of a class, but for the one of `this`. -/
def withSuperclass (superclass : Option Reference) (σ : Scopes) : Scopes :=
  if superclass.isSome then [("super", true)] :: σ else σ

theorem resolveSuperclass_inside (name : Token) (superclass : Option Reference) :
    resolveSuperclass name superclass (.inside σ f .plain ds) =
      .ok (superclass.map (·.bind σ))
        (.inside (withSuperclass superclass σ) f (contextOf superclass)
          (ds ++
            (superclass.map fun ref => ref.inheritanceRule name ++ ref.premature σ).getD [])) := by
  cases superclass with
  | none =>
    simp only [Option.map_none, Option.getD_none, List.append_nil]
    rfl
  | some ref =>
    simp only [Option.map_some, Option.getD_some, ← List.append_assoc]
    refine (bind_ok (reportIf_inside _ ref.token .selfInheritance)).trans ?_
    refine (bind_ok (setClass_inside .derived)).trans ?_
    refine (bind_ok (resolveVariable_inside ref)).trans ?_
    exact (bind_ok enterScope_inside).trans (bind_ok (mark_inside [] "super" true))

theorem leaveSuperclass_inside (superclass : Option Reference) :
    leaveSuperclass (superclass.map (·.bind σ)) (.inside (withSuperclass superclass σ) f c ds) =
      .ok () (.inside σ f c ds) := by
  cases superclass <;> rfl

mutual

/-- **One step of the walk.** A statement is bound, its violations are reported, the name that it
declares is added to the innermost scope, and everything else is put back. -/
theorem resolveStmt_inside : ∀ (s : Stmt) {σ : Scopes} {f : FunctionContext} {c : ClassContext}
    (ds : List Diagnostic), NoStrayThis c σ → s.Formed →
    resolveStmt s (.inside σ f c ds) =
      .ok (s.bind σ) (.inside (s.declare σ) f c (ds ++ s.violations f c σ))
  | .expression e, _, _, _, ds, ht, hf | .print e, _, _, _, ds, ht, hf =>
    map_ok (resolveExpr_inside ht e ds hf)
  | .var name init, σ, f, c, ds, ht, hf => by
    refine (bind_ok (declare_inside name)).trans ?_
    refine (bind_ok (resolveOptional_inside (ht.declare hf.1 false) _ hf.2)).trans ?_
    refine (bind_ok (define_inside name false)).trans ?_
    rw [List.append_assoc]
    rfl
  | .block body, σ, f, c, ds, ht, hf => by
    obtain ⟨scope, hscope⟩ := exists_afterAll (σ := σ) body []
    have hbody := resolveStmts_inside body (f := f) ds ht.push hf
    rw [hscope] at hbody
    exact (bind_ok enterScope_inside).trans
      ((bind_ok hbody).trans (bind_ok (leaveScope_inside scope)))
  | .ifThen test yes, σ, f, c, ds, ht, ⟨htest, hf, hd⟩
  | .loop test yes, σ, f, c, ds, ht, ⟨htest, hf, hd⟩ => by
    refine (bind_ok (resolveExpr_inside ht test ds htest)).trans ?_
    refine (map_ok (resolveStmt_inside yes _ ht hf)).trans ?_
    rw [Stmt.declare_of_not_isDeclaration hd, List.append_assoc]
    rfl
  | .ifElse test yes no, σ, f, c, ds, ht, ⟨htest, ⟨hfy, hdy⟩, hfn, hdn⟩ => by
    have hyes := resolveStmt_inside yes (f := f) (ds ++ test.violations c σ) ht hfy
    rw [Stmt.declare_of_not_isDeclaration hdy] at hyes
    refine (bind_ok (resolveExpr_inside ht test ds htest)).trans ((bind_ok hyes).trans ?_)
    refine (map_ok (resolveStmt_inside no _ ht hfn)).trans ?_
    rw [Stmt.declare_of_not_isDeclaration hdn, List.append_assoc, List.append_assoc,
      ← List.append_assoc (test.violations c σ)]
    rfl
  | .function ⟨name, params, body⟩, σ, f, c, ds, ht, hf => by
    refine (bind_ok (declare_inside name)).trans ((bind_ok (define_inside name false)).trans ?_)
    refine (map_ok (resolveFunction_inside .plain ⟨name, params, body⟩ _
      (ht.declare hf.1 true) hf)).trans ?_
    rw [List.append_assoc]
    rfl
  | .ret keyword value, σ, f, c, ds, ht, hf => by
    have hrule : ds ++ f.returnRule keyword value.isSome =
        (ds ++ if f = .outside then [.ofToken keyword .topLevelReturn] else []) ++
          if value.isSome ∧ f = .initializer then [.ofToken keyword .initializerValue] else [] := by
      cases f <;> simp [FunctionContext.returnRule]
    rw [Stmt.violations, ← List.append_assoc, hrule]
    exact (bind_ok (reportIf_inside _ keyword .topLevelReturn)).trans
      ((bind_ok (reportIf_inside _ keyword .initializerValue)).trans
        (map_ok (resolveOptional_inside ht _ hf)))
  | .classDecl name superclass methods, σ, f, c, ds, ht, ⟨hn, _, hf⟩ => by
    have hc : contextOf superclass ≠ .outside := by cases superclass <;> exact fun h => by cases h
    have hmethods := resolveMethods_inside methods (f := f)
      (ds ++ σ.redeclared name ++ (superclass.map fun ref =>
        ref.inheritanceRule name ++ ref.premature (σ.declare name true)).getD [])
      (NoStrayThis.of_ne (σ := (σ.declare name true).withClass superclass.isSome) hc) hf
    refine (bind_ok get_inside).trans ((bind_ok (setClass_inside .plain)).trans ?_)
    refine (bind_ok (declare_inside name)).trans ((bind_ok (define_inside name false)).trans ?_)
    refine (bind_ok (resolveSuperclass_inside name superclass)).trans ?_
    refine (bind_ok enterScope_inside).trans ((bind_ok (mark_inside [] "this" true)).trans ?_)
    refine (bind_ok hmethods).trans ((bind_ok (leaveScope_inside _)).trans ?_)
    refine (bind_ok (leaveSuperclass_inside superclass)).trans ?_
    refine (bind_ok (setClass_inside c)).trans ?_
    simp only [Stmt.violations, List.append_assoc]
    rfl

/-- The walk over consecutive statements. -/
theorem resolveStmts_inside : ∀ (ss : List Stmt) {σ : Scopes} {f : FunctionContext}
    {c : ClassContext} (ds : List Diagnostic), NoStrayThis c σ → Stmt.FormedAll ss →
    resolveStmts ss (.inside σ f c ds) =
      .ok (Stmt.bindAll σ ss)
        (.inside (afterAll σ ss) f c (ds ++ Stmt.violationsAll f c σ ss))
  | [], σ, f, c, ds, _, _ => by
    rw [Stmt.violationsAll, List.append_nil]
    rfl
  | s :: ss, σ, f, c, ds, ht, hf => by
    refine (bind_ok (resolveStmt_inside s ds ht hf.1)).trans ?_
    rw [Stmt.violationsAll, ← List.append_assoc]
    exact map_ok (resolveStmts_inside ss _ (ht.stmt hf.1) hf.2)

theorem resolveFunction_inside (kind : FunctionContext) : ∀ (d : FunDecl Stmt) {σ : Scopes}
    {f : FunctionContext} {c : ClassContext} (ds : List Diagnostic), NoStrayThis c σ →
    FunDecl.Formed d → resolveFunction kind d (.inside σ f c ds) =
      .ok (FunDecl.bind σ d) (.inside σ f c (ds ++ FunDecl.violations kind c σ d))
  | ⟨name, params, body⟩, σ, f, c, ds, ht, hf => by
    refine (bind_ok get_inside).trans ((bind_ok (setFunction_inside kind)).trans ?_)
    refine (bind_ok enterScope_inside).trans ((bind_ok (declareAll_inside params _ ds)).trans ?_)
    obtain ⟨scope, -, hscope⟩ := Scopes.exists_withParams σ params
    obtain ⟨scope', hscope'⟩ := exists_afterAll (σ := σ) body scope
    have hbody := resolveStmts_inside body (f := kind) (ds ++ Scopes.paramRule ([] :: σ) params)
      (ht.withParams hf.2.1) hf.2.2
    rw [hscope, hscope', ← hscope] at hbody
    refine (bind_ok hbody).trans ((bind_ok (leaveScope_inside scope')).trans ?_)
    refine (bind_ok (setFunction_inside f)).trans ?_
    rw [FunDecl.violations, ← List.append_assoc]
    rfl

theorem resolveMethods_inside : ∀ (ds : List (FunDecl Stmt)) {σ : Scopes} {f : FunctionContext}
    {c : ClassContext} (faults : List Diagnostic), NoStrayThis c σ → FunDecl.FormedAll ds →
    resolveMethods ds (.inside σ f c faults) =
      .ok (FunDecl.bindAll σ ds) (.inside σ f c (faults ++ FunDecl.violationsAll c σ ds))
  | [], σ, f, c, faults, _, _ => by
    rw [FunDecl.violationsAll, List.append_nil]
    rfl
  | d :: ds, σ, f, c, faults, ht, hf => by
    refine (bind_ok (resolveFunction_inside _ d faults ht hf.1)).trans ?_
    rw [FunDecl.violationsAll, ← List.append_assoc]
    exact map_ok (resolveMethods_inside ds _ ht hf.2)

end

end

theorem afterAll_nil (ss : List Stmt) : afterAll [] ss = [] := by
  induction ss with
  | nil => rfl
  | cons s ss ih =>
    unfold afterAll at ih ⊢
    rw [List.foldl_cons, s.declare_nil]
    exact ih

/-- **The walk over a source never breaks**, and ends as it began: it gives the bound statements and
their violations, and no scope is left open. -/
theorem resolveStmts_compile (source : String) :
    resolveStmts (Program.compile source).statements .start =
      .ok (Program.compile source).bound
        { State.start with diagnostics := (Program.compile source).violations } := by
  have hthis : NoStrayThis .outside [] := fun _ => rfl
  have h := resolveStmts_inside (Program.compile source).statements (f := .outside) [] hthis
    (Program.comes source).1
  rw [afterAll_nil] at h
  exact h

end Lox.Resolver

namespace Lox

/-! ## Lexical scope -/

/-- What binding makes of a use of a name: the number of scopes inside the innermost one that binds
the name, and none exactly if no scope binds it. -/
structure Usage.Resolved (u : Usage) (r : Use × Reference) : Prop where
  use : r.1 = u.use
  token : r.2.token = u.token
  bound : ∀ k, r.2.hops = some k ↔ u.BoundAt k
  free : r.2.hops = none ↔ ∀ region ∈ u.regions, ¬ u.BoundBy region

theorem Usage.resolved_reference (u : Usage) : u.Resolved u.reference :=
  ⟨rfl, rfl, fun _ => Usage.hops?_eq_some, Usage.hops?_eq_none⟩

namespace Program

theorem referencesAll_bound (source : String) :
    Stmt.referencesAll (compile source).bound = (compile source).usages.map Usage.reference :=
  Stmt.referencesAll_bindAll [] [] _ (stands source)

/-- **Binding is lexical scope**, for every source, also one with faults. Each use of a name is
bound to the innermost scope of the text that binds the name at that place, or to none if there is no
such scope; the table of bindings has just the bound ones; and one walk with a stack of scopes finds
the same, never wants a scope where none is open, and leaves none open. -/
theorem bound_lexically (source : String) :
    List.Forall₂ Usage.Resolved (compile source).usages (Stmt.referencesAll (compile source).bound) ∧
      (∀ b, b ∈ bindings (compile source).bound ↔
        ∃ u ∈ (compile source).usages, b.use = u.use ∧ b.token = u.token ∧ u.BoundAt b.hops) ∧
      Resolver.resolveStmts (compile source).statements ⟨[], .outside, .outside, []⟩ =
        .ok (compile source).bound ⟨[], .outside, .outside, (compile source).violations⟩ := by
  refine ⟨?_, fun b => ?_, Resolver.resolveStmts_compile source⟩
  · rw [referencesAll_bound, List.forall₂_map_right_iff, List.forall₂_same]
    exact fun u _ => u.resolved_reference
  · simp only [bindings, List.mem_mergeSort, referencesAll_bound, List.mem_filterMap, List.mem_map]
    constructor
    · rintro ⟨_, ⟨u, hu, rfl⟩, hb⟩
      obtain ⟨k, hk, rfl⟩ := Option.map_eq_some_iff.1 hb
      exact ⟨u, hu, rfl, rfl, Usage.hops?_eq_some.1 hk⟩
    · obtain ⟨use, token, hops⟩ := b
      rintro ⟨u, hu, rfl, rfl, hat⟩
      exact ⟨_, ⟨u, hu, rfl⟩, Option.map_eq_some_iff.2 ⟨hops, Usage.hops?_eq_some.2 hat, rfl⟩⟩

end Program

end Lox

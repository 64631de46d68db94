import Lox.Proofs.Growth
import Lox.Scope.Rules

/-!
# Code in its place

What evaluation relies on in the code it runs, said of bound trees: `Expr.Scoped`, `Stmt.Scoped` and
`FunDecl.Scoped` hold of code at a `Site` (the open scopes and the class statement around it) if
every reference has the distance of the scope that binds it, and that scope has the name ready. The
one exception the static rules leave is an assignment to a variable in its own initializer, which
may be let through by `excused`.

Main statement: the binding pass puts every tree that the grammar can yield (`Stmt.Formed`) and that
breaks no static rule in its place (`Stmt.scopedAll_bindAll`).
-/

namespace Lox

/-! ## Scopes -/

namespace Scopes

/-- How many scopes out a name is bound, and whether it is ready there. -/
def find? : Scopes → String → Option (Nat × Bool)
  | [], _ => none
  | scope :: outer, name =>
    match scope.lookup name with
    | some ready => some (0, ready)
    | none => (find? outer name).map fun (k, ready) => (k + 1, ready)

theorem hops?_eq (scopes : Scopes) (name : String) :
    scopes.hops? name = (scopes.find? name).map (·.1) := by
  induction scopes with
  | nil => rfl
  | cons scope outer ih =>
    unfold hops? find?
    cases scope.lookup name with
    | some ready => rfl
    | none =>
      simp only [Option.isSome_none, Bool.false_eq_true, if_false, ih]
      cases find? outer name <;> rfl

theorem here?_eq_some {scopes : Scopes} {name : String} {ready : Bool} :
    scopes.here? name = some ready ↔ scopes.find? name = some (0, ready) := by
  cases scopes with
  | nil => simp [here?, find?]
  | cons scope outer =>
    simp only [here?, List.head?_cons, Option.bind_some, find?]
    cases scope.lookup name with
    | some ready => simp
    | none => cases find? outer name <;> simp

theorem find?_declare_self {scopes : Scopes} (hs : scopes ≠ []) (name : Token) (ready : Bool) :
    (scopes.declare name ready).find? name.lexeme = some (0, ready) := by
  cases scopes with
  | nil => exact absurd rfl hs
  | cons scope outer => simp [declare, find?]

theorem find?_declare_of_ne (scopes : Scopes) {name : Token} {other : String} (ready : Bool)
    (h : other ≠ name.lexeme) :
    (scopes.declare name ready).find? other = scopes.find? other := by
  cases scopes with
  | nil => rfl
  | cons scope outer =>
    have hb : (other == name.lexeme) = false := by simpa using h
    simp only [declare, find?, List.lookup_cons, hb]

theorem find?_cons_of_some {scope : Scope} (outer : Scopes) {name : String} {ready : Bool}
    (h : scope.lookup name = some ready) : find? (scope :: outer) name = some (0, ready) := by
  simp [find?, h]

theorem find?_cons_of_none {scope : Scope} {outer : Scopes} {name : String} {k : Nat} {ready : Bool}
    (h : scope.lookup name = none) (hf : find? (scope :: outer) name = some (k, ready)) :
    ∃ j, k = j + 1 ∧ outer.find? name = some (j, ready) := by
  simp only [find?, h] at hf
  obtain ⟨⟨j, r⟩, hj, he⟩ := Option.map_eq_some_iff.1 hf
  cases he
  exact ⟨j, rfl, hj⟩

/-- Every bound name is ready. -/
def AllReady (scopes : Scopes) : Prop := ∀ name k, scopes.find? name ≠ some (k, false)

theorem AllReady.declare {scopes : Scopes} (h : scopes.AllReady) (name : Token) :
    (scopes.declare name true).AllReady := by
  intro other k
  by_cases hn : other = name.lexeme
  · cases scopes with
    | nil => simp [Scopes.declare, find?]
    | cons scope outer =>
      rw [hn, find?_declare_self (by simp)]
      simp
  · rw [find?_declare_of_ne _ _ hn]
    exact h other k

theorem AllReady.push {scopes : Scopes} (h : scopes.AllReady) {scope : Scope}
    (hs : ∀ name, scope.lookup name ≠ some false) : AllReady (scope :: scopes) := by
  intro name k
  unfold find?
  cases hl : scope.lookup name with
  | some ready =>
    cases ready with
    | true => simp
    | false => exact absurd hl (hs name)
  | none =>
    cases hf : find? scopes name with
    | none => simp
    | some p =>
      obtain ⟨j, ready⟩ := p
      cases ready with
      | true => simp
      | false => exact absurd hf (h name j)

theorem AllReady.withParams {scopes : Scopes} (h : scopes.AllReady) (params : List Token) :
    (scopes.withParams params).AllReady := by
  have hp : ∀ (params : List Token) {scopes : Scopes}, scopes.AllReady →
      (params.foldl (fun scopes param => scopes.declare param true) scopes).AllReady := by
    intro params
    induction params with
    | nil => exact fun h => h
    | cons param params ih => exact fun h => ih (h.declare param)
  exact hp params (h.push fun name => by simp)

theorem lookup_word (word name : String) : ([(word, true)] : Scope).lookup name ≠ some false := by
  simp only [List.lookup_cons, List.lookup_nil]
  split <;> simp

theorem lookup_word_of_ne {word name : String} (h : name ≠ word) :
    ([(word, true)] : Scope).lookup name = none := by
  have hb : (name == word) = false := by simpa using h
  simp [List.lookup_cons, hb]

theorem AllReady.withClass {scopes : Scopes} (h : scopes.AllReady) (derived : Bool) :
    (scopes.withClass derived).AllReady := by
  unfold Scopes.withClass
  refine AllReady.push ?_ (lookup_word "this")
  split
  · exact h.push (lookup_word "super")
  · exact h

end Scopes

/-! ## Sites -/

namespace Stmt

/-- A declaration binds a name in the scope it stands in. -/
def isDeclaration : Stmt → Bool
  | .var _ _ | .function _ | .classDecl _ _ _ => true
  | _ => false

theorem declare_of_not_isDeclaration {st : Stmt} (h : st.isDeclaration = false) (scopes : Scopes) :
    st.declare scopes = scopes := by
  cases st <;> first | rfl | cases h

/-- The name that a statement declares. -/
def name? : Stmt → Option Token
  | .var name _ => some name
  | .function decl => some decl.name
  | .classDecl name _ _ => some name
  | _ => none

theorem declare_eq {st : Stmt} {scopes : Scopes} :
    st.declare scopes = match st.name? with
      | some n => scopes.declare n true
      | none => scopes := by
  cases st <;> rfl

/-- A class with a superclass. -/
def isDerived : Stmt → Bool
  | .classDecl _ superclass _ => superclass.isSome
  | _ => false

end Stmt

/-- Where code stands: the open scopes, and the nearest class statement around it. -/
structure Site where
  scopes : Scopes
  cls : Option Stmt

/-- What the static rules know of the class around some code. -/
def Site.classContext (cls : Option Stmt) : ClassContext :=
  match cls with
  | none => .outside
  | some K => if K.isDerived then .derived else .plain

/-! ## Parts of a tree -/

mutual

/-- The assignments to a name in an expression. -/
def Expr.assignmentsTo (x : String) : Expr → List Expr
  | .literal _ => []
  | .group inner => inner.assignmentsTo x
  | .unary _ _ right => right.assignmentsTo x
  | .binary _ _ left right => left.assignmentsTo x ++ right.assignmentsTo x
  | .logical _ _ left right => left.assignmentsTo x ++ right.assignmentsTo x
  | .name _ => []
  | .assign ref value =>
    (if ref.name = x then [.assign ref value] else []) ++ value.assignmentsTo x
  | .call callee _ args => callee.assignmentsTo x ++ Expr.assignmentsToAll x args
  | .get object _ => object.assignmentsTo x
  | .set object _ value => object.assignmentsTo x ++ value.assignmentsTo x
  | .thisRef _ => []
  | .superRef _ _ => []

def Expr.assignmentsToAll (x : String) : List Expr → List Expr
  | [] => []
  | e :: es => e.assignmentsTo x ++ Expr.assignmentsToAll x es

end

mutual

/-- The assignments to a local variable that stand in its own initializer. `inner` says whether the
statement stands inside a block or a function. -/
def Stmt.selfAssignments (inner : Bool) : Stmt → List Expr
  | .var name init =>
    if inner then (init.map (·.assignmentsTo name.lexeme)).getD [] else []
  | .block body => Stmt.selfAssignmentsAll true body
  | .ifThen _ yes => yes.selfAssignments inner
  | .ifElse _ yes no => yes.selfAssignments inner ++ no.selfAssignments inner
  | .loop _ body => body.selfAssignments inner
  | .function decl => FunDecl.selfAssignments decl
  | .classDecl _ _ methods => FunDecl.selfAssignmentsAll methods
  | _ => []

def Stmt.selfAssignmentsAll (inner : Bool) : List Stmt → List Expr
  | [] => []
  | s :: ss => s.selfAssignments inner ++ Stmt.selfAssignmentsAll inner ss

def FunDecl.selfAssignments : FunDecl Stmt → List Expr
  | ⟨_, _, body⟩ => Stmt.selfAssignmentsAll true body

def FunDecl.selfAssignmentsAll : List (FunDecl Stmt) → List Expr
  | [] => []
  | d :: ds => FunDecl.selfAssignments d ++ FunDecl.selfAssignmentsAll ds

end

mutual

/-- The `super` expressions in an expression. -/
def Expr.supers : Expr → List Expr
  | .literal _ => []
  | .group inner => inner.supers
  | .unary _ _ right => right.supers
  | .binary _ _ left right => left.supers ++ right.supers
  | .logical _ _ left right => left.supers ++ right.supers
  | .name _ => []
  | .assign _ value => value.supers
  | .call callee _ args => callee.supers ++ Expr.supersAll args
  | .get object _ => object.supers
  | .set object _ value => object.supers ++ value.supers
  | .thisRef _ => []
  | .superRef ref method => [.superRef ref method]

def Expr.supersAll : List Expr → List Expr
  | [] => []
  | e :: es => e.supers ++ Expr.supersAll es

end

mutual

/-- The `super` expressions of a statement that belong to the class around it: those in a class
inside the statement belong to that class. -/
def Stmt.supers : Stmt → List Expr
  | .expression e => e.supers
  | .print e => e.supers
  | .var _ init => (init.map (·.supers)).getD []
  | .block body => Stmt.supersAll body
  | .ifThen test yes => test.supers ++ yes.supers
  | .ifElse test yes no => test.supers ++ yes.supers ++ no.supers
  | .loop test body => test.supers ++ body.supers
  | .function decl => FunDecl.supers decl
  | .ret _ value => (value.map (·.supers)).getD []
  | .classDecl _ _ _ => []

def Stmt.supersAll : List Stmt → List Expr
  | [] => []
  | s :: ss => s.supers ++ Stmt.supersAll ss

def FunDecl.supers : FunDecl Stmt → List Expr
  | ⟨_, _, body⟩ => Stmt.supersAll body

def FunDecl.supersAll : List (FunDecl Stmt) → List Expr
  | [] => []
  | d :: ds => FunDecl.supers d ++ FunDecl.supersAll ds

end

/-- The `super` expressions whose nearest class statement around them is this one. -/
def Stmt.ownSupers : Stmt → List Expr
  | .classDecl _ _ methods => FunDecl.supersAll methods
  | _ => []

/-! ## What the grammar yields -/

mutual

/-- Names are not spelled like `this` or `super`, and those two words are. -/
def Expr.Formed : Expr → Prop
  | .literal _ => True
  | .group inner => inner.Formed
  | .unary _ _ right => right.Formed
  | .binary _ _ left right => left.Formed ∧ right.Formed
  | .logical _ _ left right => left.Formed ∧ right.Formed
  | .name ref => ¬ Heap.isWord ref.name
  | .assign ref value => ¬ Heap.isWord ref.name ∧ value.Formed
  | .call callee _ args => callee.Formed ∧ Expr.FormedAll args
  | .get object _ => object.Formed
  | .set object _ value => object.Formed ∧ value.Formed
  | .thisRef ref => ref.name = "this"
  | .superRef ref _ => ref.name = "super"

def Expr.FormedAll : List Expr → Prop
  | [] => True
  | e :: es => e.Formed ∧ Expr.FormedAll es

end

mutual

/-- The branches of a conditional and the body of a loop are not declarations. -/
def Stmt.Formed : Stmt → Prop
  | .expression e => e.Formed
  | .print e => e.Formed
  | .var name init => ¬ Heap.isWord name.lexeme ∧ ∀ e, init = some e → e.Formed
  | .block body => Stmt.FormedAll body
  | .ifThen test yes => test.Formed ∧ yes.Formed ∧ yes.isDeclaration = false
  | .ifElse test yes no =>
    test.Formed ∧ (yes.Formed ∧ yes.isDeclaration = false) ∧ no.Formed ∧ no.isDeclaration = false
  | .loop test body => test.Formed ∧ body.Formed ∧ body.isDeclaration = false
  | .function decl => FunDecl.Formed decl
  | .ret _ value => ∀ e, value = some e → e.Formed
  | .classDecl name superclass methods =>
    ¬ Heap.isWord name.lexeme ∧ (∀ ref, superclass = some ref → ¬ Heap.isWord ref.name) ∧
      FunDecl.FormedAll methods

def Stmt.FormedAll : List Stmt → Prop
  | [] => True
  | s :: ss => s.Formed ∧ Stmt.FormedAll ss

def FunDecl.Formed : FunDecl Stmt → Prop
  | ⟨name, params, body⟩ =>
    ¬ Heap.isWord name.lexeme ∧ (∀ p ∈ params, ¬ Heap.isWord p.lexeme) ∧ Stmt.FormedAll body

def FunDecl.FormedAll : List (FunDecl Stmt) → Prop
  | [] => True
  | d :: ds => FunDecl.Formed d ∧ FunDecl.FormedAll ds

end

/-! ## Code in its place -/

/-- The reference has the distance of the scope that binds its name, and the name is ready there. -/
def Reference.Ready (scopes : Scopes) (ref : Reference) : Prop :=
  scopes.find? ref.name = ref.hops.map (·, true)

/-- The reference is to the variable whose initializer is being looked at. -/
def Reference.Pending (scopes : Scopes) (ref : Reference) : Prop :=
  scopes.find? ref.name = some (0, false) ∧ ref.hops = some 0

section
variable (excused : Expr → Prop)

mutual

/-- The expression is in its place (module doc). -/
def Expr.Scoped (site : Site) : Expr → Prop
  | .literal _ => True
  | .group inner => inner.Scoped site
  | .unary _ _ right => right.Scoped site
  | .binary _ _ left right => left.Scoped site ∧ right.Scoped site
  | .logical _ _ left right => left.Scoped site ∧ right.Scoped site
  | .name ref => ref.Ready site.scopes
  | .assign ref value =>
    ¬ Heap.isWord ref.name ∧
      (ref.Ready site.scopes ∨ ref.Pending site.scopes ∧ excused (.assign ref value)) ∧
      value.Scoped site
  | .call callee _ args => callee.Scoped site ∧ Expr.ScopedAll site args
  | .get object _ => object.Scoped site
  | .set object _ value => object.Scoped site ∧ value.Scoped site
  | .thisRef ref =>
    ref.name = "this" ∧ ref.hops = site.scopes.hops? "this" ∧ ∃ K, site.cls = some K
  | .superRef ref method =>
    ref.hops = site.scopes.hops? "super" ∧
      ∃ K, site.cls = some K ∧ K.isDerived = true ∧ .superRef ref method ∈ K.ownSupers

def Expr.ScopedAll (site : Site) : List Expr → Prop
  | [] => True
  | e :: es => e.Scoped site ∧ Expr.ScopedAll site es

end

mutual

/-- The statement is in its place. -/
def Stmt.Scoped (site : Site) : Stmt → Prop
  | .expression e => e.Scoped excused site
  | .print e => e.Scoped excused site
  | .var name init =>
    ¬ Heap.isWord name.lexeme ∧
      ∀ e, init = some e → e.Scoped excused { site with scopes := site.scopes.declare name false }
  | .block body => Stmt.ScopedAll { site with scopes := [] :: site.scopes } body
  | .ifThen test yes =>
    test.Scoped excused site ∧ yes.Scoped site ∧ yes.isDeclaration = false
  | .ifElse test yes no =>
    test.Scoped excused site ∧ (yes.Scoped site ∧ yes.isDeclaration = false) ∧
      no.Scoped site ∧ no.isDeclaration = false
  | .loop test body =>
    test.Scoped excused site ∧ body.Scoped site ∧ body.isDeclaration = false
  | .function decl =>
    ¬ Heap.isWord decl.name.lexeme ∧
      FunDecl.Scoped { site with scopes := site.scopes.declare decl.name true } decl
  | .ret _ value => ∀ e, value = some e → e.Scoped excused site
  | .classDecl name superclass methods =>
    ¬ Heap.isWord name.lexeme ∧ (∀ ref, superclass = some ref → ref.Ready site.scopes) ∧
      FunDecl.ScopedAll
        ⟨(site.scopes.declare name true).withClass superclass.isSome,
          some (.classDecl name superclass methods)⟩ methods

/-- The statements are in their place, each in the scopes that the ones before it leave. -/
def Stmt.ScopedAll (site : Site) : List Stmt → Prop
  | [] => True
  | s :: ss => s.Scoped site ∧ Stmt.ScopedAll { site with scopes := s.declare site.scopes } ss

/-- The function is in its place. -/
def FunDecl.Scoped (site : Site) : FunDecl Stmt → Prop
  | ⟨_, params, body⟩ =>
    (∀ p ∈ params, ¬ Heap.isWord p.lexeme) ∧
      Stmt.ScopedAll { site with scopes := site.scopes.withParams params } body

def FunDecl.ScopedAll (site : Site) : List (FunDecl Stmt) → Prop
  | [] => True
  | d :: ds => FunDecl.Scoped site d ∧ FunDecl.ScopedAll site ds

end

variable {excused}

theorem FunDecl.scoped_iff {site : Site} {d : FunDecl Stmt} :
    FunDecl.Scoped excused site d ↔ (∀ p ∈ d.params, ¬ Heap.isWord p.lexeme) ∧
      Stmt.ScopedAll excused { site with scopes := site.scopes.withParams d.params } d.body := by
  cases d
  exact Iff.rfl

theorem FunDecl.ScopedAll.mem {site : Site} :
    ∀ {ds : List (FunDecl Stmt)} {d : FunDecl Stmt}, FunDecl.ScopedAll excused site ds → d ∈ ds →
      FunDecl.Scoped excused site d
  | d' :: ds, d, h, hm => by
    rcases List.mem_cons.1 hm with rfl | hm
    · exact h.1
    · exact FunDecl.ScopedAll.mem h.2 hm

end

/-! ## The binding pass puts code in its place -/

theorem Reference.ready_bind {scopes : Scopes} {ref : Reference}
    (h : ∀ k, scopes.find? ref.name ≠ some (k, false)) : (ref.bind scopes).Ready scopes := by
  unfold Reference.Ready Reference.bind
  rw [Scopes.hops?_eq]
  change scopes.find? ref.name = _
  cases hf : scopes.find? ref.name with
  | none => rfl
  | some p =>
    obtain ⟨k, ready⟩ := p
    cases ready with
    | true => rfl
    | false => exact absurd hf (h k)

theorem Reference.pending_bind {scopes : Scopes} {ref : Reference}
    (h : scopes.find? ref.name = some (0, false)) : (ref.bind scopes).Pending scopes := by
  refine ⟨h, ?_⟩
  change scopes.hops? ref.name = some 0
  rw [Scopes.hops?_eq, h]
  rfl

section
variable {excused : Expr → Prop} {scopes : Scopes} {cls : Option Stmt} {pending : Option String}

mutual

/-- An expression without violations is in its place once bound. Only the name whose initializer it
belongs to may not be ready, and only in the innermost scope. -/
theorem Expr.scoped_bind
    (hp : ∀ name k, scopes.find? name = some (k, false) → k = 0 ∧ pending = some name) :
    ∀ e : Expr, e.Formed → e.violations (Site.classContext cls) scopes = [] →
      (∀ x, pending = some x → ∀ a ∈ (e.bind scopes).assignmentsTo x, excused a) →
      (∀ K, cls = some K → ∀ a ∈ (e.bind scopes).supers, a ∈ K.ownSupers) →
      (e.bind scopes).Scoped excused ⟨scopes, cls⟩
  | .literal _, _, _, _, _ => trivial
  | .group inner, hf, hv, ha, hs => Expr.scoped_bind hp inner hf hv ha hs
  | .unary _ _ right, hf, hv, ha, hs => Expr.scoped_bind hp right hf hv ha hs
  | .binary _ _ left right, hf, hv, ha, hs => by
    simp only [Expr.violations, List.append_eq_nil_iff] at hv
    simp only [Expr.bind, Expr.assignmentsTo, Expr.supers, List.mem_append] at ha hs
    exact ⟨Expr.scoped_bind hp left hf.1 hv.1 (fun x hx a h => ha x hx a (.inl h))
        (fun K hK a h => hs K hK a (.inl h)),
      Expr.scoped_bind hp right hf.2 hv.2 (fun x hx a h => ha x hx a (.inr h))
        (fun K hK a h => hs K hK a (.inr h))⟩
  | .logical _ _ left right, hf, hv, ha, hs => by
    simp only [Expr.violations, List.append_eq_nil_iff] at hv
    simp only [Expr.bind, Expr.assignmentsTo, Expr.supers, List.mem_append] at ha hs
    exact ⟨Expr.scoped_bind hp left hf.1 hv.1 (fun x hx a h => ha x hx a (.inl h))
        (fun K hK a h => hs K hK a (.inl h)),
      Expr.scoped_bind hp right hf.2 hv.2 (fun x hx a h => ha x hx a (.inr h))
        (fun K hK a h => hs K hK a (.inr h))⟩
  | .name ref, _, hv, _, _ => by
    refine Reference.ready_bind fun k hk => ?_
    obtain ⟨rfl, -⟩ := hp _ _ hk
    simp [Expr.violations, Reference.premature, Scopes.here?_eq_some.2 hk] at hv
  | .assign ref value, hf, hv, ha, hs => by
    simp only [Expr.bind, Expr.assignmentsTo, List.mem_append] at ha
    refine ⟨hf.1, ?_, Expr.scoped_bind hp value hf.2 hv (fun x hx a h => ha x hx a (.inr h)) hs⟩
    by_cases hk : ∃ k, scopes.find? ref.name = some (k, false)
    · obtain ⟨k, hk⟩ := hk
      obtain ⟨rfl, hx⟩ := hp _ _ hk
      refine .inr ⟨Reference.pending_bind hk, ha _ hx _ (.inl ?_)⟩
      have hn : (ref.bind scopes).name = ref.name := rfl
      simp [hn]
    · exact .inl (Reference.ready_bind fun k h => hk ⟨k, h⟩)
  | .call callee _ args, hf, hv, ha, hs => by
    simp only [Expr.violations, List.append_eq_nil_iff] at hv
    simp only [Expr.bind, Expr.assignmentsTo, Expr.supers, List.mem_append] at ha hs
    exact ⟨Expr.scoped_bind hp callee hf.1 hv.1 (fun x hx a h => ha x hx a (.inl h))
        (fun K hK a h => hs K hK a (.inl h)),
      Expr.scopedAll_bindAll hp args hf.2 hv.2 (fun x hx a h => ha x hx a (.inr h))
        (fun K hK a h => hs K hK a (.inr h))⟩
  | .get object _, hf, hv, ha, hs => Expr.scoped_bind hp object hf hv ha hs
  | .set object _ value, hf, hv, ha, hs => by
    simp only [Expr.violations, List.append_eq_nil_iff] at hv
    simp only [Expr.bind, Expr.assignmentsTo, Expr.supers, List.mem_append] at ha hs
    exact ⟨Expr.scoped_bind hp object hf.1 hv.2 (fun x hx a h => ha x hx a (.inl h))
        (fun K hK a h => hs K hK a (.inl h)),
      Expr.scoped_bind hp value hf.2 hv.1 (fun x hx a h => ha x hx a (.inr h))
        (fun K hK a h => hs K hK a (.inr h))⟩
  | .thisRef ref, hf, hv, _, _ => by
    refine ⟨hf, by rw [← show ref.name = "this" from hf]; rfl, ?_⟩
    cases hc : cls with
    | none => simp [hc, Expr.violations, Site.classContext, ClassContext.thisRule] at hv
    | some K => exact ⟨K, rfl⟩
  | .superRef ref method, hf, hv, _, hs => by
    refine ⟨by rw [← show ref.name = "super" from hf]; rfl, ?_⟩
    cases hc : cls with
    | none => simp [hc, Expr.violations, Site.classContext, ClassContext.superRule] at hv
    | some K =>
      refine ⟨K, rfl, ?_, hs K hc _ (by simp [Expr.bind, Expr.supers])⟩
      cases hd : K.isDerived with
      | true => rfl
      | false => simp [hc, hd, Expr.violations, Site.classContext, ClassContext.superRule] at hv

theorem Expr.scopedAll_bindAll
    (hp : ∀ name k, scopes.find? name = some (k, false) → k = 0 ∧ pending = some name) :
    ∀ es : List Expr, Expr.FormedAll es →
      Expr.violationsAll (Site.classContext cls) scopes es = [] →
      (∀ x, pending = some x → ∀ a ∈ Expr.assignmentsToAll x (Expr.bindAll scopes es), excused a) →
      (∀ K, cls = some K → ∀ a ∈ Expr.supersAll (Expr.bindAll scopes es), a ∈ K.ownSupers) →
      Expr.ScopedAll excused ⟨scopes, cls⟩ (Expr.bindAll scopes es)
  | [], _, _, _, _ => trivial
  | e :: es, hf, hv, ha, hs => by
    simp only [Expr.violationsAll, List.append_eq_nil_iff] at hv
    simp only [Expr.bindAll, Expr.assignmentsToAll, Expr.supersAll, List.mem_append] at ha hs
    exact ⟨Expr.scoped_bind hp e hf.1 hv.1 (fun x hx a h => ha x hx a (.inl h))
        (fun K hK a h => hs K hK a (.inl h)),
      Expr.scopedAll_bindAll hp es hf.2 hv.2 (fun x hx a h => ha x hx a (.inr h))
        (fun K hK a h => hs K hK a (.inr h))⟩

end

end

theorem Stmt.isDeclaration_bind (scopes : Scopes) (st : Stmt) :
    (st.bind scopes).isDeclaration = st.isDeclaration := by
  cases st <;> rfl

theorem Stmt.declare_bind (scopes scopes' : Scopes) (st : Stmt) :
    (st.bind scopes).declare scopes' = st.declare scopes' := by
  cases st with
  | function decl => obtain ⟨name, params, body⟩ := decl; rfl
  | _ => rfl

theorem Scopes.AllReady.stmt {scopes : Scopes} (h : scopes.AllReady) (st : Stmt) :
    (st.declare scopes).AllReady := by
  cases st with
  | var name init => exact h.declare name
  | function decl => exact h.declare decl.name
  | classDecl name superclass methods => exact h.declare name
  | _ => exact h

theorem Stmt.declare_ne_nil {scopes : Scopes} {st : Stmt} (h : st.declare scopes ≠ []) :
    scopes ≠ [] := by
  rintro rfl
  cases st <;> exact h rfl

theorem Scopes.AllReady.expr {scopes : Scopes} (h : scopes.AllReady) (pending : Option String) :
    ∀ name k, scopes.find? name = some (k, false) → k = 0 ∧ pending = some name :=
  fun name k hk => absurd hk (h name k)

/-- An initializer is looked at while its variable is bound but not ready. -/
theorem Expr.scoped_bind_init {excused : Expr → Prop} {scopes : Scopes} {cls : Option Stmt}
    (hr : scopes.AllReady) (name : Token) (e : Expr) (hf : e.Formed)
    (hv : e.violations (Site.classContext cls) (scopes.declare name false) = [])
    (ha : scopes ≠ [] →
      ∀ a ∈ (e.bind (scopes.declare name false)).assignmentsTo name.lexeme, excused a)
    (hs : ∀ K, cls = some K → ∀ a ∈ (e.bind (scopes.declare name false)).supers, a ∈ K.ownSupers) :
    (e.bind (scopes.declare name false)).Scoped excused ⟨scopes.declare name false, cls⟩ := by
  by_cases h0 : scopes = []
  · subst h0
    have hp : ∀ other k, Scopes.find? [] other = some (k, false) → k = 0 ∧ none = some other :=
      fun _ _ hk => by simp [Scopes.find?] at hk
    exact Expr.scoped_bind hp e hf hv (fun x hx => by cases hx) hs
  · have hp : ∀ other k, (scopes.declare name false).find? other = some (k, false) →
        k = 0 ∧ some name.lexeme = some other := by
      intro other k hk
      by_cases hn : other = name.lexeme
      · rw [hn, Scopes.find?_declare_self h0] at hk
        cases hk
        exact ⟨rfl, by rw [hn]⟩
      · rw [Scopes.find?_declare_of_ne _ _ hn] at hk
        exact absurd hk (hr other k)
    exact Expr.scoped_bind hp e hf hv (fun x hx => by cases hx; exact ha h0) hs

section
variable {excused : Expr → Prop}

mutual

/-- A statement without violations is in its place once bound. -/
theorem Stmt.scoped_bind {scopes : Scopes} {cls : Option Stmt} {f : FunctionContext} {inner : Bool}
    (hr : scopes.AllReady) (hi : scopes ≠ [] → inner = true) :
    ∀ st : Stmt, st.Formed → st.violations f (Site.classContext cls) scopes = [] →
      (∀ a ∈ (st.bind scopes).selfAssignments inner, excused a) →
      (∀ K, cls = some K → ∀ a ∈ (st.bind scopes).supers, a ∈ K.ownSupers) →
      (st.bind scopes).Scoped excused ⟨scopes, cls⟩
  | .expression e, hf, hv, _, hs =>
    Expr.scoped_bind (hr.expr none) e hf hv (fun x hx => by cases hx) hs
  | .print e, hf, hv, _, hs =>
    Expr.scoped_bind (hr.expr none) e hf hv (fun x hx => by cases hx) hs
  | .var name init, hf, hv, ha, hs => by
    refine ⟨hf.1, fun e' he => ?_⟩
    obtain ⟨e, rfl, rfl⟩ := Option.map_eq_some_iff.1 he
    simp only [Stmt.violations, List.append_eq_nil_iff, Option.map_some, Option.getD_some] at hv
    refine Expr.scoped_bind_init hr name e (hf.2 e rfl) hv.2 (fun h0 a hm => ?_) hs
    exact ha a (by simpa [Stmt.bind, Stmt.selfAssignments, hi h0] using hm)
  | .block body, hf, hv, ha, hs =>
    Stmt.scopedAll_bindAll (hr.push fun name => by simp) (fun _ => rfl) body hf hv ha hs
  | .ifThen test yes, hf, hv, ha, hs => by
    simp only [Stmt.violations, List.append_eq_nil_iff] at hv
    simp only [Stmt.bind, Stmt.supers, List.mem_append] at hs
    refine ⟨Expr.scoped_bind (hr.expr none) test hf.1 hv.1 (fun x hx => by cases hx)
        (fun K hK a h => hs K hK a (.inl h)),
      Stmt.scoped_bind hr hi yes hf.2.1 hv.2 ha (fun K hK a h => hs K hK a (.inr h)), ?_⟩
    rw [Stmt.isDeclaration_bind, hf.2.2]
  | .ifElse test yes no, hf, hv, ha, hs => by
    simp only [Stmt.violations, List.append_eq_nil_iff] at hv
    simp only [Stmt.bind, Stmt.supers, Stmt.selfAssignments, List.mem_append] at ha hs
    obtain ⟨hft, ⟨hfy, hdy⟩, hfn, hdn⟩ := hf
    refine ⟨Expr.scoped_bind (hr.expr none) test hft hv.1.1 (fun x hx => by cases hx)
        (fun K hK a h => hs K hK a (.inl (.inl h))),
      ⟨Stmt.scoped_bind hr hi yes hfy hv.1.2 (fun a h => ha a (.inl h))
        (fun K hK a h => hs K hK a (.inl (.inr h))), ?_⟩,
      Stmt.scoped_bind hr hi no hfn hv.2 (fun a h => ha a (.inr h))
        (fun K hK a h => hs K hK a (.inr h)), ?_⟩
    · rw [Stmt.isDeclaration_bind, hdy]
    · rw [Stmt.isDeclaration_bind, hdn]
  | .loop test body, hf, hv, ha, hs => by
    simp only [Stmt.violations, List.append_eq_nil_iff] at hv
    simp only [Stmt.bind, Stmt.supers, List.mem_append] at hs
    refine ⟨Expr.scoped_bind (hr.expr none) test hf.1 hv.1 (fun x hx => by cases hx)
        (fun K hK a h => hs K hK a (.inl h)),
      Stmt.scoped_bind hr hi body hf.2.1 hv.2 ha (fun K hK a h => hs K hK a (.inr h)), ?_⟩
    rw [Stmt.isDeclaration_bind, hf.2.2]
  | .function ⟨name, params, body⟩, hf, hv, ha, hs => by
    simp only [Stmt.violations, FunDecl.violations, List.append_eq_nil_iff] at hv
    exact ⟨hf.1, hf.2.1, Stmt.scopedAll_bindAll ((hr.declare name).withParams params) (fun _ => rfl)
      body hf.2.2 hv.2.2 ha hs⟩
  | .ret _ value, hf, hv, _, hs => by
    intro e' he
    obtain ⟨e, rfl, rfl⟩ := Option.map_eq_some_iff.1 he
    simp only [Stmt.violations, List.append_eq_nil_iff, Option.map_some, Option.getD_some] at hv
    exact Expr.scoped_bind (hr.expr none) e (hf e rfl) hv.2 (fun x hx => by cases hx) hs
  | .classDecl name superclass methods, hf, hv, ha, hs => by
    simp only [Stmt.violations, List.append_eq_nil_iff] at hv
    refine ⟨hf.1, fun ref' he => ?_, ?_⟩
    · -- the class is not its own superclass, so the reference does not see the class's own name
      obtain ⟨ref, rfl, rfl⟩ := Option.map_eq_some_iff.1 he
      have hne : ref.name ≠ name.lexeme := by
        intro hn
        simp [Reference.inheritanceRule, hn] at hv
      have hb : ref.bind (scopes.declare name true) = ref.bind scopes := by
        unfold Reference.bind
        rw [Scopes.hops?_eq, Scopes.hops?_eq, Scopes.find?_declare_of_ne _ _ hne]
      rw [hb]
      exact Reference.ready_bind fun k => hr _ k
    · have hd : (superclass.map (·.bind (scopes.declare name true))).isSome = superclass.isSome := by
        cases superclass <;> rfl
      rw [hd]
      refine FunDecl.scopedAll_bindAll ((hr.declare name).withClass _) methods hf.2.2 ?_ ha
        (fun K hK a h => by cases hK; exact h)
      have hc : Site.classContext (some (Stmt.classDecl name
          (superclass.map (·.bind (scopes.declare name true)))
          (FunDecl.bindAll ((scopes.declare name true).withClass superclass.isSome) methods))) =
          if superclass.isSome then .derived else .plain := by
        cases superclass <;> rfl
      rw [hc]
      exact hv.2

theorem Stmt.scopedAll_bindAll {scopes : Scopes} {cls : Option Stmt} {f : FunctionContext}
    {inner : Bool} (hr : scopes.AllReady) (hi : scopes ≠ [] → inner = true) :
    ∀ ss : List Stmt, Stmt.FormedAll ss → Stmt.violationsAll f (Site.classContext cls) scopes ss = [] →
      (∀ a ∈ Stmt.selfAssignmentsAll inner (Stmt.bindAll scopes ss), excused a) →
      (∀ K, cls = some K → ∀ a ∈ Stmt.supersAll (Stmt.bindAll scopes ss), a ∈ K.ownSupers) →
      Stmt.ScopedAll excused ⟨scopes, cls⟩ (Stmt.bindAll scopes ss)
  | [], _, _, _, _ => trivial
  | st :: ss, hf, hv, ha, hs => by
    simp only [Stmt.violationsAll, List.append_eq_nil_iff] at hv
    simp only [Stmt.bindAll, Stmt.supersAll, Stmt.selfAssignmentsAll, List.mem_append] at ha hs
    refine ⟨Stmt.scoped_bind hr hi st hf.1 hv.1 (fun a h => ha a (.inl h))
      (fun K hK a h => hs K hK a (.inl h)), ?_⟩
    rw [Stmt.declare_bind]
    exact Stmt.scopedAll_bindAll (hr.stmt st) (fun h => hi (Stmt.declare_ne_nil h)) ss hf.2 hv.2
      (fun a h => ha a (.inr h)) (fun K hK a h => hs K hK a (.inr h))

theorem FunDecl.scopedAll_bindAll {scopes : Scopes} {cls : Option Stmt} (hr : scopes.AllReady) :
    ∀ ds : List (FunDecl Stmt), FunDecl.FormedAll ds →
      FunDecl.violationsAll (Site.classContext cls) scopes ds = [] →
      (∀ a ∈ FunDecl.selfAssignmentsAll (FunDecl.bindAll scopes ds), excused a) →
      (∀ K, cls = some K → ∀ a ∈ FunDecl.supersAll (FunDecl.bindAll scopes ds), a ∈ K.ownSupers) →
      FunDecl.ScopedAll excused ⟨scopes, cls⟩ (FunDecl.bindAll scopes ds)
  | [], _, _, _, _ => trivial
  | ⟨name, params, body⟩ :: ds, hf, hv, ha, hs => by
    simp only [FunDecl.violationsAll, FunDecl.violations, List.append_eq_nil_iff] at hv
    simp only [FunDecl.bindAll, FunDecl.supersAll, FunDecl.selfAssignmentsAll, List.mem_append]
      at ha hs
    exact ⟨⟨hf.1.2.1, Stmt.scopedAll_bindAll (hr.withParams params) (fun _ => rfl) body hf.1.2.2
        hv.1.2 (fun a h => ha a (.inl h)) (fun K hK a h => hs K hK a (.inl h))⟩,
      FunDecl.scopedAll_bindAll hr ds hf.2 hv.2 (fun a h => ha a (.inr h))
        (fun K hK a h => hs K hK a (.inr h))⟩

end

end

/-! ## At the top level -/

/-- Globals are not tracked by the scopes. -/
theorem Stmt.declare_global (stmt : Stmt) : stmt.declare [] = [] := by
  cases stmt <;> rfl

theorem Stmt.ScopedAll.append {excused : Expr → Prop} {cls : Option Stmt} :
    ∀ {before rest : List Stmt}, Stmt.ScopedAll excused ⟨[], cls⟩ (before ++ rest) →
      Stmt.ScopedAll excused ⟨[], cls⟩ before ∧ Stmt.ScopedAll excused ⟨[], cls⟩ rest
  | [], _, h => ⟨trivial, h⟩
  | stmt :: before, rest, h => by
    obtain ⟨h1, h2⟩ := h
    simp only [Stmt.declare_global] at h2
    obtain ⟨h3, h4⟩ := Stmt.ScopedAll.append h2
    refine ⟨⟨h1, ?_⟩, h4⟩
    simp only [Stmt.declare_global]
    exact h3

end Lox

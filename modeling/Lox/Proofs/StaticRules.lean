import Lox.Proofs.Lexical

/-!
# The static rules, as the text shows them

`Spot.Breaks` states the static rules about single places of the text: what stands there, and what
is around it. It knows of no open scopes and of no context that is kept and put back: the nearest
function is the first one on the way outwards, and a name is declared already if the innermost scope
binds it where the declaration stands.

Main statement: the violations of a source are the broken rules of its places, one for each
(`Program.violations_exact`).
-/

namespace Lox

/-! ## The rules -/

namespace Surrounding

def isFunction : Surrounding → Bool
  | .function _ | .method _ => true
  | _ => false

def isClass : Surrounding → Bool
  | .classBody _ => true
  | _ => false

/-- Inside the initializer of a local variable of this name. -/
def Initializes (name : String) (around : List Surrounding) : Prop :=
  ∃ inner v outer, around = inner ++ .initializer v :: outer ∧ regionsAll outer ≠ [] ∧
    v.lexeme = name

end Surrounding

/-- What is wrong at a place: the rule that it breaks, and the token at fault. -/
inductive Spot.Breaks : Spot → Token → Cause → Prop
  /-- The scope of a declaration has the name already. -/
  | redeclared {name : Token} {around : List Surrounding} {region : Region}
      (hr : (Surrounding.regionsAll around).head? = some region)
      (hb : region.Binds name.lexeme name.offset) :
      Breaks ⟨.declaration name, around⟩ name .alreadyDeclared
  /-- Two parameters of a function have the same name. -/
  | sameParameter {earlier : List Token} {name other : Token} {around : List Surrounding}
      (hm : other ∈ earlier) (hn : other.lexeme = name.lexeme) :
      Breaks ⟨.parameter earlier name, around⟩ name .alreadyDeclared
  /-- A local variable is read in its own initializer. -/
  | ownInitializer {name : Token} {around : List Surrounding}
      (hi : Surrounding.Initializes name.lexeme around) :
      Breaks ⟨.use .read name, around⟩ name .ownInitializer
  | topLevelReturn {keyword : Token} {hasValue : Bool} {around : List Surrounding}
      (hf : ∀ s ∈ around, s.isFunction = false) :
      Breaks ⟨.ret keyword hasValue, around⟩ keyword .topLevelReturn
  /-- The nearest function is an initializer, and a value is returned. -/
  | initializerValue {keyword : Token} {around : List Surrounding} {decl : FunDecl Stmt}
      (hf : around.find? Surrounding.isFunction = some (.method decl))
      (hi : decl.name.lexeme = "init") :
      Breaks ⟨.ret keyword true, around⟩ keyword .initializerValue
  | thisOutsideClass {keyword : Token} {around : List Surrounding}
      (hc : ∀ s ∈ around, s.isClass = false) :
      Breaks ⟨.use .thisWord keyword, around⟩ keyword .thisOutsideClass
  | superOutsideClass {keyword : Token} {around : List Surrounding}
      (hc : ∀ s ∈ around, s.isClass = false) :
      Breaks ⟨.use .superWord keyword, around⟩ keyword .superOutsideClass
  /-- The nearest class has no superclass. -/
  | superWithoutSuperclass {keyword : Token} {around : List Surrounding}
      (hc : around.find? Surrounding.isClass = some (.classBody false)) :
      Breaks ⟨.use .superWord keyword, around⟩ keyword .superWithoutSuperclass
  | selfInheritance {cls superclass : Token} {around : List Surrounding}
      (hn : superclass.lexeme = cls.lexeme) :
      Breaks ⟨.inheritance cls superclass, around⟩ superclass .selfInheritance

/-! ## Finding what is wrong -/

namespace Surrounding

/-- What the static rules know of the nearest function. -/
def functionContext (around : List Surrounding) : FunctionContext :=
  match around.find? isFunction with
  | none => .outside
  | some (.method decl) => if decl.isInitializer then .initializer else .plain
  | some _ => .plain

/-- What the static rules know of the nearest class. -/
def classContext (around : List Surrounding) : ClassContext :=
  match around.find? isClass with
  | none => .outside
  | some (.classBody false) => .plain
  | some _ => .derived

def initializes (name : String) : List Surrounding → Bool
  | [] => false
  | .initializer v :: outer =>
    (!(regionsAll outer).isEmpty && v.lexeme == name) || initializes name outer
  | _ :: outer => initializes name outer

end Surrounding

/-- The rule that a place breaks, and the token at fault. A place breaks at most one. -/
def Spot.fault? (spot : Spot) : Option (Token × Cause) :=
  match spot.node with
  | .use .read name =>
    if Surrounding.initializes name.lexeme spot.around then some (name, .ownInitializer) else none
  | .use .assign _ => none
  | .use .thisWord keyword =>
    match Surrounding.classContext spot.around with
    | .outside => some (keyword, .thisOutsideClass)
    | _ => none
  | .use .superWord keyword =>
    match Surrounding.classContext spot.around with
    | .outside => some (keyword, .superOutsideClass)
    | .plain => some (keyword, .superWithoutSuperclass)
    | .derived => none
  | .declaration name =>
    match (Surrounding.regionsAll spot.around).head? with
    | some region =>
      if region.Binds name.lexeme name.offset then some (name, .alreadyDeclared) else none
    | none => none
  | .parameter earlier name =>
    if ∃ other ∈ earlier, other.lexeme = name.lexeme then some (name, .alreadyDeclared) else none
  | .ret keyword hasValue =>
    match Surrounding.functionContext spot.around with
    | .outside => some (keyword, .topLevelReturn)
    | .plain => none
    | .initializer => if hasValue then some (keyword, .initializerValue) else none
  | .inheritance cls superclass =>
    if superclass.lexeme = cls.lexeme then some (superclass, .selfInheritance) else none

namespace Surrounding

variable {around : List Surrounding}

theorem functionContext_eq_outside :
    functionContext around = .outside ↔ ∀ s ∈ around, s.isFunction = false := by
  have hnone : around.find? isFunction = none ↔ ∀ s ∈ around, s.isFunction = false := by simp
  rw [← hnone]
  unfold functionContext
  cases hf : around.find? isFunction with
  | none => simp
  | some s =>
    cases s with
    | method decl => by_cases hi : decl.isInitializer = true <;> simp [hi]
    | _ => simp

theorem functionContext_eq_initializer :
    functionContext around = .initializer ↔
      ∃ decl, around.find? isFunction = some (.method decl) ∧ decl.name.lexeme = "init" := by
  unfold functionContext
  cases hf : around.find? isFunction with
  | none => simp
  | some s => cases s <;> simp [FunDecl.isInitializer, initName]

theorem classContext_eq_outside :
    classContext around = .outside ↔ ∀ s ∈ around, s.isClass = false := by
  have hnone : around.find? isClass = none ↔ ∀ s ∈ around, s.isClass = false := by simp
  rw [← hnone]
  unfold classContext
  cases hf : around.find? isClass with
  | none => simp
  | some s =>
    cases s with
    | classBody derived => cases derived <;> simp
    | _ => simp

theorem classContext_eq_plain :
    classContext around = .plain ↔ around.find? isClass = some (.classBody false) := by
  unfold classContext
  cases hf : around.find? isClass with
  | none => simp
  | some s =>
    cases s with
    | classBody derived => cases derived <;> simp
    | _ => simp

theorem initializes_cons {name : String} {s : Surrounding} {outer : List Surrounding} :
    Initializes name (s :: outer) ↔
      (∃ v, s = .initializer v ∧ regionsAll outer ≠ [] ∧ v.lexeme = name) ∨
        Initializes name outer := by
  constructor
  · rintro ⟨_ | ⟨s', inner⟩, v, outer', he, hr, hn⟩
    · cases he
      exact .inl ⟨v, rfl, hr, hn⟩
    · cases he
      exact .inr ⟨inner, v, outer', rfl, hr, hn⟩
  · rintro (⟨v, rfl, hr, hn⟩ | ⟨inner, v, outer', rfl, hr, hn⟩)
    · exact ⟨[], v, outer, rfl, hr, hn⟩
    · exact ⟨s :: inner, v, outer', rfl, hr, hn⟩

theorem initializes_iff {name : String} : ∀ {around : List Surrounding},
    initializes name around = true ↔ Initializes name around
  | [] => by simp [initializes, Initializes]
  | s :: outer => by
    have ih : initializes name outer = true ↔ Initializes name outer := initializes_iff
    rw [initializes_cons]
    cases s <;> simp [initializes, ih]

end Surrounding

/-- The computed fault is the broken rule. -/
theorem Spot.fault?_eq_some {spot : Spot} {t : Token} {cause : Cause} :
    spot.fault? = some (t, cause) ↔ spot.Breaks t cause := by
  obtain ⟨node, around⟩ := spot
  constructor
  · intro h
    unfold fault? at h
    cases node with
    | use use token =>
      cases use with
      | read =>
        obtain ⟨hi, he⟩ := Option.ite_none_right_eq_some.1 h
        cases he
        exact .ownInitializer (Surrounding.initializes_iff.1 hi)
      | assign => cases h
      | thisWord =>
        cases hc : Surrounding.classContext around with
        | outside =>
          simp only [hc] at h
          cases h
          exact .thisOutsideClass (Surrounding.classContext_eq_outside.1 hc)
        | plain | derived => simp [hc] at h
      | superWord =>
        cases hc : Surrounding.classContext around with
        | outside =>
          simp only [hc] at h
          cases h
          exact .superOutsideClass (Surrounding.classContext_eq_outside.1 hc)
        | plain =>
          simp only [hc] at h
          cases h
          exact .superWithoutSuperclass (Surrounding.classContext_eq_plain.1 hc)
        | derived => simp [hc] at h
    | declaration name =>
      cases hr : (Surrounding.regionsAll around).head? with
      | none => simp [hr] at h
      | some region =>
        simp only [hr] at h
        obtain ⟨hb, he⟩ := Option.ite_none_right_eq_some.1 h
        cases he
        exact .redeclared hr hb
    | parameter earlier name =>
      obtain ⟨⟨other, hm, hn⟩, he⟩ := Option.ite_none_right_eq_some.1 h
      cases he
      exact .sameParameter hm hn
    | ret keyword hasValue =>
      cases hf : Surrounding.functionContext around with
      | outside =>
        simp only [hf] at h
        cases h
        exact .topLevelReturn (Surrounding.functionContext_eq_outside.1 hf)
      | plain => simp [hf] at h
      | initializer =>
        simp only [hf] at h
        obtain ⟨rfl, he⟩ := Option.ite_none_right_eq_some.1 h
        cases he
        obtain ⟨decl, hd, hi⟩ := Surrounding.functionContext_eq_initializer.1 hf
        exact .initializerValue hd hi
    | inheritance cls superclass =>
      obtain ⟨hn, he⟩ := Option.ite_none_right_eq_some.1 h
      cases he
      exact .selfInheritance hn
  · intro h
    unfold fault?
    cases h with
    | redeclared hr hb => simp [hr, hb]
    | sameParameter hm hn => exact if_pos ⟨_, hm, hn⟩
    | ownInitializer hi => exact if_pos (Surrounding.initializes_iff.2 hi)
    | topLevelReturn hf => simp [Surrounding.functionContext_eq_outside.2 hf]
    | initializerValue hf hi =>
      simp [Surrounding.functionContext_eq_initializer.2 ⟨_, hf, hi⟩]
    | thisOutsideClass hc => simp [Surrounding.classContext_eq_outside.2 hc]
    | superOutsideClass hc => simp [Surrounding.classContext_eq_outside.2 hc]
    | superWithoutSuperclass hc => simp [Surrounding.classContext_eq_plain.2 hc]
    | selfInheritance hn => exact if_pos hn

/-! ## Violations in a tree -/

def Spot.diagnostic? (spot : Spot) : Option Diagnostic :=
  spot.fault?.map fun (t, cause) => .ofToken t cause

/-- What is wrong at the places of a tree. -/
def faults (spots : List Spot) : List Diagnostic := spots.filterMap Spot.diagnostic?

@[simp] theorem faults_append (spots spots' : List Spot) :
    faults (spots ++ spots') = faults spots ++ faults spots' :=
  List.filterMap_append

theorem faults_cons (spot : Spot) (spots : List Spot) :
    faults (spot :: spots) = faults [spot] ++ faults spots :=
  faults_append [spot] spots

theorem faults_singleton (spot : Spot) :
    faults [spot] = (spot.fault?.map fun (t, cause) => Diagnostic.ofToken t cause).toList := by
  change List.filterMap Spot.diagnostic? [spot] = spot.diagnostic?.toList
  cases hd : spot.diagnostic? <;> simp [hd]

/-- What is wrong at a place with one rule. -/
theorem faults_eq_ite {spot : Spot} {p : Prop} [Decidable p] {t : Token} {cause : Cause}
    (h : spot.fault? = if p then some (t, cause) else none) :
    faults [spot] = if p then [.ofToken t cause] else [] := by
  rw [faults_singleton, h]
  by_cases hp : p <;> simp [hp]

section
variable {σ : Scopes} {around : List Surrounding}

theorem redeclared_eq {name : Token} (h : σ.Agree (Surrounding.regionsAll around) name.offset) :
    σ.redeclared name = faults [⟨.declaration name, around⟩] := by
  generalize hr : Surrounding.regionsAll around = regions at h
  cases h with
  | nil =>
    rw [faults_singleton, Spot.fault?]
    simp only [hr]
    rfl
  | @cons scope region _ _ hhead _ =>
    have hf : Spot.fault? ⟨.declaration name, around⟩ =
        if region.Binds name.lexeme name.offset then some (name, .alreadyDeclared) else none := by
      simp only [Spot.fault?, hr, List.head?_cons]
    rw [faults_eq_ite hf, Scopes.redeclared]
    simp only [Scopes.here?, List.head?_cons, Option.bind_some, hhead name.lexeme]

theorem premature_eq {ref : Reference}
    (h : σ.here? ref.name = some false ↔ Surrounding.Initializes ref.name around) :
    ref.premature σ = faults [⟨.use .read ref.token, around⟩] := by
  rw [faults_eq_ite rfl, Reference.premature]
  simp only [h, ← Surrounding.initializes_iff]
  rfl

theorem thisRule_eq (keyword : Token) :
    (Surrounding.classContext around).thisRule keyword =
      faults [⟨.use .thisWord keyword, around⟩] := by
  rw [faults_singleton, Spot.fault?]
  cases Surrounding.classContext around <;> rfl

theorem superRule_eq (keyword : Token) :
    (Surrounding.classContext around).superRule keyword =
      faults [⟨.use .superWord keyword, around⟩] := by
  rw [faults_singleton, Spot.fault?]
  cases Surrounding.classContext around <;> rfl

theorem returnRule_eq (keyword : Token) (hasValue : Bool) :
    (Surrounding.functionContext around).returnRule keyword hasValue =
      faults [⟨.ret keyword hasValue, around⟩] := by
  rw [faults_singleton, Spot.fault?]
  cases Surrounding.functionContext around with
  | outside | plain => rfl
  | initializer => cases hasValue <;> rfl

theorem inheritanceRule_eq (superclass : Reference) (name : Token) :
    superclass.inheritanceRule name = faults [⟨.inheritance name superclass.token, around⟩] :=
  (faults_eq_ite rfl).symm

theorem paramRule_eq : ∀ (params : List Token) {scope : Scope} {earlier : List Token},
    Scopes.Knows scope earlier →
    Scopes.paramRule (scope :: σ) params = faults (parameterSpots around earlier params)
  | [], _, _, _ => rfl
  | p :: ps, scope, earlier, h => by
    have hp : Scopes.redeclared (scope :: σ) p = faults [⟨.parameter earlier p, around⟩] := by
      rw [faults_eq_ite rfl, Scopes.redeclared]
      simp only [Scopes.here?, List.head?_cons, Option.bind_some, h p.lexeme]
    rw [Scopes.paramRule, parameterSpots, faults_cons, hp]
    exact congrArg _ (paramRule_eq ps (h.cons p))

mutual

/-- The violations in an expression are what is wrong at its places. The value of a property
assignment is looked at first, so they may come in another order. -/
theorem Expr.violations_perm (hi : ∀ x, σ.here? x = some false ↔ Surrounding.Initializes x around) :
    ∀ e : Expr, (e.violations (Surrounding.classContext around) σ).Perm (faults (e.spots around))
  | .literal _ => .nil
  | .group inner => inner.violations_perm hi
  | .unary _ _ right => right.violations_perm hi
  | .binary _ _ left right | .logical _ _ left right => by
    rw [Expr.violations, Expr.spots, faults_append]
    exact (left.violations_perm hi).append (right.violations_perm hi)
  | .name ref => .of_eq (premature_eq (hi ref.name))
  | .assign _ value => value.violations_perm hi
  | .call callee _ args => by
    rw [Expr.violations, Expr.spots, faults_append]
    exact (callee.violations_perm hi).append (Expr.violationsAll_perm hi args)
  | .get object _ => object.violations_perm hi
  | .set object _ value => by
    rw [Expr.violations, Expr.spots, faults_append]
    exact List.perm_append_comm.trans
      ((object.violations_perm hi).append (value.violations_perm hi))
  | .thisRef ref => .of_eq (thisRule_eq ref.token)
  | .superRef ref _ => .of_eq (superRule_eq ref.token)

theorem Expr.violationsAll_perm
    (hi : ∀ x, σ.here? x = some false ↔ Surrounding.Initializes x around) : ∀ es : List Expr,
    (Expr.violationsAll (Surrounding.classContext around) σ es).Perm
      (faults (Expr.spotsAll around es))
  | [] => .nil
  | e :: es => by
    rw [Expr.violationsAll, Expr.spotsAll, faults_append]
    exact (e.violations_perm hi).append (Expr.violationsAll_perm hi es)

end

theorem Expr.violations_map_perm {o : Option Expr}
    (hi : ∀ x, σ.here? x = some false ↔ Surrounding.Initializes x around) :
    ((o.map (·.violations (Surrounding.classContext around) σ)).getD []).Perm
      (faults ((o.map (·.spots around)).getD [])) := by
  cases o with
  | none => exact .nil
  | some e => exact e.violations_perm hi

end

/-! ## Statements -/

/-- Statements stand in no initializer, and every name that is open is ready. -/
structure Surrounding.Calm (σ : Scopes) (around : List Surrounding) : Prop where
  ready : σ.AllReady
  clear : ∀ v, .initializer v ∉ around

namespace Surrounding.Calm

variable {σ : Scopes} {around : List Surrounding}

/-- In an expression that is no initializer, nothing is left unready. -/
theorem here?_iff (h : Calm σ around) (x : String) :
    σ.here? x = some false ↔ Initializes x around := by
  refine iff_of_false (fun hh => h.ready x 0 (Scopes.here?_eq_some.1 hh)) ?_
  rintro ⟨inner, v, outer, rfl, -⟩
  exact h.clear v (List.mem_append_right _ List.mem_cons_self)

/-- In the initializer of a variable, the variable is not ready if it is local. -/
theorem here?_initializer (h : Calm σ around) {name : Token}
    (ha : σ.Agree (regionsAll around) name.offset) (x : String) :
    (σ.declare name false).here? x = some false ↔
      Initializes x (.initializer name :: around) := by
  rw [initializes_cons, ← h.here?_iff x]
  cases σ with
  | nil =>
    have hnil : regionsAll around = [] := List.forall₂_nil_left_iff.1 ha
    simp [Scopes.declare, Scopes.here?, hnil]
  | cons scope outer =>
    have hcons : regionsAll around ≠ [] := by
      intro hnil
      rw [hnil] at ha
      cases ha
    by_cases hx : x = name.lexeme
    · simp [Scopes.declare, Scopes.here?, hx, hcons]
    · simp [Scopes.declare, Scopes.here?, List.lookup_cons, beq_eq_false_iff_ne.2 hx, Ne.symm hx]

theorem declare (h : Calm σ around) (name : Token) : Calm (σ.declare name true) around :=
  ⟨h.ready.declare name, h.clear⟩

theorem stmt (h : Calm σ around) (s : Stmt) : Calm (s.declare σ) around := by
  rw [Stmt.declare_eq]
  cases s.name? with
  | none => exact h
  | some d => exact h.declare d

theorem enter {σ' : Scopes} {s : Surrounding} (h : Calm σ around) (hr : σ'.AllReady)
    (hs : ∀ v, s ≠ .initializer v) : Calm σ' (s :: around) :=
  ⟨hr, fun v hv => (List.mem_cons.1 hv).elim (fun he => hs v he.symm) (h.clear v)⟩

end Surrounding.Calm

mutual

/-- The violations in a statement in its place are what is wrong at its places. -/
theorem Stmt.violations_perm (σ : Scopes) (around : List Surrounding) : ∀ s : Stmt,
    s.Stands σ around → Surrounding.Calm σ around →
    (s.violations (Surrounding.functionContext around) (Surrounding.classContext around) σ).Perm
      (faults (s.spots around))
  | .expression e, _, hk | .print e, _, hk => e.violations_perm hk.here?_iff
  | .var name init, h, hk => by
    have ha := h.sited.1 name rfl
    rw [Stmt.violations, Stmt.spots, faults_cons, ← redeclared_eq ha]
    exact (Expr.violations_map_perm (hk.here?_initializer ha)).append_left _
  | .block body, h, hk =>
    Stmt.violationsAll_perm ([] :: σ) (.block body :: around) body h.block
      (hk.enter (hk.ready.push fun _ => by simp) fun v hv => by cases hv)
  | .ifThen test yes, h, hk => by
    rw [Stmt.violations, Stmt.spots, faults_append]
    exact (test.violations_perm hk.here?_iff).append (yes.violations_perm σ around h.ifThen.2 hk)
  | .ifElse test yes no, h, hk => by
    rw [Stmt.violations, Stmt.spots, faults_append, faults_append]
    exact ((test.violations_perm hk.here?_iff).append
      (yes.violations_perm σ around h.ifElse.2.1 hk)).append
        (no.violations_perm σ around h.ifElse.2.2 hk)
  | .loop test body, h, hk => by
    rw [Stmt.violations, Stmt.spots, faults_append]
    exact (test.violations_perm hk.here?_iff).append (body.violations_perm σ around h.loop.2 hk)
  | .function d, h, hk => by
    have hd := FunDecl.violations_perm (σ.declare d.name true) around d (.inl rfl) h.function
      (hk.declare d.name)
    rw [Stmt.violations, Stmt.spots, faults_cons, ← redeclared_eq (h.sited.1 d.name rfl)]
    exact hd.append_left _
  | .ret keyword value, _, hk => by
    rw [Stmt.violations, Stmt.spots, faults_cons, ← returnRule_eq]
    exact (Expr.violations_map_perm hk.here?_iff).append_left _
  | .classDecl name superclass methods, h, hk => by
    have hk' := hk.declare name
    have hm := FunDecl.violationsAll_perm ((σ.declare name true).withClass superclass.isSome)
      (.classBody superclass.isSome :: around) methods h.methods
      (hk'.enter (hk'.ready.withClass _) fun v hv => by cases hv)
    rw [Stmt.violations, Stmt.spots, faults_cons, ← redeclared_eq (h.sited.1 name rfl),
      faults_append, List.append_assoc]
    cases superclass with
    | none => exact hm.append_left _
    | some ref =>
      have hsuper : ref.inheritanceRule name ++ ref.premature (σ.declare name true) =
          faults [⟨.inheritance name ref.token, around⟩, ⟨.use .read ref.token, around⟩] := by
        rw [faults_cons, inheritanceRule_eq, premature_eq (hk'.here?_iff ref.name)]
      exact ((List.Perm.of_eq hsuper).append hm).append_left _

theorem Stmt.violationsAll_perm (σ : Scopes) (around : List Surrounding) : ∀ ss : List Stmt,
    Stmt.StandsAll σ around ss → Surrounding.Calm σ around →
    (Stmt.violationsAll (Surrounding.functionContext around) (Surrounding.classContext around) σ
      ss).Perm (faults (Stmt.spotsAll around ss))
  | [], _, _ => .nil
  | s :: ss, h, hk => by
    rw [Stmt.violationsAll, Stmt.spotsAll, faults_append]
    exact (s.violations_perm σ around h.cons.1 hk).append
      (Stmt.violationsAll_perm (s.declare σ) around ss h.cons.2 (hk.stmt s))

/-- A function is the nearest one to what is inside it; the nearest class stays. -/
theorem FunDecl.violations_perm (σ : Scopes) (around : List Surrounding) : ∀ (d : FunDecl Stmt)
    {inside : Surrounding}, inside.IsInside d → FunDecl.Stands σ around d →
    Surrounding.Calm σ around →
    (FunDecl.violations (Surrounding.functionContext (inside :: around))
      (Surrounding.classContext around) σ d).Perm (faults (FunDecl.spots (inside :: around) d))
  | ⟨name, params, body⟩, inside, hi, h, hk => by
    have hc : Surrounding.classContext (inside :: around) = Surrounding.classContext around := by
      rcases hi with rfl | rfl <;> rfl
    have hinside : ∀ v, inside ≠ .initializer v := by
      rcases hi with rfl | rfl <;> exact fun v hv => by cases hv
    have hb := Stmt.violationsAll_perm (σ.withParams params) (inside :: around) body (h.body hi)
      (hk.enter (hk.ready.withParams params) hinside)
    have hempty : Scopes.Knows [] [] := fun name => by simp
    rw [FunDecl.violations, FunDecl.spots, faults_append, paramRule_eq params hempty, ← hc]
    exact hb.append_left _

theorem FunDecl.violationsAll_perm (σ : Scopes) (around : List Surrounding) :
    ∀ ds : List (FunDecl Stmt), FunDecl.StandsAll σ around ds → Surrounding.Calm σ around →
    (FunDecl.violationsAll (Surrounding.classContext around) σ ds).Perm
      (faults (FunDecl.spotsAll around ds))
  | [], _, _ => .nil
  | d :: ds, h, hk => by
    rw [FunDecl.violationsAll, FunDecl.spotsAll, faults_append]
    exact (FunDecl.violations_perm σ around d (.inr rfl) h.cons.1 hk).append
      (FunDecl.violationsAll_perm σ around ds h.cons.2 hk)

end

/-! ## Programs -/

namespace Program

/-- **The violations of a source are the rules that its places break**, one for each, also if the
source has faults: each is reported once, at the token at fault, and nothing else is reported. So a
source has no violation exactly if no place of it breaks a rule. -/
theorem violations_exact (source : String) :
    (compile source).violations.Perm ((compile source).spots.filterMap fun spot =>
        spot.fault?.map fun (t, cause) => Diagnostic.ofToken t cause) ∧
      (∀ spot ∈ (compile source).spots, ∀ t cause,
        spot.fault? = some (t, cause) ↔ spot.Breaks t cause) ∧
      ((compile source).violations = [] ↔
        ∀ spot ∈ (compile source).spots, ∀ t cause, ¬ spot.Breaks t cause) := by
  have hperm : (compile source).violations.Perm (faults (compile source).spots) :=
    Stmt.violationsAll_perm [] [] _ (stands source)
      ⟨fun name k => by simp [Scopes.find?], fun v hv => by cases hv⟩
  refine ⟨hperm, fun _ _ _ _ => Spot.fault?_eq_some, ?_⟩
  have hnil : (compile source).violations = [] ↔ faults (compile source).spots = [] :=
    ⟨fun h => List.nil_perm.1 (h ▸ hperm), fun h => List.perm_nil.1 (h ▸ hperm)⟩
  rw [hnil]
  simp only [faults, List.filterMap_eq_nil_iff, Spot.diagnostic?, Option.map_eq_none_iff,
    ← Spot.fault?_eq_some]
  refine forall₂_congr fun spot _ => ?_
  cases spot.fault? with
  | none => simp
  | some fault =>
    obtain ⟨t, cause⟩ := fault
    simp

end Program

end Lox

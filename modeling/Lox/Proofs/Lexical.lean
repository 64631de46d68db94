import Mathlib.Data.List.Forall2
import Lox.Scope.References
import Lox.Proofs.Taking

/-!
# Lexical scope, as the text shows it

Which scope a name belongs to can be read off the text: go outwards from the place where the name
stands, through the blocks, functions and classes around it, to the first scope that binds the name
there. `Stmt.spots` lists the places of a tree with what is around each of them, and `Region.Binds`
says which names a scope binds at a place. Neither goes through a tree with open scopes: a scope is
its parameters and statements, and a declaration counts from where it begins in the text.

Binding a tree follows the text: where the open scopes agree with the regions around (`Stmt.Stands`),
every reference gets the number of regions inside the one that binds it (`Stmt.references_bind`). They
agree in every body, since its statements are in the order of their text (`Stmt.sitedAll_body`).
-/

namespace Lox

/-! ## Regions -/

/-- The names that statements declare in the scope they stand in. -/
def Stmt.declaredNames (ss : List Stmt) : List Token := ss.filterMap Stmt.name?

/-- A scope of the text. -/
inductive Region where
  /-- The scope around the methods of a class that binds one of the words `this` and `super`. -/
  | word (w : String)
  /-- A block, or the parameters and the body of a function. -/
  | body (params : List Token) (statements : List Stmt)

/-- Whether a region binds a name at a place of the text: it is the scope of that word, a parameter
has the name, or a statement directly in it declares the name, from where the declaration begins. -/
def Region.Binds (name : String) (offset : Nat) : Region → Prop
  | .word w => name = w
  | .body params statements =>
    (∃ p ∈ params, p.lexeme = name) ∨
      ∃ d ∈ Stmt.declaredNames statements, d.lexeme = name ∧ d.offset < offset

instance (name : String) (offset : Nat) : DecidablePred (Region.Binds name offset)
  | .word w => inferInstanceAs (Decidable (name = w))
  | .body params statements => inferInstanceAs (Decidable ((∃ p ∈ params, p.lexeme = name) ∨
      ∃ d ∈ Stmt.declaredNames statements, d.lexeme = name ∧ d.offset < offset))

/-! ## What is around a place -/

/-- One step outwards in the text. -/
inductive Surrounding where
  /-- The initializer of a variable. -/
  | initializer (name : Token)
  | block (body : List Stmt)
  | function (decl : FunDecl Stmt)
  | method (decl : FunDecl Stmt)
  /-- The part of a class between its braces. -/
  | classBody (derived : Bool)

/-- The scopes of a surrounding, the inner one first. -/
def Surrounding.regions : Surrounding → List Region
  | .initializer _ => []
  | .block body => [.body [] body]
  | .function decl | .method decl => [.body decl.params decl.body]
  | .classBody derived => .word "this" :: if derived then [.word "super"] else []

/-- All scopes around a place, the innermost first. -/
def Surrounding.regionsAll (around : List Surrounding) : List Region :=
  around.flatMap Surrounding.regions

/-- What stands at a place, as far as names and the static rules are concerned. -/
inductive Node where
  | use (use : Use) (token : Token)
  /-- The name in a declaration of a variable, a function or a class. -/
  | declaration (name : Token)
  /-- A parameter, after the earlier ones of its function. -/
  | parameter (earlier : List Token) (name : Token)
  | ret (keyword : Token) (hasValue : Bool)
  /-- The superclass that a class names. -/
  | inheritance (cls superclass : Token)

/-- A place of the text: what stands there, and what is around it, the innermost first. -/
structure Spot where
  node : Node
  around : List Surrounding

mutual

/-- The places of an expression. -/
def Expr.spots (around : List Surrounding) : Expr → List Spot
  | .literal _ => []
  | .group inner => inner.spots around
  | .unary _ _ right => right.spots around
  | .binary _ _ left right => left.spots around ++ right.spots around
  | .logical _ _ left right => left.spots around ++ right.spots around
  | .name ref => [⟨.use .read ref.token, around⟩]
  | .assign ref value => ⟨.use .assign ref.token, around⟩ :: value.spots around
  | .call callee _ args => callee.spots around ++ Expr.spotsAll around args
  | .get object _ => object.spots around
  | .set object _ value => object.spots around ++ value.spots around
  | .thisRef ref => [⟨.use .thisWord ref.token, around⟩]
  | .superRef ref _ => [⟨.use .superWord ref.token, around⟩]

def Expr.spotsAll (around : List Surrounding) : List Expr → List Spot
  | [] => []
  | e :: es => e.spots around ++ Expr.spotsAll around es

end

/-- The places of parameters. -/
def parameterSpots (around : List Surrounding) (earlier : List Token) : List Token → List Spot
  | [] => []
  | p :: ps => ⟨.parameter earlier p, around⟩ :: parameterSpots around (earlier ++ [p]) ps

mutual

/-- The places of a statement. The superclass of a class stands outside the class. -/
def Stmt.spots (around : List Surrounding) : Stmt → List Spot
  | .expression e => e.spots around
  | .print e => e.spots around
  | .var name init =>
    ⟨.declaration name, around⟩ :: (init.map (·.spots (.initializer name :: around))).getD []
  | .block body => Stmt.spotsAll (.block body :: around) body
  | .ifThen test yes => test.spots around ++ yes.spots around
  | .ifElse test yes no => test.spots around ++ yes.spots around ++ no.spots around
  | .loop test body => test.spots around ++ body.spots around
  | .function decl =>
    ⟨.declaration decl.name, around⟩ :: FunDecl.spots (.function decl :: around) decl
  | .ret keyword value =>
    ⟨.ret keyword value.isSome, around⟩ :: (value.map (·.spots around)).getD []
  | .classDecl name superclass methods =>
    ⟨.declaration name, around⟩ ::
      ((superclass.map fun ref =>
        [⟨.inheritance name ref.token, around⟩, ⟨.use .read ref.token, around⟩]).getD [] ++
        FunDecl.spotsAll (.classBody superclass.isSome :: around) methods)

def Stmt.spotsAll (around : List Surrounding) : List Stmt → List Spot
  | [] => []
  | s :: ss => s.spots around ++ Stmt.spotsAll around ss

/-- The places of a function, seen from inside it. -/
def FunDecl.spots (around : List Surrounding) : FunDecl Stmt → List Spot
  | ⟨_, params, body⟩ => parameterSpots around [] params ++ Stmt.spotsAll around body

/-- The places of the methods of a class. -/
def FunDecl.spotsAll (around : List Surrounding) : List (FunDecl Stmt) → List Spot
  | [] => []
  | d :: ds => FunDecl.spots (.method d :: around) d ++ FunDecl.spotsAll around ds

end

/-! ## Uses of names -/

/-- A use of a name, with the scopes around it, the innermost first. -/
structure Usage where
  use : Use
  token : Token
  regions : List Region

/-- The use that stands at a place, if one does. -/
def Spot.usage? (spot : Spot) : Option Usage :=
  match spot.node with
  | .use use token => some ⟨use, token, Surrounding.regionsAll spot.around⟩
  | _ => none

namespace Usage

/-- The region binds the name that is used, where it is used. -/
def BoundBy (u : Usage) (region : Region) : Prop := region.Binds u.token.lexeme u.token.offset

instance (u : Usage) : DecidablePred u.BoundBy := fun region =>
  inferInstanceAs (Decidable (region.Binds u.token.lexeme u.token.offset))

/-- The innermost region that binds the name has `k` regions inside it. -/
def BoundAt (u : Usage) (k : Nat) : Prop :=
  (∃ region, u.regions[k]? = some region ∧ u.BoundBy region) ∧
    ∀ j < k, ∀ region, u.regions[j]? = some region → ¬ u.BoundBy region

/-- How many regions are inside the innermost one that binds the name. -/
def hops? (u : Usage) : Option Nat := u.regions.findIdx? fun region => decide (u.BoundBy region)

/-- The reference that the use is to be bound to. -/
def reference (u : Usage) : Use × Reference := (u.use, ⟨u.token, u.hops?⟩)

theorem hops?_eq_some {u : Usage} {k : Nat} : u.hops? = some k ↔ u.BoundAt k := by
  unfold hops? BoundAt
  rw [List.findIdx?_eq_some_iff_getElem]
  constructor
  · rintro ⟨hk, hb, hno⟩
    refine ⟨⟨u.regions[k], List.getElem?_eq_getElem hk, of_decide_eq_true hb⟩, fun j hj r hr => ?_⟩
    obtain ⟨hlt, rfl⟩ := List.getElem?_eq_some_iff.1 hr
    simpa using hno j hj
  · rintro ⟨⟨r, hr, hb⟩, hno⟩
    obtain ⟨hk, rfl⟩ := List.getElem?_eq_some_iff.1 hr
    refine ⟨hk, decide_eq_true hb, fun j hj => ?_⟩
    simpa using hno j hj _ (List.getElem?_eq_getElem (Nat.lt_trans hj hk))

theorem hops?_eq_none {u : Usage} : u.hops? = none ↔ ∀ region ∈ u.regions, ¬ u.BoundBy region := by
  simp [hops?, List.findIdx?_eq_none_iff]

end Usage

/-! ## Scopes that agree with the text -/

namespace Scopes

/-- The open scopes are those around a place: each binds the names that its region binds there. -/
def Agree (scopes : Scopes) (regions : List Region) (offset : Nat) : Prop :=
  List.Forall₂ (fun scope region => ∀ name, (scope.lookup name).isSome ↔ region.Binds name offset)
    scopes regions

/-- The scope binds the names of these tokens. -/
def Knows (scope : Scope) (names : List Token) : Prop :=
  ∀ name, (scope.lookup name).isSome ↔ ∃ d ∈ names, d.lexeme = name

theorem Agree.hops? {scopes : Scopes} {regions : List Region} {offset : Nat}
    (h : scopes.Agree regions offset) (name : String) :
    scopes.hops? name = regions.findIdx? fun region => decide (region.Binds name offset) := by
  induction h with
  | nil => rfl
  | cons hhead _ ih =>
    rw [Scopes.hops?, List.findIdx?_cons, ih]
    simp only [hhead name, decide_eq_true_eq]

theorem isSome_lookup_cons (scope : Scope) (d : Token) (ready : Bool) (name : String) :
    (List.lookup name ((d.lexeme, ready) :: scope)).isSome ↔
      d.lexeme = name ∨ (scope.lookup name).isSome := by
  rw [List.lookup_cons]
  cases hb : name == d.lexeme with
  | true => simp [(beq_iff_eq.1 hb).symm]
  | false => simp [(beq_eq_false_iff_ne.1 hb).symm]

/-- Whether a name is ready makes no difference to the names that are bound. -/
theorem Agree.declare_ready {scopes : Scopes} {regions : List Region} {offset : Nat} {name : Token}
    {ready : Bool} (h : (scopes.declare name ready).Agree regions offset) (ready' : Bool) :
    (scopes.declare name ready').Agree regions offset := by
  cases scopes with
  | nil => exact h
  | cons scope outer =>
    cases h with
    | cons hhead htail =>
      refine .cons (fun x => ?_) htail
      rw [isSome_lookup_cons scope name ready' x, ← isSome_lookup_cons scope name ready x]
      exact hhead x

theorem Knows.cons {scope : Scope} {names : List Token} (h : Knows scope names) (d : Token) :
    Knows ((d.lexeme, true) :: scope) (names ++ [d]) := by
  intro name
  rw [isSome_lookup_cons, h name]
  simp only [List.mem_append, List.mem_singleton, or_and_right, exists_or, exists_eq_left]
  exact or_comm

theorem foldl_declare {σ : Scopes} : ∀ (params : List Token) {scope : Scope} {names : List Token},
    Knows scope names → ∃ scope', Knows scope' (names ++ params) ∧
      params.foldl (fun scopes param => Scopes.declare scopes param true) (scope :: σ) = scope' :: σ
  | [], scope, names, h => ⟨scope, by rwa [List.append_nil], rfl⟩
  | p :: ps, scope, names, h => by
    obtain ⟨scope', hk, he⟩ := foldl_declare ps (h.cons p)
    exact ⟨scope', by simpa using hk, he⟩

/-- The scope of a function knows its parameters. -/
theorem exists_withParams (σ : Scopes) (params : List Token) :
    ∃ scope, Knows scope params ∧ σ.withParams params = scope :: σ := by
  have hempty : Knows [] [] := fun name => by simp
  exact foldl_declare params hempty

theorem Agree.withClass {scopes : Scopes} {regions : List Region} {offset : Nat}
    (h : scopes.Agree regions offset) (derived : Bool) :
    (scopes.withClass derived).Agree ((Surrounding.classBody derived).regions ++ regions)
      offset := by
  have hword (w name : String) :
      (List.lookup name ([(w, true)] : Scope)).isSome ↔ (Region.word w).Binds name offset := by
    by_cases hn : name = w
    · simp [hn, Region.Binds]
    · simp [lookup_word_of_ne hn, Region.Binds, hn]
  unfold Scopes.withClass
  cases derived with
  | true => exact .cons (hword "this") (.cons (hword "super") h)
  | false => exact .cons (hword "this") h

end Scopes

/-! ## Statements at their site -/

/-- The open scopes agree with the regions wherever a name stands in the statement: as they are
where it declares a name, and with that name added from there on. -/
def Stmt.Sited (σ : Scopes) (regions : List Region) (s : Stmt) : Prop :=
  (∀ d, s.name? = some d → σ.Agree regions d.offset) ∧
    ∀ x ∈ s.innerTokens, (s.declare σ).Agree regions x.offset

/-- Consecutive statements are sited, each in the scopes that the ones before it leave. -/
def Stmt.SitedAll (σ : Scopes) (regions : List Region) : List Stmt → Prop
  | [] => True
  | s :: ss => s.Sited σ regions ∧ Stmt.SitedAll (s.declare σ) regions ss

section
variable {σ : Scopes} {regions : List Region}

theorem Stmt.sited_iff {s : Stmt} (h : s.isDeclaration = false) :
    s.Sited σ regions ↔ ∀ x ∈ s.nameTokens, σ.Agree regions x.offset := by
  unfold Stmt.Sited
  rw [s.name?_eq_none h, s.innerTokens_eq h, Stmt.declare_of_not_isDeclaration h]
  exact and_iff_right fun d hd => by cases hd

theorem Stmt.declare_nil (s : Stmt) : s.declare [] = [] := by
  cases s <;> rfl

/-- At the top level there are no scopes to agree on. -/
theorem Stmt.sitedAll_nil (ss : List Stmt) : Stmt.SitedAll [] [] ss := by
  induction ss with
  | nil => trivial
  | cons s ss ih =>
    refine ⟨⟨fun _ _ => .nil, fun _ _ => ?_⟩, ?_⟩
    · rw [s.declare_nil]
      exact .nil
    · rw [s.declare_nil]
      exact ih

/-- Where the declarations of a body fall into those before a place and those after it, the body
binds the names of its parameters and of the former. -/
theorem Region.binds_body_iff {params seen later : List Token} {body : List Stmt} {offset : Nat}
    (hsplit : Stmt.declaredNames body = seen ++ later) (hseen : ∀ d ∈ seen, d.offset < offset)
    (hlater : ∀ d ∈ later, offset ≤ d.offset) (name : String) :
    (Region.body params body).Binds name offset ↔ ∃ d ∈ params ++ seen, d.lexeme = name := by
  simp only [Region.Binds, hsplit, List.mem_append, or_and_right, exists_or]
  refine or_congr_right ⟨?_, ?_⟩
  · rintro (⟨d, hd, hn, -⟩ | ⟨d, hd, -, hlt⟩)
    · exact ⟨d, hd, hn⟩
    · exact absurd hlt (Nat.not_lt.2 (hlater d hd))
  · rintro ⟨d, hd, hn⟩
    exact .inl ⟨d, hd, hn, hseen d hd⟩

theorem Stmt.declaredNames_cons (s : Stmt) (ss : List Stmt) :
    Stmt.declaredNames (s :: ss) = s.name?.toList ++ Stmt.declaredNames ss := by
  unfold Stmt.declaredNames
  cases hs : s.name? <;> simp [hs]

theorem Stmt.mem_declaredNames {ss : List Stmt} {d : Token} :
    d ∈ Stmt.declaredNames ss ↔ ∃ s ∈ ss, s.name? = some d := by
  simp [Stmt.declaredNames]

theorem Stmt.exists_declare (s : Stmt) {scope : Scope} {names : List Token}
    (h : Scopes.Knows scope names) : ∃ scope', Scopes.Knows scope' (names ++ s.name?.toList) ∧
      s.declare (scope :: σ) = scope' :: σ := by
  rw [Stmt.declare_eq]
  cases s.name? with
  | none => exact ⟨scope, by simpa using h, rfl⟩
  | some d => exact ⟨_, h.cons d, rfl⟩

/-- What is left of a body in order is sited, once its scope knows the parameters and the names
declared so far. -/
theorem Stmt.sitedAll_rest {params : List Token} {body : List Stmt} :
    ∀ (ss : List Stmt) {seen : List Token} {scope : Scope},
    Stmt.declaredNames body = seen ++ Stmt.declaredNames ss → Stmt.OrderedAll ss →
    (∀ d ∈ seen, ∀ x ∈ Stmt.nameTokensAll ss, d.offset < x.offset) →
    Scopes.Knows scope (params ++ seen) →
    (∀ x ∈ Stmt.nameTokensAll ss, σ.Agree regions x.offset) →
    Stmt.SitedAll (scope :: σ) (.body params body :: regions) ss
  | [], _, _, _, _, _, _, _ => trivial
  | s :: ss, seen, scope, hsplit, ⟨_, hleads, hprec, hss⟩, hseen, hknows, hout => by
    obtain ⟨scope', hknows', hdeclare⟩ := s.exists_declare (σ := σ) hknows
    have hlater : ∀ d ∈ Stmt.declaredNames ss, ∀ x ∈ s.nameTokens, x.offset < d.offset := by
      intro d hd x hx
      obtain ⟨s', hs', hn⟩ := Stmt.mem_declaredNames.1 hd
      exact (hprec s' hs').2 d hn x hx
    rw [Stmt.declaredNames_cons] at hsplit
    refine ⟨⟨fun d hd => ?_, fun x hx => ?_⟩, ?_⟩
    · -- where the name of the statement stands, it is not bound yet
      have hmem := Stmt.mem_nameTokens_of_name? hd
      rw [hd] at hsplit
      refine .cons (fun name => ?_) (hout d (List.mem_append_left _ hmem))
      rw [hknows name]
      refine (Region.binds_body_iff hsplit
        (fun d' hd' => hseen d' hd' d (List.mem_append_left _ hmem)) (fun d' hd' => ?_) name).symm
      rcases List.mem_cons.1 hd' with rfl | hd'
      · exact Nat.le_refl _
      · exact Nat.le_of_lt (hlater d' hd' d hmem)
    · have hmem : x ∈ s.nameTokens := by
        rw [s.nameTokens_eq]
        exact List.mem_append_right _ hx
      rw [hdeclare]
      refine .cons (fun name => ?_) (hout x (List.mem_append_left _ hmem))
      rw [hknows' name, List.append_assoc]
      rw [← List.append_assoc] at hsplit
      refine (Region.binds_body_iff hsplit (fun d' hd' => ?_)
        (fun d' hd' => Nat.le_of_lt (hlater d' hd' x hmem)) name).symm
      rcases List.mem_append.1 hd' with hd' | hd'
      · exact hseen d' hd' x (List.mem_append_left _ hmem)
      · exact hleads d' (Option.mem_toList.1 hd') x hx
    · rw [hdeclare]
      refine Stmt.sitedAll_rest ss (by rw [hsplit, List.append_assoc]) hss (fun d hd x hx => ?_)
        (by rwa [← List.append_assoc]) fun x hx => hout x (List.mem_append_right _ hx)
      rcases List.mem_append.1 hd with hd | hd
      · exact hseen d hd x (List.mem_append_right _ hx)
      · obtain ⟨s', hs', hx'⟩ := Stmt.mem_nameTokensAll.1 hx
        exact (hprec s' hs').1 d (Option.mem_toList.1 hd) x hx'

/-- **The statements of a body are sited**, if they are in the order of their text and the scopes
outside agree with the text. -/
theorem Stmt.sitedAll_body {params : List Token} {body : List Stmt} (ho : Stmt.OrderedAll body)
    (ha : ∀ x ∈ Stmt.nameTokensAll body, σ.Agree regions x.offset) :
    Stmt.SitedAll (σ.withParams params) (.body params body :: regions) body := by
  obtain ⟨scope, hknows, he⟩ := Scopes.exists_withParams σ params
  have hsplit : Stmt.declaredNames body = [] ++ Stmt.declaredNames body := rfl
  rw [he]
  exact Stmt.sitedAll_rest body hsplit ho (fun d hd => by cases hd) (by rwa [List.append_nil]) ha

end

/-! ## Trees in their place -/

/-- The statement is formed and in order, and the open scopes are those around it. -/
structure Stmt.Stands (σ : Scopes) (around : List Surrounding) (s : Stmt) : Prop where
  formed : s.Formed
  ordered : s.Ordered
  sited : s.Sited σ (Surrounding.regionsAll around)

structure Stmt.StandsAll (σ : Scopes) (around : List Surrounding) (ss : List Stmt) : Prop where
  formed : Stmt.FormedAll ss
  ordered : Stmt.OrderedAll ss
  sited : Stmt.SitedAll σ (Surrounding.regionsAll around) ss

/-- The function is formed and in order, and the open scopes are those around it. -/
structure FunDecl.Stands (σ : Scopes) (around : List Surrounding) (d : FunDecl Stmt) : Prop where
  formed : FunDecl.Formed d
  ordered : FunDecl.Ordered d
  agree : ∀ x ∈ Stmt.nameTokensAll d.body, σ.Agree (Surrounding.regionsAll around) x.offset

structure FunDecl.StandsAll (σ : Scopes) (around : List Surrounding) (ds : List (FunDecl Stmt)) :
    Prop where
  formed : FunDecl.FormedAll ds
  ordered : FunDecl.OrderedAll ds
  agree : ∀ x ∈ FunDecl.nameTokensAll ds, σ.Agree (Surrounding.regionsAll around) x.offset

/-- The inside of the function `d`. -/
def Surrounding.IsInside (d : FunDecl Stmt) (s : Surrounding) : Prop :=
  s = .function d ∨ s = .method d

section
variable {σ : Scopes} {around : List Surrounding}

theorem Stmt.Stands.agree {s : Stmt} (h : s.Stands σ around) (hd : s.isDeclaration = false) :
    ∀ x ∈ s.nameTokens, σ.Agree (Surrounding.regionsAll around) x.offset :=
  (Stmt.sited_iff hd).1 h.sited

theorem Stmt.stands_of_agree {s : Stmt} (hf : s.Formed ∧ s.isDeclaration = false) (ho : s.Ordered)
    (ha : ∀ x ∈ s.nameTokens, σ.Agree (Surrounding.regionsAll around) x.offset) :
    s.Stands σ around :=
  ⟨hf.1, ho, (Stmt.sited_iff hf.2).2 ha⟩

theorem Stmt.Stands.block {body : List Stmt} (h : (Stmt.block body).Stands σ around) :
    Stmt.StandsAll ([] :: σ) (.block body :: around) body := by
  have hs : Stmt.SitedAll (σ.withParams []) (.body [] body :: Surrounding.regionsAll around) body :=
    Stmt.sitedAll_body h.ordered (h.agree rfl)
  exact ⟨h.formed, h.ordered, hs⟩

theorem Stmt.Stands.ifThen {test : Expr} {yes : Stmt} (h : (Stmt.ifThen test yes).Stands σ around) :
    (∀ x ∈ test.nameTokens, σ.Agree (Surrounding.regionsAll around) x.offset) ∧
      yes.Stands σ around :=
  ⟨fun x hx => h.agree rfl x (List.mem_append_left _ hx),
    Stmt.stands_of_agree h.formed.2 h.ordered
      fun x hx => h.agree rfl x (List.mem_append_right _ hx)⟩

theorem Stmt.Stands.loop {test : Expr} {body : Stmt} (h : (Stmt.loop test body).Stands σ around) :
    (∀ x ∈ test.nameTokens, σ.Agree (Surrounding.regionsAll around) x.offset) ∧
      body.Stands σ around :=
  ⟨fun x hx => h.agree rfl x (List.mem_append_left _ hx),
    Stmt.stands_of_agree h.formed.2 h.ordered
      fun x hx => h.agree rfl x (List.mem_append_right _ hx)⟩

theorem Stmt.Stands.ifElse {test : Expr} {yes no : Stmt}
    (h : (Stmt.ifElse test yes no).Stands σ around) :
    (∀ x ∈ test.nameTokens, σ.Agree (Surrounding.regionsAll around) x.offset) ∧
      yes.Stands σ around ∧ no.Stands σ around :=
  ⟨fun x hx => h.agree rfl x (List.mem_append_left _ hx),
    Stmt.stands_of_agree h.formed.2.1 h.ordered.1
      fun x hx => h.agree rfl x (List.mem_append_right _ (List.mem_append_left _ hx)),
    Stmt.stands_of_agree h.formed.2.2 h.ordered.2
      fun x hx => h.agree rfl x (List.mem_append_right _ (List.mem_append_right _ hx))⟩

theorem Stmt.Stands.function {d : FunDecl Stmt} (h : (Stmt.function d).Stands σ around) :
    FunDecl.Stands (σ.declare d.name true) around d := by
  obtain ⟨name, params, body⟩ := d
  exact ⟨h.formed, h.ordered, fun x hx => h.sited.2 x (List.mem_append_right _ hx)⟩

/-- The superclass of a class stands outside the class, but the name of the class is bound there. -/
theorem Stmt.Stands.superclass {name : Token} {ref : Reference} {methods : List (FunDecl Stmt)}
    (h : (Stmt.classDecl name (some ref) methods).Stands σ around) :
    (σ.declare name true).Agree (Surrounding.regionsAll around) ref.token.offset :=
  h.sited.2 ref.token List.mem_cons_self

theorem Stmt.Stands.methods {name : Token} {superclass : Option Reference}
    {methods : List (FunDecl Stmt)} (h : (Stmt.classDecl name superclass methods).Stands σ around) :
    FunDecl.StandsAll ((σ.declare name true).withClass superclass.isSome)
      (.classBody superclass.isSome :: around) methods where
  formed := h.formed.2.2
  ordered := h.ordered
  agree := fun x hx => (h.sited.2 x (List.mem_append_right _ hx)).withClass superclass.isSome

theorem Stmt.StandsAll.cons {s : Stmt} {ss : List Stmt} (h : Stmt.StandsAll σ around (s :: ss)) :
    s.Stands σ around ∧ Stmt.StandsAll (s.declare σ) around ss :=
  ⟨⟨h.formed.1, h.ordered.1, h.sited.1⟩, ⟨h.formed.2, h.ordered.2.2.2, h.sited.2⟩⟩

theorem FunDecl.Stands.body {d : FunDecl Stmt} (h : FunDecl.Stands σ around d)
    {inside : Surrounding} (hi : inside.IsInside d) :
    Stmt.StandsAll (σ.withParams d.params) (inside :: around) d.body := by
  obtain ⟨name, params, body⟩ := d
  have hr : Surrounding.regionsAll (inside :: around) =
      .body params body :: Surrounding.regionsAll around := by
    rcases hi with rfl | rfl <;> rfl
  refine ⟨h.formed.2.2, h.ordered, ?_⟩
  rw [hr]
  exact Stmt.sitedAll_body h.ordered h.agree

theorem FunDecl.StandsAll.cons {d : FunDecl Stmt} {ds : List (FunDecl Stmt)}
    (h : FunDecl.StandsAll σ around (d :: ds)) :
    FunDecl.Stands σ around d ∧ FunDecl.StandsAll σ around ds := by
  obtain ⟨name, params, body⟩ := d
  exact ⟨⟨h.formed.1, h.ordered.1, fun x hx => h.agree x
      (List.mem_append_left _ (List.mem_cons_of_mem _ (List.mem_append_right _ hx)))⟩,
    ⟨h.formed.2, h.ordered.2, fun x hx => h.agree x (List.mem_append_right _ hx)⟩⟩

end

/-! ## Binding follows the text -/

section
variable {σ : Scopes} {around : List Surrounding}

/-- The uses that stand at the places of a tree. -/
def usages (spots : List Spot) : List Usage := spots.filterMap Spot.usage?

@[simp] theorem usages_append (spots spots' : List Spot) :
    usages (spots ++ spots') = usages spots ++ usages spots' :=
  List.filterMap_append

@[simp] theorem usages_cons_use (use : Use) (token : Token) (spots : List Spot) :
    usages (⟨.use use token, around⟩ :: spots) =
      ⟨use, token, Surrounding.regionsAll around⟩ :: usages spots :=
  rfl

theorem Reference.bind_eq {ref : Reference} (use : Use)
    (h : σ.Agree (Surrounding.regionsAll around) ref.token.offset) :
    (use, ref.bind σ) = Usage.reference ⟨use, ref.token, Surrounding.regionsAll around⟩ := by
  have hops : σ.hops? ref.name =
      Usage.hops? ⟨use, ref.token, Surrounding.regionsAll around⟩ := h.hops? ref.name
  simp only [Reference.bind, hops]
  rfl

theorem usages_parameterSpots : ∀ (earlier params : List Token),
    usages (parameterSpots around earlier params) = []
  | _, [] => rfl
  | earlier, p :: ps => usages_parameterSpots (earlier ++ [p]) ps

mutual

/-- The references of an expression are bound as the text shows. -/
theorem Expr.references_bind : ∀ e : Expr,
    (∀ x ∈ e.nameTokens, σ.Agree (Surrounding.regionsAll around) x.offset) →
    (e.bind σ).references = (usages (e.spots around)).map Usage.reference
  | .literal _, _ => rfl
  | .group inner, h => inner.references_bind h
  | .unary _ _ right, h => right.references_bind h
  | .binary _ _ left right, h | .logical _ _ left right, h => by
    have hl := left.references_bind fun x hx => h x (List.mem_append_left _ hx)
    have hr := right.references_bind fun x hx => h x (List.mem_append_right _ hx)
    simp only [Expr.bind, Expr.references, Expr.spots, usages_append, List.map_append, hl, hr]
  | .name ref, h => congrArg (fun r => [r]) (Reference.bind_eq .read (h _ List.mem_cons_self))
  | .assign ref value, h => by
    have hv := value.references_bind fun x hx => h x (List.mem_cons_of_mem _ hx)
    have href := Reference.bind_eq .assign (h _ List.mem_cons_self)
    simp only [Expr.bind, Expr.references, Expr.spots, usages_cons_use, List.map_cons, href, hv]
  | .call callee _ args, h => by
    have hc := callee.references_bind fun x hx => h x (List.mem_append_left _ hx)
    have ha := Expr.referencesAll_bindAll args fun x hx => h x (List.mem_append_right _ hx)
    simp only [Expr.bind, Expr.references, Expr.spots, usages_append, List.map_append, hc, ha]
  | .get object _, h => object.references_bind fun x hx => h x (List.mem_cons_of_mem _ hx)
  | .set object _ value, h => by
    have ho := object.references_bind
      fun x hx => h x (List.mem_cons_of_mem _ (List.mem_append_left _ hx))
    have hv := value.references_bind
      fun x hx => h x (List.mem_cons_of_mem _ (List.mem_append_right _ hx))
    simp only [Expr.bind, Expr.references, Expr.spots, usages_append, List.map_append, ho, hv]
  | .thisRef ref, h =>
    congrArg (fun r => [r]) (Reference.bind_eq .thisWord (h _ List.mem_cons_self))
  | .superRef ref _, h =>
    congrArg (fun r => [r]) (Reference.bind_eq .superWord (h _ List.mem_cons_self))

theorem Expr.referencesAll_bindAll : ∀ es : List Expr,
    (∀ x ∈ Expr.nameTokensAll es, σ.Agree (Surrounding.regionsAll around) x.offset) →
    Expr.referencesAll (Expr.bindAll σ es) =
      (usages (Expr.spotsAll around es)).map Usage.reference
  | [], _ => rfl
  | e :: es, h => by
    have he := e.references_bind fun x hx => h x (List.mem_append_left _ hx)
    have hes := Expr.referencesAll_bindAll es fun x hx => h x (List.mem_append_right _ hx)
    simp only [Expr.bindAll, Expr.referencesAll, Expr.spotsAll, usages_append, List.map_append, he,
      hes]

end

/-- The references of an expression that may be missing. -/
theorem Expr.references_bind_map {o : Option Expr}
    (h : ∀ x ∈ (o.map (·.nameTokens)).getD [], σ.Agree (Surrounding.regionsAll around) x.offset) :
    ((o.map (·.bind σ)).map (·.references)).getD [] =
      (usages ((o.map (·.spots around)).getD [])).map Usage.reference := by
  cases o with
  | none => rfl
  | some e => exact e.references_bind h

end

mutual

/-- The references of a statement in its place are bound as the text shows. -/
theorem Stmt.references_bind (σ : Scopes) (around : List Surrounding) : ∀ s : Stmt,
    s.Stands σ around → (s.bind σ).references = (usages (s.spots around)).map Usage.reference
  | .expression e, h | .print e, h => e.references_bind (h.agree rfl)
  | .var name init, h =>
    Expr.references_bind_map fun x hx => (h.sited.2 x hx).declare_ready false
  | .block body, h => Stmt.referencesAll_bindAll ([] :: σ) (.block body :: around) body h.block
  | .ifThen test yes, h => by
    have ht := test.references_bind h.ifThen.1
    have hy := yes.references_bind σ around h.ifThen.2
    simp only [Stmt.bind, Stmt.references, Stmt.spots, usages_append, List.map_append, ht, hy]
  | .ifElse test yes no, h => by
    have ht := test.references_bind h.ifElse.1
    have hy := yes.references_bind σ around h.ifElse.2.1
    have hn := no.references_bind σ around h.ifElse.2.2
    simp only [Stmt.bind, Stmt.references, Stmt.spots, usages_append, List.map_append, ht, hy, hn]
  | .loop test body, h => by
    have ht := test.references_bind h.loop.1
    have hb := body.references_bind σ around h.loop.2
    simp only [Stmt.bind, Stmt.references, Stmt.spots, usages_append, List.map_append, ht, hb]
  | .function d, h => FunDecl.references_bind (σ.declare d.name true) around d (.inl rfl) h.function
  | .ret _ value, h => Expr.references_bind_map (h.agree rfl)
  | .classDecl name superclass methods, h => by
    have hm := FunDecl.referencesAll_bindAll ((σ.declare name true).withClass superclass.isSome)
      (.classBody superclass.isSome :: around) methods h.methods
    cases superclass with
    | none => exact hm
    | some ref =>
      have href : (Use.read, ref.bind (σ.declare name true)) = _ :=
        Reference.bind_eq .read h.superclass
      exact congrArg₂ List.cons href hm

theorem Stmt.referencesAll_bindAll (σ : Scopes) (around : List Surrounding) : ∀ ss : List Stmt,
    Stmt.StandsAll σ around ss →
    Stmt.referencesAll (Stmt.bindAll σ ss) = (usages (Stmt.spotsAll around ss)).map Usage.reference
  | [], _ => rfl
  | s :: ss, h => by
    have hs := s.references_bind σ around h.cons.1
    have hss := Stmt.referencesAll_bindAll (s.declare σ) around ss h.cons.2
    simp only [Stmt.bindAll, Stmt.referencesAll, Stmt.spotsAll, usages_append, List.map_append, hs,
      hss]

theorem FunDecl.references_bind (σ : Scopes) (around : List Surrounding) : ∀ (d : FunDecl Stmt)
    {inside : Surrounding}, inside.IsInside d → FunDecl.Stands σ around d →
    FunDecl.references (FunDecl.bind σ d) =
      (usages (FunDecl.spots (inside :: around) d)).map Usage.reference
  | ⟨name, params, body⟩, inside, hi, h => by
    have hb := Stmt.referencesAll_bindAll (σ.withParams params) (inside :: around) body (h.body hi)
    simp only [FunDecl.bind, FunDecl.references, FunDecl.spots, usages_append,
      usages_parameterSpots, List.nil_append, hb]

theorem FunDecl.referencesAll_bindAll (σ : Scopes) (around : List Surrounding) :
    ∀ ds : List (FunDecl Stmt), FunDecl.StandsAll σ around ds →
    FunDecl.referencesAll (FunDecl.bindAll σ ds) =
      (usages (FunDecl.spotsAll around ds)).map Usage.reference
  | [], _ => rfl
  | d :: ds, h => by
    have hd := FunDecl.references_bind σ around d (.inr rfl) h.cons.1
    have hds := FunDecl.referencesAll_bindAll σ around ds h.cons.2
    simp only [FunDecl.bindAll, FunDecl.referencesAll, FunDecl.spotsAll, usages_append,
      List.map_append, hd, hds]

end

/-- The places of a program. -/
def Program.spots (p : Program) : List Spot := Stmt.spotsAll [] p.statements

/-- The uses of names in a program, with the scopes around each. -/
def Program.usages (p : Program) : List Usage := Lox.usages p.spots

/-- The statements of a source are in their place. -/
theorem Program.stands (source : String) : Stmt.StandsAll [] [] (compile source).statements :=
  ⟨(comes source).1, (comes source).2, Stmt.sitedAll_nil _⟩

end Lox

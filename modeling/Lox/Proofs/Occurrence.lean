import Lox.Proofs.Spelling

/-!
# The occurrences of a local variable

In a bound tree a reference says how many scopes out its name is bound. So once the scope that
declares a variable `d` is known, as a number of scopes out, the references to `d` are those with
that number and the name of `d`. `Stmt.names` goes through a tree with this number and gives every
name in it, each with whether it stands for `d`.

A name of the source stands at one place of the tree only (`Reads.linear`), and is an identifier
(`Reads.isName`).
-/

namespace Lox

/-! ## Local variables -/

/-- The variable that a statement declares in the scope it stands in. -/
def Stmt.declared? : Stmt → Option Token
  | .var name _ => some name
  | _ => none

/-- The variables that statements declare in the scope they stand in. -/
def Stmt.variables (body : List Stmt) : List Token := body.filterMap Stmt.declared?

mutual

/-- The variables that the blocks and functions in a statement declare, parameters included. -/
def Stmt.locals : Stmt → List Token
  | .block body => Stmt.variables body ++ Stmt.localsAll body
  | .ifThen _ yes => yes.locals
  | .ifElse _ yes no => yes.locals ++ no.locals
  | .loop _ body => body.locals
  | .function decl => FunDecl.locals decl
  | .classDecl _ _ methods => FunDecl.localsAll methods
  | .expression _ | .print _ | .var _ _ | .ret _ _ => []

def Stmt.localsAll : List Stmt → List Token
  | [] => []
  | s :: ss => s.locals ++ Stmt.localsAll ss

def FunDecl.locals : FunDecl Stmt → List Token
  | ⟨_, params, body⟩ => params ++ Stmt.variables body ++ Stmt.localsAll body

def FunDecl.localsAll : List (FunDecl Stmt) → List Token
  | [] => []
  | d :: ds => FunDecl.locals d ++ FunDecl.localsAll ds

end

/-! ## Names -/

/-- Where the scope of `d` is, seen from inside a scope that declares `vars`: one scope further out,
or the scope itself. -/
def inward (d : Token) (vars : List Token) : Option Nat → Option Nat
  | some k => some (k + 1)
  | none => if d ∈ vars then some 0 else none

/-- Whether a declared name is `d`, whose scope is `out` scopes out. -/
def Token.declares (d : Token) (out : Option Nat) (name : Token) : Bool :=
  out == some 0 && name == d

/-- Whether a reference is bound to `d`, whose scope is `out` scopes out. -/
def Reference.refersTo (d : Token) (out : Option Nat) (r : Reference) : Bool :=
  r.hops.isSome && r.hops == out && r.name == d.lexeme

section
variable (d : Token)

mutual

/-- The names in an expression, each with whether it stands for `d`. -/
def Expr.names (out : Option Nat) : Expr → List (Token × Bool)
  | .literal _ => []
  | .group inner => inner.names out
  | .unary _ _ right => right.names out
  | .binary _ _ left right => left.names out ++ right.names out
  | .logical _ _ left right => left.names out ++ right.names out
  | .name ref => [(ref.token, ref.refersTo d out)]
  | .assign ref value => (ref.token, ref.refersTo d out) :: value.names out
  | .call callee _ args => callee.names out ++ Expr.namesAll out args
  | .get object property => (property, false) :: object.names out
  | .set object property value => (property, false) :: (object.names out ++ value.names out)
  | .thisRef ref => [(ref.token, false)]
  | .superRef ref method => [(ref.token, false), (method, false)]

def Expr.namesAll (out : Option Nat) : List Expr → List (Token × Bool)
  | [] => []
  | e :: es => e.names out ++ Expr.namesAll out es

end

mutual

/-- The names in a statement, each with whether it stands for `d`. -/
def Stmt.names (out : Option Nat) : Stmt → List (Token × Bool)
  | .expression e => e.names d out
  | .print e => e.names d out
  | .var name init => (name, d.declares out name) :: (init.map (·.names d out)).getD []
  | .block body => Stmt.namesAll (inward d (Stmt.variables body) out) body
  | .ifThen test yes => test.names d out ++ yes.names out
  | .ifElse test yes no => test.names d out ++ (yes.names out ++ no.names out)
  | .loop test body => test.names d out ++ body.names out
  | .function decl => FunDecl.names out decl
  | .ret _ value => (value.map (·.names d out)).getD []
  | .classDecl name superclass methods =>
    (name, false) :: ((superclass.map fun ref => [(ref.token, ref.refersTo d out)]).getD [] ++
      FunDecl.namesAll (inward d [] (if superclass.isSome then inward d [] out else out)) methods)

def Stmt.namesAll (out : Option Nat) : List Stmt → List (Token × Bool)
  | [] => []
  | s :: ss => s.names out ++ Stmt.namesAll out ss

def FunDecl.names (out : Option Nat) : FunDecl Stmt → List (Token × Bool)
  | ⟨name, params, body⟩ =>
    let inner := inward d (params ++ Stmt.variables body) out
    (name, false) :: (params.map (fun p => (p, d.declares inner p)) ++ Stmt.namesAll inner body)

def FunDecl.namesAll (out : Option Nat) : List (FunDecl Stmt) → List (Token × Bool)
  | [] => []
  | f :: fs => FunDecl.names out f ++ FunDecl.namesAll out fs

end

end

/-- The local variables of a program. -/
def Program.locals (p : Program) : List Token := Stmt.localsAll p.bound

/-- The tokens of a program that stand for its local variable `d`: the declaration, and the
references bound to it. -/
def Program.occurrences (p : Program) (d : Token) : List Token :=
  ((Stmt.namesAll d none p.bound).filter (·.2)).map (·.1)

/-! ## Each name has one place -/

mutual

/-- The names in an expression. -/
def Expr.nameTokens : Expr → List Token
  | .literal _ => []
  | .group inner => inner.nameTokens
  | .unary _ _ right => right.nameTokens
  | .binary _ _ left right => left.nameTokens ++ right.nameTokens
  | .logical _ _ left right => left.nameTokens ++ right.nameTokens
  | .name ref => [ref.token]
  | .assign ref value => ref.token :: value.nameTokens
  | .call callee _ args => callee.nameTokens ++ Expr.nameTokensAll args
  | .get object property => property :: object.nameTokens
  | .set object property value => property :: (object.nameTokens ++ value.nameTokens)
  | .thisRef ref => [ref.token]
  | .superRef ref method => [ref.token, method]

def Expr.nameTokensAll : List Expr → List Token
  | [] => []
  | e :: es => e.nameTokens ++ Expr.nameTokensAll es

end

mutual

/-- The names in a statement. -/
def Stmt.nameTokens : Stmt → List Token
  | .expression e => e.nameTokens
  | .print e => e.nameTokens
  | .var name init => name :: (init.map (·.nameTokens)).getD []
  | .block body => Stmt.nameTokensAll body
  | .ifThen test yes => test.nameTokens ++ yes.nameTokens
  | .ifElse test yes no => test.nameTokens ++ (yes.nameTokens ++ no.nameTokens)
  | .loop test body => test.nameTokens ++ body.nameTokens
  | .function decl => FunDecl.nameTokens decl
  | .ret _ value => (value.map (·.nameTokens)).getD []
  | .classDecl name superclass methods =>
    name :: ((superclass.map fun ref => [ref.token]).getD [] ++ FunDecl.nameTokensAll methods)

def Stmt.nameTokensAll : List Stmt → List Token
  | [] => []
  | s :: ss => s.nameTokens ++ Stmt.nameTokensAll ss

def FunDecl.nameTokens : FunDecl Stmt → List Token
  | ⟨name, params, body⟩ => name :: (params ++ Stmt.nameTokensAll body)

def FunDecl.nameTokensAll : List (FunDecl Stmt) → List Token
  | [] => []
  | f :: fs => FunDecl.nameTokens f ++ FunDecl.nameTokensAll fs

end

namespace Grammar

/-- The names in the tree of a phrase. -/
def Phrase.yields : Phrase → List Token
  | .expression e | .operand _ e | .tighter _ e | .joined _ _ e | .unary e | .suffixes _ e
  | .primary e | .testInParens _ _ e => e.nameTokens
  | .arguments es | .moreArguments _ es => Expr.nameTokensAll es
  | .optionalExpression _ e => (e.map (·.nameTokens)).getD []
  | .varDecl stmt | .expressionStmt stmt | .printStmt stmt | .returnStmt _ stmt | .declaration stmt
  | .classDecl stmt | .statement stmt | .forStmt stmt | .ifStmt stmt => stmt.nameTokens
  | .forInit stmt => (stmt.map (·.nameTokens)).getD []
  | .moreParameters _ params | .parameters params => params
  | .methods ds => FunDecl.nameTokensAll ds
  | .function _ d => FunDecl.nameTokens d
  | .block body | .declarations body => Stmt.nameTokensAll body

/-- The names that have been read before a phrase and are part of its tree. -/
def Phrase.given : Phrase → List Token
  | .joined _ left _ => left.nameTokens
  | .suffixes head _ => head.nameTokens
  | _ => []

theorem Joint.nameTokens_join (joint : Joint) (token : Token) (left right : Expr) :
    (joint.join token left right).nameTokens = left.nameTokens ++ right.nameTokens := by
  cases joint <;> rfl

theorem count_nameTokens_forLoop (x : Token) (init : Option Stmt) (test update : Option Expr)
    (body : Stmt) :
    (Stmt.forLoop init test update body).nameTokens.count x =
      ((init.map (·.nameTokens)).getD []).count x + ((test.map (·.nameTokens)).getD []).count x +
        ((update.map (·.nameTokens)).getD []).count x + body.nameTokens.count x := by
  cases init <;> cases test <;> cases update <;>
    simp only [Stmt.forLoop, Stmt.nameTokens, Stmt.nameTokensAll, Expr.nameTokens, Option.map_none,
      Option.map_some, Option.getD_none, Option.getD_some, List.count_append, List.count_nil] <;>
    omega

/-- The rest of a name is spent: what is read and what is left are no more than what was there. -/
theorem Reads.linear {ph : Phrase} {ts rest : List Token} (h : Reads ph ts rest) (x : Token) :
    ph.yields.count x + rest.count x ≤ ph.given.count x + ts.count x := by
  induction h with
  | joinedMore =>
    simp only [Phrase.yields, Phrase.given, Joint.nameTokens_join, List.count_append,
      List.count_cons, List.count_nil] at *
    omega
  | forStmt =>
    simp only [Phrase.yields, Phrase.given, count_nameTokens_forLoop, List.count_cons,
      List.count_nil] at *
    omega
  | _ =>
    simp only [Phrase.yields, Phrase.given, Expr.nameTokens, Expr.nameTokensAll, Stmt.nameTokens,
      Stmt.nameTokensAll, FunDecl.nameTokens, FunDecl.nameTokensAll, Option.map_none,
      Option.map_some, Option.getD_none, Option.getD_some, List.count_append, List.count_cons,
      List.count_nil] at *
    omega

theorem mem_nameTokens_forLoop {x : Token} {init : Option Stmt} {test update : Option Expr}
    {body : Stmt} (h : x ∈ (Stmt.forLoop init test update body).nameTokens) :
    x ∈ (init.map (·.nameTokens)).getD [] ∨ x ∈ (test.map (·.nameTokens)).getD [] ∨
      x ∈ (update.map (·.nameTokens)).getD [] ∨ x ∈ body.nameTokens := by
  have hc := List.count_pos_iff.2 h
  rw [count_nameTokens_forLoop] at hc
  simp only [← List.count_pos_iff]
  omega

/-- Names are identifiers, but for the two words that only classes bind. -/
theorem Reads.isName {ph : Phrase} {ts rest : List Token} (h : Reads ph ts rest) {x : Token}
    (hi : x.kind ≠ .identifier) (ht : x.kind ≠ .kwThis) (hs : x.kind ≠ .kwSuper) :
    x ∈ ph.yields → x ∈ ph.given := by
  induction h with
  | joinedMore =>
    simp only [Phrase.yields, Phrase.given, Joint.nameTokens_join, List.mem_append] at *
    grind
  | forStmt =>
    simp only [Phrase.yields, Phrase.given] at *
    intro hx
    rcases mem_nameTokens_forLoop hx with hx | hx | hx | hx <;> grind
  | _ =>
    simp only [Phrase.yields, Phrase.given, Expr.nameTokens, Expr.nameTokensAll, Stmt.nameTokens,
      Stmt.nameTokensAll, FunDecl.nameTokens, FunDecl.nameTokensAll, Option.map_none,
      Option.map_some, Option.getD_none, Option.getD_some, List.mem_append, List.mem_cons,
      List.not_mem_nil] at *
    grind

end Grammar

/-! ## The names of a bound tree -/

section
variable (d : Token)

mutual

/-- Binding changes no name. -/
theorem Expr.map_names_bind (scopes : Scopes) (out : Option Nat) : ∀ e : Expr,
    ((e.bind scopes).names d out).map (·.1) = e.nameTokens
  | .literal _ => rfl
  | .group inner => Expr.map_names_bind scopes out inner
  | .unary _ _ right => Expr.map_names_bind scopes out right
  | .binary _ _ left right | .logical _ _ left right => by
    simp only [Expr.bind, Expr.names, Expr.nameTokens, List.map_append,
      Expr.map_names_bind scopes out left, Expr.map_names_bind scopes out right]
  | .name ref | .thisRef ref | .superRef ref _ => rfl
  | .assign ref value => congrArg (ref.token :: ·) (Expr.map_names_bind scopes out value)
  | .call callee _ args => by
    simp only [Expr.bind, Expr.names, Expr.nameTokens, List.map_append,
      Expr.map_names_bind scopes out callee, Expr.map_namesAll_bindAll scopes out args]
  | .get object property => congrArg (property :: ·) (Expr.map_names_bind scopes out object)
  | .set object property value => by
    simp only [Expr.bind, Expr.names, Expr.nameTokens, List.map_cons, List.map_append,
      Expr.map_names_bind scopes out object, Expr.map_names_bind scopes out value]

theorem Expr.map_namesAll_bindAll (scopes : Scopes) (out : Option Nat) : ∀ es : List Expr,
    (Expr.namesAll d out (Expr.bindAll scopes es)).map (·.1) = Expr.nameTokensAll es
  | [] => rfl
  | e :: es => by
    simp only [Expr.bindAll, Expr.namesAll, Expr.nameTokensAll, List.map_append,
      Expr.map_names_bind scopes out e, Expr.map_namesAll_bindAll scopes out es]

end

theorem Expr.map_names_bind_option (scopes : Scopes) (out : Option Nat) (o : Option Expr) :
    (((o.map (·.bind scopes)).map (·.names d out)).getD []).map (·.1) =
      (o.map (·.nameTokens)).getD [] := by
  cases o with
  | none => rfl
  | some e => exact Expr.map_names_bind d scopes out e

mutual

theorem Stmt.map_names_bind (scopes : Scopes) (out : Option Nat) : ∀ s : Stmt,
    ((s.bind scopes).names d out).map (·.1) = s.nameTokens
  | .expression e | .print e => Expr.map_names_bind d scopes out e
  | .var name init =>
    congrArg (name :: ·) (Expr.map_names_bind_option d (scopes.declare name false) out init)
  | .block body => Stmt.map_namesAll_bindAll ([] :: scopes) _ body
  | .ifThen test yes => by
    simp only [Stmt.bind, Stmt.names, Stmt.nameTokens, List.map_append,
      Expr.map_names_bind d scopes out test, Stmt.map_names_bind scopes out yes]
  | .ifElse test yes no => by
    simp only [Stmt.bind, Stmt.names, Stmt.nameTokens, List.map_append,
      Expr.map_names_bind d scopes out test, Stmt.map_names_bind scopes out yes,
      Stmt.map_names_bind scopes out no]
  | .loop test body => by
    simp only [Stmt.bind, Stmt.names, Stmt.nameTokens, List.map_append,
      Expr.map_names_bind d scopes out test, Stmt.map_names_bind scopes out body]
  | .function decl => FunDecl.map_names_bind (scopes.declare decl.name true) out decl
  | .ret _ value => Expr.map_names_bind_option d scopes out value
  | .classDecl name superclass methods => by
    simp only [Stmt.bind, Stmt.names, Stmt.nameTokens, List.map_cons, List.map_append,
      FunDecl.map_namesAll_bindAll _ _ methods]
    cases superclass <;> rfl

theorem Stmt.map_namesAll_bindAll (scopes : Scopes) (out : Option Nat) : ∀ ss : List Stmt,
    (Stmt.namesAll d out (Stmt.bindAll scopes ss)).map (·.1) = Stmt.nameTokensAll ss
  | [] => rfl
  | s :: ss => by
    simp only [Stmt.bindAll, Stmt.namesAll, Stmt.nameTokensAll, List.map_append,
      Stmt.map_names_bind scopes out s, Stmt.map_namesAll_bindAll (s.declare scopes) out ss]

theorem FunDecl.map_names_bind (scopes : Scopes) (out : Option Nat) : ∀ f : FunDecl Stmt,
    (FunDecl.names d out (FunDecl.bind scopes f)).map (·.1) = FunDecl.nameTokens f
  | ⟨name, params, body⟩ => by
    simp only [FunDecl.bind, FunDecl.names, FunDecl.nameTokens, List.map_cons, List.map_append,
      List.map_map, Stmt.map_namesAll_bindAll (scopes.withParams params) _ body]
    simp [Function.comp_def]

theorem FunDecl.map_namesAll_bindAll (scopes : Scopes) (out : Option Nat) :
    ∀ fs : List (FunDecl Stmt),
      (FunDecl.namesAll d out (FunDecl.bindAll scopes fs)).map (·.1) = FunDecl.nameTokensAll fs
  | [] => rfl
  | f :: fs => by
    simp only [FunDecl.bindAll, FunDecl.namesAll, FunDecl.nameTokensAll, List.map_append,
      FunDecl.map_names_bind scopes out f, FunDecl.map_namesAll_bindAll scopes out fs]

end

/-- The names of a list that stand for `d` are spelled like it. -/
def SpelledLike (names : List (Token × Bool)) : Prop := ∀ p ∈ names, p.2 = true → p.1.lexeme = d.lexeme

variable {d}

theorem spelledLike_nil : SpelledLike d [] := fun p hp => by cases hp

theorem SpelledLike.cons {t : Token} {b : Bool} {names : List (Token × Bool)}
    (hb : b = true → t.lexeme = d.lexeme) (h : SpelledLike d names) :
    SpelledLike d ((t, b) :: names) := by
  intro p hp hb'
  rcases List.mem_cons.1 hp with rfl | hp
  · exact hb hb'
  · exact h p hp hb'

theorem SpelledLike.append {names names' : List (Token × Bool)} (h : SpelledLike d names)
    (h' : SpelledLike d names') : SpelledLike d (names ++ names') :=
  fun p hp => (List.mem_append.1 hp).elim (h p) (h' p)

theorem SpelledLike.plain (t : Token) {names : List (Token × Bool)} (h : SpelledLike d names) :
    SpelledLike d ((t, false) :: names) :=
  h.cons fun hb => by cases hb

theorem SpelledLike.reference (r : Reference) (out : Option Nat) {names : List (Token × Bool)}
    (h : SpelledLike d names) : SpelledLike d ((r.token, r.refersTo d out) :: names) := by
  refine h.cons fun hb => ?_
  simp only [Reference.refersTo, Bool.and_eq_true, beq_iff_eq] at hb
  exact hb.2

theorem SpelledLike.declared (t : Token) (out : Option Nat) {names : List (Token × Bool)}
    (h : SpelledLike d names) : SpelledLike d ((t, d.declares out t) :: names) := by
  refine h.cons fun hb => ?_
  simp only [Token.declares, Bool.and_eq_true, beq_iff_eq] at hb
  rw [hb.2]

mutual

theorem Expr.spelledLike (out : Option Nat) : ∀ e : Expr, SpelledLike d (e.names d out)
  | .literal _ => spelledLike_nil
  | .group inner => Expr.spelledLike out inner
  | .unary _ _ right => Expr.spelledLike out right
  | .binary _ _ left right | .logical _ _ left right =>
    (Expr.spelledLike out left).append (Expr.spelledLike out right)
  | .name ref => spelledLike_nil.reference ref out
  | .assign ref value => (Expr.spelledLike out value).reference ref out
  | .call callee _ args => (Expr.spelledLike out callee).append (Expr.spelledLikeAll out args)
  | .get object property => (Expr.spelledLike out object).plain property
  | .set object property value =>
    ((Expr.spelledLike out object).append (Expr.spelledLike out value)).plain property
  | .thisRef ref => spelledLike_nil.plain ref.token
  | .superRef ref method => (spelledLike_nil.plain method).plain ref.token

theorem Expr.spelledLikeAll (out : Option Nat) : ∀ es : List Expr,
    SpelledLike d (Expr.namesAll d out es)
  | [] => spelledLike_nil
  | e :: es => (Expr.spelledLike out e).append (Expr.spelledLikeAll out es)

end

theorem Expr.spelledLike_option (out : Option Nat) (o : Option Expr) :
    SpelledLike d ((o.map (·.names d out)).getD []) := by
  cases o with
  | none => exact spelledLike_nil
  | some e => exact Expr.spelledLike out e

mutual

theorem Stmt.spelledLike (out : Option Nat) : ∀ s : Stmt, SpelledLike d (s.names d out)
  | .expression e | .print e => Expr.spelledLike out e
  | .var name init => (Expr.spelledLike_option out init).declared name out
  | .block body => Stmt.spelledLikeAll _ body
  | .ifThen test yes => (Expr.spelledLike out test).append (Stmt.spelledLike out yes)
  | .ifElse test yes no =>
    (Expr.spelledLike out test).append ((Stmt.spelledLike out yes).append (Stmt.spelledLike out no))
  | .loop test body => (Expr.spelledLike out test).append (Stmt.spelledLike out body)
  | .function decl => FunDecl.spelledLike out decl
  | .ret _ value => Expr.spelledLike_option out value
  | .classDecl name superclass methods => by
    refine SpelledLike.plain name (SpelledLike.append ?_ (FunDecl.spelledLikeAll _ methods))
    cases superclass with
    | none => exact spelledLike_nil
    | some ref => exact spelledLike_nil.reference ref out

theorem Stmt.spelledLikeAll (out : Option Nat) : ∀ ss : List Stmt,
    SpelledLike d (Stmt.namesAll d out ss)
  | [] => spelledLike_nil
  | s :: ss => (Stmt.spelledLike out s).append (Stmt.spelledLikeAll out ss)

theorem FunDecl.spelledLike (out : Option Nat) : ∀ f : FunDecl Stmt,
    SpelledLike d (FunDecl.names d out f)
  | ⟨name, params, body⟩ => by
    refine SpelledLike.plain name (SpelledLike.append (fun p hp hb => ?_) (Stmt.spelledLikeAll _ body))
    obtain ⟨q, -, rfl⟩ := List.mem_map.1 hp
    simp only [Token.declares, Bool.and_eq_true, beq_iff_eq] at hb
    rw [hb.2]

theorem FunDecl.spelledLikeAll (out : Option Nat) : ∀ fs : List (FunDecl Stmt),
    SpelledLike d (FunDecl.namesAll d out fs)
  | [] => spelledLike_nil
  | f :: fs => (FunDecl.spelledLike out f).append (FunDecl.spelledLikeAll out fs)

end

/-! ## A local variable stands for itself -/

theorem Token.declares_self (d : Token) : d.declares (some 0) d = true := by
  simp [Token.declares]

/-- The declaration is found in the scope that declares it. -/
theorem Stmt.mem_namesAll_of_mem_variables : ∀ {ss : List Stmt}, d ∈ Stmt.variables ss →
    (d, true) ∈ Stmt.namesAll d (some 0) ss
  | s :: ss, h => by
    have hcons : Stmt.variables (s :: ss) = s.declared?.toList ++ Stmt.variables ss := by
      cases s <;> rfl
    rw [hcons] at h
    rcases List.mem_append.1 h with h | h
    · cases s with
      | var name init =>
        cases List.mem_singleton.1 h
        simp [Stmt.namesAll, Stmt.names, Token.declares_self]
      | _ => cases h
    · exact List.mem_append_right _ (Stmt.mem_namesAll_of_mem_variables h)

mutual

theorem Stmt.mem_names_of_mem_locals : ∀ s : Stmt, d ∈ s.locals → (d, true) ∈ s.names d none
  | .block body, h => by
    by_cases hv : d ∈ Stmt.variables body
    · simp only [Stmt.names, inward, if_pos hv]
      exact Stmt.mem_namesAll_of_mem_variables hv
    · simp only [Stmt.names, inward, if_neg hv]
      exact Stmt.mem_namesAll_of_mem_localsAll body ((List.mem_append.1 h).resolve_left hv)
  | .ifThen _ yes, h => List.mem_append_right _ (Stmt.mem_names_of_mem_locals yes h)
  | .ifElse _ yes no, h => by
    refine List.mem_append_right _ (List.mem_append.2 ?_)
    exact (List.mem_append.1 h).imp (Stmt.mem_names_of_mem_locals yes)
      (Stmt.mem_names_of_mem_locals no)
  | .loop _ body, h => List.mem_append_right _ (Stmt.mem_names_of_mem_locals body h)
  | .function decl, h => FunDecl.mem_names_of_mem_locals decl h
  | .classDecl name superclass methods, h => by
    have hout : inward d [] (if superclass.isSome then inward d [] none else none) = none := by
      split <;> rfl
    simp only [Stmt.names, hout]
    exact List.mem_cons_of_mem _ (List.mem_append_right _
      (FunDecl.mem_namesAll_of_mem_localsAll methods h))

theorem Stmt.mem_namesAll_of_mem_localsAll : ∀ ss : List Stmt, d ∈ Stmt.localsAll ss →
    (d, true) ∈ Stmt.namesAll d none ss
  | s :: ss, h => by
    refine List.mem_append.2 ?_
    exact (List.mem_append.1 h).imp (Stmt.mem_names_of_mem_locals s)
      (Stmt.mem_namesAll_of_mem_localsAll ss)

theorem FunDecl.mem_names_of_mem_locals : ∀ f : FunDecl Stmt, d ∈ FunDecl.locals f →
    (d, true) ∈ FunDecl.names d none f
  | ⟨name, params, body⟩, h => by
    by_cases hv : d ∈ params ++ Stmt.variables body
    · simp only [FunDecl.names, inward, if_pos hv]
      refine List.mem_cons_of_mem _ (List.mem_append.2 ?_)
      refine (List.mem_append.1 hv).imp (fun hp => ?_) Stmt.mem_namesAll_of_mem_variables
      exact List.mem_map.2 ⟨d, hp, by rw [Token.declares_self]⟩
    · simp only [FunDecl.names, inward, if_neg hv]
      refine List.mem_cons_of_mem _ (List.mem_append_right _ ?_)
      exact Stmt.mem_namesAll_of_mem_localsAll body ((List.mem_append.1 h).resolve_left hv)

theorem FunDecl.mem_namesAll_of_mem_localsAll : ∀ fs : List (FunDecl Stmt),
    d ∈ FunDecl.localsAll fs → (d, true) ∈ FunDecl.namesAll d none fs
  | f :: fs, h => by
    refine List.mem_append.2 ?_
    exact (List.mem_append.1 h).imp (FunDecl.mem_names_of_mem_locals f)
      (FunDecl.mem_namesAll_of_mem_localsAll fs)

end

/-- A local variable is among its occurrences. -/
theorem Program.mem_occurrences {p : Program} (h : d ∈ p.locals) : d ∈ p.occurrences d := by
  refine List.mem_map.2 ⟨(d, true), List.mem_filter.2 ⟨?_, rfl⟩, rfl⟩
  exact Stmt.mem_namesAll_of_mem_localsAll p.bound h

end

end Lox

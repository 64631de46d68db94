import Lox.Proofs.Parsing

/-!
# Other tokens for a tree

`Expr.relabel φ` and `Stmt.relabel φ` put `φ t` in the place of each token `t` of a tree. The grammar
looks at the kinds of tokens and at the constants they spell, and at nothing else; so if `φ` keeps
both, a phrase that is read from some tokens is read, relabelled, from the relabelled tokens
(`Reads.relabel`).

The second part is about tokens that follow. A phrase that ends in a token of its own is read
whatever follows it, but for an `else` after an `if` without one (`Reads.append`).
-/

namespace Lox

/-! ## Trees -/

def Reference.relabel (φ : Token → Token) (r : Reference) : Reference := ⟨φ r.token, r.hops⟩

mutual

/-- The expression with other tokens. -/
def Expr.relabel (φ : Token → Token) : Expr → Expr
  | .literal c => .literal c
  | .group inner => .group (inner.relabel φ)
  | .unary op token right => .unary op (φ token) (right.relabel φ)
  | .binary op token left right => .binary op (φ token) (left.relabel φ) (right.relabel φ)
  | .logical op token left right => .logical op (φ token) (left.relabel φ) (right.relabel φ)
  | .name ref => .name (ref.relabel φ)
  | .assign ref value => .assign (ref.relabel φ) (value.relabel φ)
  | .call callee paren args => .call (callee.relabel φ) (φ paren) (Expr.relabelAll φ args)
  | .get object property => .get (object.relabel φ) (φ property)
  | .set object property value => .set (object.relabel φ) (φ property) (value.relabel φ)
  | .thisRef ref => .thisRef (ref.relabel φ)
  | .superRef ref method => .superRef (ref.relabel φ) (φ method)

def Expr.relabelAll (φ : Token → Token) : List Expr → List Expr
  | [] => []
  | e :: es => e.relabel φ :: Expr.relabelAll φ es

end

mutual

/-- The statement with other tokens. -/
def Stmt.relabel (φ : Token → Token) : Stmt → Stmt
  | .expression e => .expression (e.relabel φ)
  | .print e => .print (e.relabel φ)
  | .var name init => .var (φ name) (init.map (·.relabel φ))
  | .block body => .block (Stmt.relabelAll φ body)
  | .ifThen test yes => .ifThen (test.relabel φ) (yes.relabel φ)
  | .ifElse test yes no => .ifElse (test.relabel φ) (yes.relabel φ) (no.relabel φ)
  | .loop test body => .loop (test.relabel φ) (body.relabel φ)
  | .function decl => .function (FunDecl.relabel φ decl)
  | .ret keyword value => .ret (φ keyword) (value.map (·.relabel φ))
  | .classDecl name superclass methods =>
    .classDecl (φ name) (superclass.map (·.relabel φ)) (FunDecl.relabelAll φ methods)

def Stmt.relabelAll (φ : Token → Token) : List Stmt → List Stmt
  | [] => []
  | s :: ss => s.relabel φ :: Stmt.relabelAll φ ss

def FunDecl.relabel (φ : Token → Token) : FunDecl Stmt → FunDecl Stmt
  | ⟨name, params, body⟩ => ⟨φ name, params.map φ, Stmt.relabelAll φ body⟩

def FunDecl.relabelAll (φ : Token → Token) : List (FunDecl Stmt) → List (FunDecl Stmt)
  | [] => []
  | d :: ds => FunDecl.relabel φ d :: FunDecl.relabelAll φ ds

end

@[simp] theorem FunDecl.name_relabel (φ : Token → Token) (d : FunDecl Stmt) :
    (FunDecl.relabel φ d).name = φ d.name := by
  cases d
  rfl

@[simp] theorem FunDecl.params_relabel (φ : Token → Token) (d : FunDecl Stmt) :
    (FunDecl.relabel φ d).params = d.params.map φ := by
  cases d
  rfl

@[simp] theorem FunDecl.body_relabel (φ : Token → Token) (d : FunDecl Stmt) :
    (FunDecl.relabel φ d).body = Stmt.relabelAll φ d.body := by
  cases d
  rfl

section
variable (φ ψ : Token → Token)

/-! Other tokens twice are other tokens once. -/

theorem Reference.relabel_relabel (r : Reference) :
    (r.relabel ψ).relabel φ = r.relabel (φ ∘ ψ) := rfl

mutual

theorem Expr.relabel_relabel : ∀ e : Expr, (e.relabel ψ).relabel φ = e.relabel (φ ∘ ψ)
  | .literal _ | .name _ | .thisRef _ | .superRef _ _ => rfl
  | .group inner => by simp only [Expr.relabel, Expr.relabel_relabel inner]
  | .unary _ _ right => by
    simp only [Expr.relabel, Expr.relabel_relabel right, Function.comp_apply]
  | .binary _ _ left right | .logical _ _ left right => by
    simp only [Expr.relabel, Expr.relabel_relabel left, Expr.relabel_relabel right,
      Function.comp_apply]
  | .assign _ value => by
    simp only [Expr.relabel, Reference.relabel_relabel, Expr.relabel_relabel value]
  | .call callee _ args => by
    simp only [Expr.relabel, Expr.relabel_relabel callee, Expr.relabelAll_relabelAll args,
      Function.comp_apply]
  | .get object _ => by simp only [Expr.relabel, Expr.relabel_relabel object, Function.comp_apply]
  | .set object _ value => by
    simp only [Expr.relabel, Expr.relabel_relabel object, Expr.relabel_relabel value,
      Function.comp_apply]

theorem Expr.relabelAll_relabelAll : ∀ es : List Expr,
    Expr.relabelAll φ (Expr.relabelAll ψ es) = Expr.relabelAll (φ ∘ ψ) es
  | [] => rfl
  | e :: es => by
    simp only [Expr.relabelAll, Expr.relabel_relabel e, Expr.relabelAll_relabelAll es]

end

mutual

theorem Stmt.relabel_relabel : ∀ s : Stmt, (s.relabel ψ).relabel φ = s.relabel (φ ∘ ψ)
  | .expression e | .print e => by simp only [Stmt.relabel, e.relabel_relabel]
  | .var _ none | .ret _ none => rfl
  | .var _ (some e) | .ret _ (some e) => by
    simp only [Stmt.relabel, Option.map_some, e.relabel_relabel, Function.comp_apply]
  | .block body => by simp only [Stmt.relabel, Stmt.relabelAll_relabelAll body]
  | .ifThen test yes => by
    simp only [Stmt.relabel, test.relabel_relabel, Stmt.relabel_relabel yes]
  | .ifElse test yes no => by
    simp only [Stmt.relabel, test.relabel_relabel, Stmt.relabel_relabel yes,
      Stmt.relabel_relabel no]
  | .loop test body => by
    simp only [Stmt.relabel, test.relabel_relabel, Stmt.relabel_relabel body]
  | .function decl => by simp only [Stmt.relabel, FunDecl.relabel_relabel decl]
  | .classDecl _ superclass methods => by
    simp only [Stmt.relabel, FunDecl.relabelAll_relabelAll methods, Function.comp_apply]
    cases superclass <;> rfl

theorem Stmt.relabelAll_relabelAll : ∀ ss : List Stmt,
    Stmt.relabelAll φ (Stmt.relabelAll ψ ss) = Stmt.relabelAll (φ ∘ ψ) ss
  | [] => rfl
  | s :: ss => by
    simp only [Stmt.relabelAll, Stmt.relabel_relabel s, Stmt.relabelAll_relabelAll ss]

theorem FunDecl.relabel_relabel : ∀ d : FunDecl Stmt,
    FunDecl.relabel φ (FunDecl.relabel ψ d) = FunDecl.relabel (φ ∘ ψ) d
  | ⟨_, _, body⟩ => by
    simp only [FunDecl.relabel, List.map_map, Stmt.relabelAll_relabelAll body,
      Function.comp_apply]

theorem FunDecl.relabelAll_relabelAll : ∀ ds : List (FunDecl Stmt),
    FunDecl.relabelAll φ (FunDecl.relabelAll ψ ds) = FunDecl.relabelAll (φ ∘ ψ) ds
  | [] => rfl
  | d :: ds => by
    simp only [FunDecl.relabelAll, FunDecl.relabel_relabel d, FunDecl.relabelAll_relabelAll ds]

end

end

theorem Stmt.relabel_forLoop (φ : Token → Token) (init : Option Stmt) (test update : Option Expr)
    (body : Stmt) :
    (Stmt.forLoop init test update body).relabel φ =
      Stmt.forLoop (init.map (·.relabel φ)) (test.map (·.relabel φ)) (update.map (·.relabel φ))
        (body.relabel φ) := by
  cases init <;> cases test <;> cases update <;> rfl

namespace Grammar

/-! ## Phrases -/

def Phrase.relabel (φ : Token → Token) : Phrase → Phrase
  | .expression e => .expression (e.relabel φ)
  | .operand level e => .operand level (e.relabel φ)
  | .tighter level e => .tighter level (e.relabel φ)
  | .joined level left e => .joined level (left.relabel φ) (e.relabel φ)
  | .unary e => .unary (e.relabel φ)
  | .suffixes head e => .suffixes (head.relabel φ) (e.relabel φ)
  | .arguments es => .arguments (Expr.relabelAll φ es)
  | .moreArguments count es => .moreArguments count (Expr.relabelAll φ es)
  | .primary e => .primary (e.relabel φ)
  | .varDecl stmt => .varDecl (stmt.relabel φ)
  | .expressionStmt stmt => .expressionStmt (stmt.relabel φ)
  | .printStmt stmt => .printStmt (stmt.relabel φ)
  | .optionalExpression stop e => .optionalExpression stop (e.map (·.relabel φ))
  | .returnStmt keyword stmt => .returnStmt (φ keyword) (stmt.relabel φ)
  | .forInit stmt => .forInit (stmt.map (·.relabel φ))
  | .testInParens start stop e => .testInParens start stop (e.relabel φ)
  | .moreParameters count params => .moreParameters count (params.map φ)
  | .parameters params => .parameters (params.map φ)
  | .declaration stmt => .declaration (stmt.relabel φ)
  | .classDecl stmt => .classDecl (stmt.relabel φ)
  | .methods ds => .methods (FunDecl.relabelAll φ ds)
  | .function routine d => .function routine (FunDecl.relabel φ d)
  | .block body => .block (Stmt.relabelAll φ body)
  | .statement stmt => .statement (stmt.relabel φ)
  | .forStmt stmt => .forStmt (stmt.relabel φ)
  | .ifStmt stmt => .ifStmt (stmt.relabel φ)
  | .declarations stmts => .declarations (Stmt.relabelAll φ stmts)

theorem Joint.relabel_join (φ : Token → Token) (joint : Joint) (token : Token) (left right : Expr) :
    (joint.join token left right).relabel φ =
      joint.join (φ token) (left.relabel φ) (right.relabel φ) := by
  cases joint <;> rfl

/-- The relabelling keeps what the grammar looks at. -/
structure Faithful (φ : Token → Token) : Prop where
  kind : ∀ t, (φ t).kind = t.kind
  constant? : ∀ t, (φ t).constant? = t.constant?

theorem Faithful.headKind? {φ : Token → Token} (h : Faithful φ) (ts : List Token) :
    headKind? (ts.map φ) = headKind? ts := by
  cases ts with
  | nil => rfl
  | cons t ts => exact congrArg some (h.kind t)

section
variable {φ : Token → Token} (hφ : Faithful φ)
include hφ

theorem Faithful.head_eq {ts : List Token} {k : TokenKind} (h : Grammar.headKind? ts = some k) :
    Grammar.headKind? (ts.map φ) = some k := by
  rw [hφ.headKind?, h]

theorem Faithful.head_ne {ts : List Token} {k : TokenKind} (h : Grammar.headKind? ts ≠ some k) :
    Grammar.headKind? (ts.map φ) ≠ some k := by
  rw [hφ.headKind?]
  exact h

theorem Faithful.head_bind {α : Type} {ts : List Token} {f : TokenKind → Option α}
    (h : (Grammar.headKind? ts).bind f = none) : (Grammar.headKind? (ts.map φ)).bind f = none := by
  rw [hφ.headKind?, h]

theorem Faithful.is {t : Token} {k : TokenKind} (h : t.kind = k) : (φ t).kind = k :=
  (hφ.kind t).trans h

theorem Faithful.finds {α : Type} {t : Token} {f : TokenKind → Option α} {a : α}
    (h : f t.kind = some a) : f (φ t).kind = some a := by
  rw [hφ.kind, h]

/-- **Reading goes by kinds and constants.** -/
theorem Reads.relabel {ph : Phrase} {ts rest : List Token} (h : Reads ph ts rest) :
    Reads (ph.relabel φ) (ts.map φ) (rest.map φ) := by
  induction h with
  | plain _ hk ih => exact .plain ih (hφ.head_ne hk)
  | assignName _ hk _ ih₁ ih₂ => exact .assignName ih₁ (hφ.is hk) ih₂
  | assignProperty _ hk _ ih₁ ih₂ => exact .assignProperty ih₁ (hφ.is hk) ih₂
  | operand _ _ ih₁ ih₂ => exact .operand ih₁ ih₂
  | descend hl _ ih => exact .descend hl ih
  | tightest hl _ ih => exact .tightest hl ih
  | joinedStop hk => exact .joinedStop (hφ.head_bind hk)
  | @joinedMore _ joint token left right _ _ _ _ hk _ _ ih₁ ih₂ =>
    simp only [Phrase.relabel, joint.relabel_join φ] at ih₂
    exact .joinedMore (hφ.finds hk) ih₁ ih₂
  | prefixed hk _ ih => exact .prefixed (hφ.finds hk) ih
  | unprefixed hk _ _ ih₁ ih₂ => exact .unprefixed (hφ.head_bind hk) ih₁ ih₂
  | call hk _ hp _ ih₁ ih₂ => exact .call (hφ.is hk) ih₁ (hφ.is hp) ih₂
  | property hk hp _ ih => exact .property (hφ.is hk) (hφ.is hp) ih
  | suffixStop hp hd => exact .suffixStop (hφ.head_ne hp) (hφ.head_ne hd)
  | noArguments hk => exact .noArguments (hφ.head_eq hk)
  | someArguments hk _ ih => exact .someArguments (hφ.head_ne hk) ih
  | lastArgument hc _ hk ih => exact .lastArgument hc ih (hφ.head_ne hk)
  | nextArgument hc _ hk _ ih₁ ih₂ => exact .nextArgument hc ih₁ (hφ.is hk) ih₂
  | @constant t ts hk =>
    have hc : Reads (.primary (.literal ((φ t).constant?.getD .nil))) (φ t :: ts.map φ) (ts.map φ) :=
      .constant (hφ.finds hk)
    rwa [hφ.constant?] at hc
  | name hk => exact .name (hφ.is hk)
  | thisWord hk => exact .thisWord (hφ.is hk)
  | superWord hk hd hm => exact .superWord (hφ.is hk) (hφ.is hd) (hφ.is hm)
  | group hk _ hc ih => exact .group (hφ.is hk) ih (hφ.is hc)
  | varPlain hn hs => exact .varPlain (hφ.is hn) (hφ.is hs)
  | varInit hn he _ hs ih => exact .varInit (hφ.is hn) (hφ.is he) ih (hφ.is hs)
  | expressionStmt _ hs ih => exact .expressionStmt ih (hφ.is hs)
  | printStmt _ hs ih => exact .printStmt ih (hφ.is hs)
  | absent hk => exact .absent (hφ.head_eq hk)
  | present hk _ ih => exact .present (hφ.head_ne hk) ih
  | returnStmt _ hs ih => exact .returnStmt ih (hφ.is hs)
  | initNone hs => exact .initNone (hφ.is hs)
  | initVar hk _ ih => exact .initVar (hφ.is hk) ih
  | initExpression hs hv _ ih => exact .initExpression (hφ.head_ne hs) (hφ.head_ne hv) ih
  | testInParens ho _ hc ih => exact .testInParens (hφ.is ho) ih (hφ.is hc)
  | lastParameter hc hp hk => exact .lastParameter hc (hφ.is hp) (hφ.head_ne hk)
  | nextParameter hc hp hk _ ih => exact .nextParameter hc (hφ.is hp) (hφ.is hk) ih
  | noParameters hk => exact .noParameters (hφ.head_eq hk)
  | someParameters hk _ ih => exact .someParameters (hφ.head_ne hk) ih
  | classForm hk _ ih => exact .classForm (hφ.is hk) ih
  | funForm hk _ ih => exact .funForm (hφ.is hk) ih
  | varForm hk _ ih => exact .varForm (hφ.is hk) ih
  | statementForm hk _ ih => exact .statementForm (hφ.head_bind hk) ih
  | baseClass hn ho _ hc ih => exact .baseClass (hφ.is hn) (hφ.is ho) ih (hφ.is hc)
  | derivedClass hn hl hs ho _ hc ih =>
    exact .derivedClass (hφ.is hn) (hφ.is hl) (hφ.is hs) (hφ.is ho) ih (hφ.is hc)
  | noMethods hk =>
    refine .noMethods (hk.imp hφ.head_eq fun he => ?_)
    rw [he]
    rfl
  | nextMethod hk hne _ _ ih₁ ih₂ =>
    exact .nextMethod (hφ.head_ne hk) (by simpa using hne) ih₁ ih₂
  | function hn ho _ hc hb _ ih₁ ih₂ =>
    exact .function (hφ.is hn) (hφ.is ho) ih₁ (hφ.is hc) (hφ.is hb) ih₂
  | blockEnd hc => exact .blockEnd (hφ.is hc)
  | blockNext hk hne _ _ ih₁ ih₂ =>
    exact .blockNext (hφ.head_ne hk) (by simpa using hne) ih₁ ih₂
  | forForm hk _ ih => exact .forForm (hφ.is hk) ih
  | ifForm hk _ ih => exact .ifForm (hφ.is hk) ih
  | printForm hk _ ih => exact .printForm (hφ.is hk) ih
  | returnForm hk _ ih => exact .returnForm (hφ.is hk) ih
  | whileForm hk _ _ ih₁ ih₂ => exact .whileForm (hφ.is hk) ih₁ ih₂
  | blockForm hk _ ih => exact .blockForm (hφ.is hk) ih
  | expressionForm hk _ ih => exact .expressionForm (hφ.head_bind hk) ih
  | forStmt ho _ _ hs _ hc _ ih₁ ih₂ ih₃ ih₄ =>
    simp only [Phrase.relabel, Stmt.relabel_forLoop]
    exact .forStmt (hφ.is ho) ih₁ ih₂ (hφ.is hs) ih₃ (hφ.is hc) ih₄
  | ifThen _ _ hk ih₁ ih₂ => exact .ifThen ih₁ ih₂ (hφ.head_ne hk)
  | ifElse _ _ hk _ ih₁ ih₂ ih₃ => exact .ifElse ih₁ ih₂ (hφ.is hk) ih₃
  | finished => exact .finished
  | further hne _ _ ih₁ ih₂ => exact .further (by simpa using hne) ih₁ ih₂

end

/-! ## Tokens that follow -/

/-- The phrases that end in a token of their own. -/
def Phrase.isClosed : Phrase → Bool
  | .varDecl _ | .expressionStmt _ | .printStmt _ | .returnStmt _ _ | .forInit _
  | .testInParens _ _ _ | .declaration _ | .classDecl _ | .function _ _ | .block _ | .statement _
  | .forStmt _ | .ifStmt _ => true
  | _ => false

/-- The tokens `us` may follow a phrase that leaves `rest`: the next token is known already, or it
is not looked at. -/
def Phrase.Precedes (ph : Phrase) (rest us : List Token) : Prop :=
  rest ≠ [] ∨ ph.isClosed = true ∧ headKind? us ≠ some .kwElse

section
variable {us : List Token}

theorem headKind?_append {ts : List Token} (h : ts ≠ []) : headKind? (ts ++ us) = headKind? ts := by
  cases ts with
  | nil => exact absurd rfl h
  | cons t ts => rfl

theorem Past.ne_nil {k : Nat} {ts rest : List Token} (h : Past (k + 1) ts rest) : ts ≠ [] := by
  rintro rfl
  have := h.length
  simp at this

theorem Past.ne_nil_of_rest {k : Nat} {ts rest : List Token} (h : Past k ts rest)
    (hr : rest ≠ []) : ts ≠ [] := by
  rintro rfl
  exact hr (List.suffix_nil.1 h.suffix)

theorem Phrase.Precedes.ne_nil {ph : Phrase} {rest : List Token} (h : ph.Precedes rest us)
    (ho : ph.isClosed = false) : rest ≠ [] :=
  h.elim id fun hc => absurd hc.1 (by simp [ho])

/-- What may follow a phrase may follow a closed phrase at its end. -/
theorem Phrase.Precedes.last {ph : Phrase} {rest : List Token} (h : ph.Precedes rest us)
    {ph' : Phrase} (hc : ph'.isClosed = true) : ph'.Precedes rest us :=
  h.imp_right fun h => ⟨hc, h.2⟩

theorem head_ne_append {ts : List Token} {k : TokenKind} (hne : ts ≠ [])
    (h : headKind? ts ≠ some k) : headKind? (ts ++ us) ≠ some k := by
  rw [headKind?_append hne]
  exact h

theorem head_eq_append {ts : List Token} {k : TokenKind} (h : headKind? ts = some k) :
    headKind? (ts ++ us) = some k := by
  have hne : ts ≠ [] := by
    rintro rfl
    cases h
  rw [headKind?_append hne, h]

theorem head_bind_append {α : Type} {ts : List Token} {f : TokenKind → Option α} (hne : ts ≠ [])
    (h : (headKind? ts).bind f = none) : (headKind? (ts ++ us)).bind f = none := by
  rw [headKind?_append hne, h]

/-- A phrase is read whatever follows it. -/
theorem Reads.append {ph : Phrase} {ts rest : List Token} (h : Reads ph ts rest) :
    ph.Precedes rest us → Reads ph (ts ++ us) (rest ++ us) := by
  induction h with
  | plain _ hk ih =>
    intro hp
    exact .plain (ih (.inl (hp.ne_nil rfl))) (head_ne_append (hp.ne_nil rfl) hk)
  | assignName _ hk _ ih₁ ih₂ =>
    exact fun hp => .assignName (ih₁ (.inl (by simp))) hk (ih₂ (.inl (hp.ne_nil rfl)))
  | assignProperty _ hk _ ih₁ ih₂ =>
    exact fun hp => .assignProperty (ih₁ (.inl (by simp))) hk (ih₂ (.inl (hp.ne_nil rfl)))
  | operand _ hj ih₁ ih₂ =>
    intro hp
    have hr := hp.ne_nil rfl
    exact .operand (ih₁ (.inl (hj.past.ne_nil_of_rest hr))) (ih₂ (.inl hr))
  | descend hl _ ih => exact fun hp => .descend hl (ih (.inl (hp.ne_nil rfl)))
  | tightest hl _ ih => exact fun hp => .tightest hl (ih (.inl (hp.ne_nil rfl)))
  | joinedStop hk => exact fun hp => .joinedStop (head_bind_append (hp.ne_nil rfl) hk)
  | joinedMore hk _ hj ih₁ ih₂ =>
    intro hp
    have hr := hp.ne_nil rfl
    exact .joinedMore hk (ih₁ (.inl (hj.past.ne_nil_of_rest hr))) (ih₂ (.inl hr))
  | prefixed hk _ ih => exact fun hp => .prefixed hk (ih (.inl (hp.ne_nil rfl)))
  | unprefixed hk hh hs ih₁ ih₂ =>
    intro hp
    have hr := hp.ne_nil rfl
    exact .unprefixed (head_bind_append hh.past.ne_nil hk)
      (ih₁ (.inl (hs.past.ne_nil_of_rest hr))) (ih₂ (.inl hr))
  | call hk _ hp _ ih₁ ih₂ =>
    exact fun h => .call hk (ih₁ (.inl (by simp))) hp (ih₂ (.inl (h.ne_nil rfl)))
  | property hk hp _ ih => exact fun h => .property hk hp (ih (.inl (h.ne_nil rfl)))
  | suffixStop hp hd =>
    intro h
    have hr := h.ne_nil rfl
    exact .suffixStop (head_ne_append hr hp) (head_ne_append hr hd)
  | noArguments hk => exact fun _ => .noArguments (head_eq_append hk)
  | someArguments hk h ih =>
    exact fun hp => .someArguments (head_ne_append h.past.ne_nil hk) (ih (.inl (hp.ne_nil rfl)))
  | lastArgument hc _ hk ih =>
    intro hp
    have hr := hp.ne_nil rfl
    exact .lastArgument hc (ih (.inl hr)) (head_ne_append hr hk)
  | nextArgument hc _ hk _ ih₁ ih₂ =>
    exact fun hp => .nextArgument hc (ih₁ (.inl (by simp))) hk (ih₂ (.inl (hp.ne_nil rfl)))
  | constant hk => exact fun _ => .constant hk
  | name hk => exact fun _ => .name hk
  | thisWord hk => exact fun _ => .thisWord hk
  | superWord hk hd hm => exact fun _ => .superWord hk hd hm
  | group hk _ hc ih => exact fun _ => .group hk (ih (.inl (by simp))) hc
  | varPlain hn hs => exact fun _ => .varPlain hn hs
  | varInit hn he _ hs ih => exact fun _ => .varInit hn he (ih (.inl (by simp))) hs
  | expressionStmt _ hs ih => exact fun _ => .expressionStmt (ih (.inl (by simp))) hs
  | printStmt _ hs ih => exact fun _ => .printStmt (ih (.inl (by simp))) hs
  | absent hk => exact fun _ => .absent (head_eq_append hk)
  | present hk h ih =>
    exact fun hp => .present (head_ne_append h.past.ne_nil hk) (ih (.inl (hp.ne_nil rfl)))
  | returnStmt _ hs ih => exact fun _ => .returnStmt (ih (.inl (by simp))) hs
  | initNone hs => exact fun _ => .initNone hs
  | initVar hk _ ih => exact fun hp => .initVar hk (ih (hp.last rfl))
  | initExpression hs hv h ih =>
    have hne := h.past.ne_nil
    exact fun hp => .initExpression (head_ne_append hne hs) (head_ne_append hne hv) (ih (hp.last rfl))
  | testInParens ho _ hc ih => exact fun _ => .testInParens ho (ih (.inl (by simp))) hc
  | lastParameter hc hp hk =>
    exact fun h => .lastParameter hc hp (head_ne_append (h.ne_nil rfl) hk)
  | nextParameter hc hp hk _ ih =>
    exact fun h => .nextParameter hc hp hk (ih (.inl (h.ne_nil rfl)))
  | noParameters hk => exact fun _ => .noParameters (head_eq_append hk)
  | someParameters hk h ih =>
    exact fun hp => .someParameters (head_ne_append h.past.ne_nil hk) (ih (.inl (hp.ne_nil rfl)))
  | classForm hk _ ih => exact fun hp => .classForm hk (ih (hp.last rfl))
  | funForm hk _ ih => exact fun hp => .funForm hk (ih (hp.last rfl))
  | varForm hk _ ih => exact fun hp => .varForm hk (ih (hp.last rfl))
  | statementForm hk h ih =>
    exact fun hp => .statementForm (head_bind_append h.past.ne_nil hk) (ih (hp.last rfl))
  | baseClass hn ho _ hc ih => exact fun _ => .baseClass hn ho (ih (.inl (by simp))) hc
  | derivedClass hn hl hs ho _ hc ih =>
    exact fun _ => .derivedClass hn hl hs ho (ih (.inl (by simp))) hc
  | noMethods hk =>
    intro hp
    exact .noMethods (hk.imp head_eq_append fun he => absurd he (hp.ne_nil rfl))
  | nextMethod hk hne _ hm ih₁ ih₂ =>
    intro hp
    have hr := hp.ne_nil rfl
    exact .nextMethod (head_ne_append hne hk) (by simp [hne])
      (ih₁ (.inl (hm.past.ne_nil_of_rest hr))) (ih₂ (.inl hr))
  | function hn ho _ hc hb _ ih₁ ih₂ =>
    exact fun hp => .function hn ho (ih₁ (.inl (by simp))) hc hb (ih₂ (hp.last rfl))
  | blockEnd hc => exact fun _ => .blockEnd hc
  | blockNext hk hne _ hb ih₁ ih₂ =>
    exact fun hp => .blockNext (head_ne_append hne hk) (by simp [hne]) (ih₁ (.inl hb.past.ne_nil))
      (ih₂ (hp.last rfl))
  | forForm hk _ ih => exact fun hp => .forForm hk (ih (hp.last rfl))
  | ifForm hk _ ih => exact fun hp => .ifForm hk (ih (hp.last rfl))
  | printForm hk _ ih => exact fun hp => .printForm hk (ih (hp.last rfl))
  | returnForm hk _ ih => exact fun hp => .returnForm hk (ih (hp.last rfl))
  | whileForm hk _ hb ih₁ ih₂ =>
    exact fun hp => .whileForm hk (ih₁ (.inl hb.past.ne_nil)) (ih₂ (hp.last rfl))
  | blockForm hk _ ih => exact fun hp => .blockForm hk (ih (hp.last rfl))
  | expressionForm hk h ih =>
    exact fun hp => .expressionForm (head_bind_append h.past.ne_nil hk) (ih (hp.last rfl))
  | forStmt ho _ ht hs hu hc _ ih₁ ih₂ ih₃ ih₄ =>
    have hne := ht.past.ne_nil_of_rest (by simp)
    exact fun hp => .forStmt ho (ih₁ (.inl hne)) (ih₂ (.inl (by simp))) hs (ih₃ (.inl (by simp))) hc
      (ih₄ (hp.last rfl))
  | @ifThen _ _ _ _ rest _ hy hk ih₁ ih₂ =>
    intro hp
    refine .ifThen (ih₁ (.inl hy.past.ne_nil)) (ih₂ (hp.last rfl)) ?_
    rcases hp with hr | ⟨-, helse⟩
    · exact head_ne_append hr hk
    · cases rest with
      | nil => exact helse
      | cons t rest => exact hk
  | ifElse _ hy hk _ ih₁ ih₂ ih₃ =>
    exact fun hp => .ifElse (ih₁ (.inl hy.past.ne_nil)) (ih₂ (.inl (by simp))) hk (ih₃ (hp.last rfl))
  | finished => exact fun hp => absurd rfl (hp.ne_nil rfl)
  | further hne _ hd ih₁ ih₂ =>
    intro hp
    have hr := hp.ne_nil rfl
    exact .further (by simp [hne]) (ih₁ (.inl (hd.past.ne_nil_of_rest hr))) (ih₂ (.inl hr))

end

/-- The phrases that a statement can begin with. -/
def Phrase.isLeading : Phrase → Bool
  | .expression _ | .operand _ _ | .tighter _ _ | .unary _ | .primary _ | .expressionStmt _
  | .declaration _ | .statement _ => true
  | _ => false

/-- No statement begins with `else`. -/
theorem Reads.head_ne_else {ph : Phrase} {ts rest : List Token} (h : Reads ph ts rest) :
    ph.isLeading = true → headKind? ts ≠ some .kwElse := by
  have single : ∀ {t : Token} {ts : List Token} {k : TokenKind}, t.kind = k → k ≠ .kwElse →
      headKind? (t :: ts) ≠ some .kwElse := by
    intro t ts k hk hne he
    exact hne (hk.symm.trans (Option.some.inj he))
  have found : ∀ {α : Type} {f : TokenKind → Option α} {t : Token} {ts : List Token} {a : α},
      f t.kind = some a → f .kwElse = none → headKind? (t :: ts) ≠ some .kwElse := by
    intro α f t ts a ha hf he
    have hk : t.kind = .kwElse := Option.some.inj he
    rw [hk, hf] at ha
    cases ha
  induction h with
  | plain _ _ ih | descend _ _ ih | tightest _ _ ih | statementForm _ _ ih | expressionForm _ _ ih =>
    exact fun _ => ih rfl
  | assignName _ _ _ ih _ | assignProperty _ _ _ ih _ | operand _ _ ih _ | unprefixed _ _ _ ih _ =>
    exact fun _ => ih rfl
  | expressionStmt _ _ ih => exact fun _ => ih rfl
  | prefixed hk => exact fun _ => found hk rfl
  | constant hk => exact fun _ => found hk rfl
  | name hk | thisWord hk | superWord hk | group hk | classForm hk | funForm hk | varForm hk
  | forForm hk | ifForm hk | printForm hk | returnForm hk | whileForm hk | blockForm hk =>
    exact fun _ => single hk (by decide)
  | _ => exact fun hl => by cases hl

/-- Programs one after the other. -/
theorem Reads.declarations_append {stmts stmts' : List Stmt} {ts us : List Token}
    (h : Reads (.declarations stmts) ts []) (h' : Reads (.declarations stmts') us []) :
    Reads (.declarations (stmts ++ stmts')) (ts ++ us) [] := by
  have helse : headKind? us ≠ some .kwElse := by
    cases h' with
    | finished => exact fun he => by cases he
    | further _ hd _ => exact hd.head_ne_else rfl
  induction stmts generalizing ts with
  | nil =>
    cases h with
    | finished => exact h'
  | cons stmt stmts ih =>
    cases h with
    | further hne hd hds => exact .further (by simp [hne]) (hd.append (.inr ⟨rfl, helse⟩)) (ih hds)

end Grammar

end Lox

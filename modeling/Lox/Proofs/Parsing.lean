import Lox.Proofs.Depth

/-!
# What can be read is parsed

The rules of `Reads` and the parsers agree: if a phrase can be read, its parser reads it, reports
nothing, and leaves the tokens that the rules leave, once its depth is large enough
(`Reads.runs`). So parsing without a fault and reading are the same (`parse_eq_iff`).
-/

namespace Lox.Grammar

/-- The least number of tokens that a phrase takes. -/
@[simp] def Phrase.least : Phrase → Nat
  | .joined _ _ _ | .suffixes _ _ | .arguments _ | .optionalExpression _ _ | .parameters _
  | .methods _ | .declarations _ => 0
  | _ => 1

/-- `rest` is what is left of `ts` after at least `k` tokens. -/
structure Past (k : Nat) (ts rest : List Token) : Prop where
  suffix : rest <:+ ts
  length : rest.length + k ≤ ts.length

theorem Past.refl (ts : List Token) : Past 0 ts ts := ⟨List.suffix_refl ts, Nat.le_refl _⟩

theorem Past.mono {j k : Nat} {ts rest : List Token} (h : Past k ts rest) (hjk : j ≤ k) :
    Past j ts rest :=
  ⟨h.suffix, Nat.le_trans (Nat.add_le_add_left hjk _) h.length⟩

theorem Past.cons {k : Nat} {ts rest : List Token} (t : Token) (h : Past k ts rest) :
    Past (k + 1) (t :: ts) rest :=
  ⟨h.suffix.trans (List.suffix_cons t ts), by have := h.length; simp only [List.length_cons]; omega⟩

theorem Past.trans {j k : Nat} {ts us rest : List Token} (h : Past j ts us) (h' : Past k us rest) :
    Past (j + k) ts rest :=
  ⟨h'.suffix.trans h.suffix, by have := h.length; have := h'.length; omega⟩

theorem Past.tail {k : Nat} {t : Token} {ts rest : List Token} (h : Past k ts (t :: rest)) :
    Past (k + 1) ts rest :=
  h.trans ((Past.refl rest).cons t)

/-- A phrase takes its tokens from the front. -/
theorem Reads.past {ph : Phrase} {ts rest : List Token} (h : Reads ph ts rest) :
    Past ph.least ts rest := by
  induction h with
  | joinedStop | suffixStop | noArguments | absent | noParameters | noMethods | finished =>
    exact .refl _
  | plain _ _ ih | descend _ _ ih | tightest _ _ ih | lastArgument _ _ _ ih | initExpression _ _ _ ih
  | statementForm _ _ ih | expressionForm _ _ ih => exact ih
  | someArguments _ _ ih | present _ _ ih | someParameters _ _ ih => exact ih.mono (by simp [Phrase.least])
  | constant | name | thisWord | initNone | lastParameter | blockEnd => exact (Past.refl _).cons _
  | varPlain => exact (((Past.refl _).cons _).cons _).mono (by simp [Phrase.least])
  | superWord => exact ((((Past.refl _).cons _).cons _).cons _).mono (by simp [Phrase.least])
  | prefixed _ _ ih | initVar _ _ ih | classForm _ _ ih | funForm _ _ ih | varForm _ _ ih
  | forForm _ _ ih | ifForm _ _ ih | printForm _ _ ih | returnForm _ _ ih | blockForm _ _ ih =>
    exact (ih.cons _).mono (by simp [Phrase.least])
  | expressionStmt _ _ ih | printStmt _ _ ih | returnStmt _ _ ih => exact ih.tail.mono (by simp [Phrase.least])
  | group _ _ _ ih | testInParens _ _ _ ih => exact (ih.tail.cons _).mono (by simp [Phrase.least])
  | property _ _ _ ih | nextParameter _ _ _ _ ih => exact ((ih.cons _).cons _).mono (by simp [Phrase.least])
  | varInit _ _ _ _ ih | baseClass _ _ _ _ ih => exact ((ih.tail.cons _).cons _).mono (by simp [Phrase.least])
  | derivedClass _ _ _ _ _ _ ih =>
    exact ((((ih.tail.cons _).cons _).cons _).cons _).mono (by simp [Phrase.least])
  | operand _ _ ih₁ ih₂ | unprefixed _ _ _ ih₁ ih₂ | nextMethod _ _ _ _ ih₁ ih₂
  | blockNext _ _ _ _ ih₁ ih₂ | ifThen _ _ _ ih₁ ih₂ | further _ _ _ ih₁ ih₂ =>
    exact (ih₁.trans ih₂).mono (by simp [Phrase.least])
  | assignName _ _ _ ih₁ ih₂ | assignProperty _ _ _ ih₁ ih₂ | nextArgument _ _ _ _ ih₁ ih₂ =>
    exact (ih₁.tail.trans ih₂).mono (by simp [Phrase.least])
  | joinedMore _ _ _ ih₁ ih₂ | whileForm _ _ _ ih₁ ih₂ =>
    exact ((ih₁.trans ih₂).cons _).mono (by simp [Phrase.least])
  | call _ _ _ _ ih₁ ih₂ => exact ((ih₁.tail.trans ih₂).cons _).mono (by simp [Phrase.least])
  | function _ _ _ _ _ _ ih₁ ih₂ =>
    exact (((ih₁.tail.tail.trans ih₂).cons _).cons _).mono (by simp [Phrase.least])
  | forStmt _ _ _ _ _ _ _ ih₁ ih₂ ih₃ ih₄ =>
    exact ((ih₁.trans (ih₂.tail.trans (ih₃.tail.trans ih₄))).cons _).mono (by simp [Phrase.least])
  | ifElse _ _ _ _ ih₁ ih₂ ih₃ => exact (ih₁.trans (ih₂.tail.trans ih₃)).mono (by simp [Phrase.least])

/-! ## Single tokens -/

section
variable {t : Token} {ts : List Token} {eof : Token} {ds : List Diagnostic} {kind : TokenKind}

theorem accept_of_eq (h : t.kind = kind) :
    accept kind ⟨t :: ts, eof, ds⟩ = .ok (some t) ⟨ts, eof, ds⟩ := by
  simp only [accept, h, if_true]

theorem accept_of_ne (h : headKind? ts ≠ some kind) :
    accept kind ⟨ts, eof, ds⟩ = .ok none ⟨ts, eof, ds⟩ := by
  cases ts with
  | nil => rfl
  | cons t ts =>
    have hk : ¬ t.kind = kind := fun he => h (by rw [headKind?_cons, he])
    simp only [accept, hk, if_false]

theorem acceptMap_of_some {γ : Type} {f : TokenKind → Option γ} {g : γ} (h : f t.kind = some g) :
    acceptMap f ⟨t :: ts, eof, ds⟩ = .ok (some (g, t)) ⟨ts, eof, ds⟩ := by
  simp only [acceptMap, h]

theorem acceptMap_of_none {γ : Type} {f : TokenKind → Option γ}
    (h : (headKind? ts).bind f = none) :
    acceptMap f ⟨ts, eof, ds⟩ = .ok none ⟨ts, eof, ds⟩ := by
  cases ts with
  | nil => rfl
  | cons t ts =>
    have hf : f t.kind = none := h
    simp only [acceptMap, hf]

theorem expect_of_eq {e : Expected} (h : t.kind = kind) :
    expect kind e ⟨t :: ts, eof, ds⟩ = .ok t ⟨ts, eof, ds⟩ := by
  unfold expect
  rw [bind_ok (accept_of_eq h)]
  rfl

theorem check_of_eq (h : headKind? ts = some kind) :
    check kind ⟨ts, eof, ds⟩ = .ok true ⟨ts, eof, ds⟩ := by
  cases ts with
  | nil => cases h
  | cons t ts =>
    have hk : t.kind = kind := Option.some.inj h
    simp [check, hk]

theorem check_of_ne (h : headKind? ts ≠ some kind) :
    check kind ⟨ts, eof, ds⟩ = .ok false ⟨ts, eof, ds⟩ := by
  cases ts with
  | nil => rfl
  | cons t ts =>
    have hk : ¬ t.kind = kind := fun he => h (by rw [headKind?_cons, he])
    simp [check, hk]

theorem atEnd_of_ne (h : ts ≠ []) : atEnd ⟨ts, eof, ds⟩ = .ok false ⟨ts, eof, ds⟩ := by
  cases ts with
  | nil => exact absurd rfl h
  | cons t ts => rfl

end

/-! ## Phrases -/

/-- The depth that a phrase needs besides its tokens. -/
@[simp] def Phrase.cost : Phrase → Nat
  | .expression _ | .expressionStmt _ | .printStmt _ | .optionalExpression _ _ | .returnStmt _ _
  | .forInit _ => 15
  | .operand level _ => level.cost
  | .tighter level _ => level.cost - 1
  | .unary _ | .methods _ => 2
  | .arguments _ | .declaration _ => 17
  | .moreArguments _ _ | .statement _ => 16
  | .varDecl _ | .testInParens _ _ _ => 0
  | .block _ | .declarations _ => 18
  | _ => 1

/-- The parser of the phrase, with the depth `n`, gives its tree. -/
def Phrase.Runs (n : Nat) (c c' : Cursor) : Phrase → Prop
  | .expression e => Grammar.expression n c = .ok e c'
  | .operand level e => Grammar.operand n level c = .ok e c'
  | .tighter level e => Grammar.tighter n level c = .ok e c'
  | .joined level left e => Grammar.joined n level left c = .ok e c'
  | .unary e => Grammar.unary n c = .ok e c'
  | .suffixes head e => Grammar.suffixes n head c = .ok e c'
  | .arguments es => Grammar.arguments n c = .ok es c'
  | .moreArguments count es => Grammar.moreArguments n count c = .ok es c'
  | .primary e => Grammar.primary n c = .ok e c'
  | .varDecl stmt => Grammar.varDecl n c = .ok stmt c'
  | .expressionStmt stmt => Grammar.expressionStmt n c = .ok stmt c'
  | .printStmt stmt => Grammar.printStmt n c = .ok stmt c'
  | .optionalExpression stop e => Grammar.optionalExpression n stop c = .ok e c'
  | .returnStmt keyword stmt => Grammar.returnStmt n keyword c = .ok stmt c'
  | .forInit stmt => Grammar.forInit n c = .ok stmt c'
  | .testInParens start stop e => Grammar.testInParens n start stop c = .ok e c'
  | .moreParameters count params => Grammar.moreParameters n count c = .ok params c'
  | .parameters params => Grammar.parameters n c = .ok params c'
  | .declaration stmt => Grammar.declaration n c = .ok (some stmt) c'
  | .classDecl stmt => Grammar.classDecl n c = .ok stmt c'
  | .methods ds => Grammar.methods n c = .ok ds c'
  | .function routine d => Grammar.function n routine c = .ok d c'
  | .block body => Grammar.block n c = .ok body c'
  | .statement stmt => Grammar.statement n c = .ok stmt c'
  | .forStmt stmt => Grammar.forStmt n c = .ok stmt c'
  | .ifStmt stmt => Grammar.ifStmt n c = .ok stmt c'
  | .declarations stmts => Grammar.declarations n c = .ok stmts c'

/-- The parser of the phrase gives its tree and leaves `rest`, with any depth that is enough. -/
def Phrase.Parses (ph : Phrase) (ts rest : List Token) : Prop :=
  ∀ ⦃n eof ds⦄, 20 * ts.length + ph.cost ≤ n → ph.Runs n ⟨ts, eof, ds⟩ ⟨rest, eof, ds⟩

theorem parses_succ {ph : Phrase} {ts rest : List Token} {k : Nat} (hk : ph.cost = k + 1)
    (h : ∀ ⦃n eof ds⦄, 20 * ts.length + k ≤ n → ph.Runs (n + 1) ⟨ts, eof, ds⟩ ⟨rest, eof, ds⟩) :
    ph.Parses ts rest := by
  intro n eof ds hn
  obtain ⟨m, rfl⟩ : ∃ m, n = m + 1 := ⟨n - 1, by omega⟩
  exact h (by omega)

/-- The depth that is left for a phrase after some tokens. -/
theorem Past.depth {k c c' n : Nat} {ts us : List Token} (h : Past k ts us)
    (hn : 20 * ts.length + c ≤ n) (hc : c' ≤ c + 20 * k) : 20 * us.length + c' ≤ n := by
  have := h.length
  omega

/-! ## Expressions -/

section
variable {t : Token} {ts us rest : List Token}

theorem parses_plain {e : Expr} (h : Phrase.Parses (.operand .or e) ts rest)
    (hk : headKind? rest ≠ some .equal) : Phrase.Parses (.expression e) ts rest := by
  refine parses_succ rfl fun n eof ds hn => ?_
  change Grammar.expression (n + 1) _ = _
  unfold Grammar.expression
  rw [bind_ok (h hn), bind_ok (accept_of_ne hk)]
  rfl

/-- An assignment to a target that can be assigned to. -/
theorem parses_assign {target value e : Expr} {eq : Token} (hp : Past 1 ts (eq :: us))
    (h : Phrase.Parses (.operand .or target) ts (eq :: us)) (hk : eq.kind = .equal)
    (hv : Phrase.Parses (.expression value) us rest) (he : assignTo target eq value = pure e) :
    Phrase.Parses (.expression e) ts rest := by
  refine parses_succ rfl fun n eof ds hn => ?_
  change Grammar.expression (n + 1) _ = _
  unfold Grammar.expression
  rw [bind_ok (h hn), bind_ok (accept_of_eq hk)]
  simp only
  rw [bind_ok (hv (hp.tail.depth hn (by simp [Phrase.cost]))), he]
  rfl

theorem parses_operand {level : Level} {left e : Expr} (hp : Past 1 ts us)
    (hl : Phrase.Parses (.tighter level left) ts us)
    (hj : Phrase.Parses (.joined level left e) us rest) :
    Phrase.Parses (.operand level e) ts rest := by
  have hcost := level.le_cost
  have hk : (Phrase.operand level e).cost = level.cost - 1 + 1 := by simp only [Phrase.cost]; omega
  refine parses_succ hk fun n eof ds hn => ?_
  change Grammar.operand (n + 1) level _ = _
  unfold Grammar.operand
  rw [bind_ok (hl hn)]
  exact hj (hp.depth hn (by simp only [Phrase.cost]; omega))

theorem parses_descend {level level' : Level} {e : Expr} (hl : level.tighter? = some level')
    (h : Phrase.Parses (.operand level' e) ts rest) : Phrase.Parses (.tighter level e) ts rest := by
  have hcost := Level.cost_tighter hl
  have hle := level'.le_cost
  have hk : (Phrase.tighter level e).cost = level'.cost + 1 := by simp only [Phrase.cost]; omega
  refine parses_succ hk fun n eof ds hn => ?_
  change Grammar.tighter (n + 1) level _ = _
  simp only [Grammar.tighter, hl]
  exact h hn

theorem parses_tightest {level : Level} {e : Expr} (hl : level.tighter? = none)
    (h : Phrase.Parses (.unary e) ts rest) : Phrase.Parses (.tighter level e) ts rest := by
  have hcost := Level.cost_tightest hl
  have hk : (Phrase.tighter level e).cost = 2 + 1 := by simp only [Phrase.cost]; omega
  refine parses_succ hk fun n eof ds hn => ?_
  change Grammar.tighter (n + 1) level _ = _
  simp only [Grammar.tighter, hl]
  exact h hn

theorem parses_joinedStop {level : Level} {e : Expr}
    (hk : (headKind? ts).bind level.joint? = none) : Phrase.Parses (.joined level e e) ts ts := by
  refine parses_succ rfl fun n eof ds _ => ?_
  change Grammar.joined (n + 1) level e _ = _
  unfold Grammar.joined
  rw [bind_ok (acceptMap_of_none hk)]
  rfl

theorem parses_joinedMore {level : Level} {joint : Joint} {left right e : Expr} (hp : Past 1 ts us)
    (hk : level.joint? t.kind = some joint) (hr : Phrase.Parses (.tighter level right) ts us)
    (hj : Phrase.Parses (.joined level (joint.join t left right) e) us rest) :
    Phrase.Parses (.joined level left e) (t :: ts) rest := by
  have hcost := level.cost_le
  refine parses_succ rfl fun n eof ds hn => ?_
  change Grammar.joined (n + 1) level left _ = _
  unfold Grammar.joined
  rw [bind_ok (acceptMap_of_some hk)]
  simp only
  rw [bind_ok (hr (((Past.refl ts).cons t).depth hn (by simp only [Phrase.cost]; omega)))]
  exact hj ((hp.cons t).depth hn (by simp [Phrase.cost]))

theorem parses_prefixed {op : UnaryOp} {e : Expr} (hk : unaryOp? t.kind = some op)
    (h : Phrase.Parses (.unary e) ts rest) :
    Phrase.Parses (.unary (.unary op t e)) (t :: ts) rest := by
  refine parses_succ rfl fun n eof ds hn => ?_
  change Grammar.unary (n + 1) _ = _
  unfold Grammar.unary
  rw [bind_ok (acceptMap_of_some hk)]
  simp only
  rw [bind_ok (h (((Past.refl ts).cons t).depth hn (by simp [Phrase.cost])))]
  rfl

theorem parses_unprefixed {head e : Expr} (hk : (headKind? ts).bind unaryOp? = none)
    (hu : Past 1 ts us) (hp : Phrase.Parses (.primary head) ts us)
    (hs : Phrase.Parses (.suffixes head e) us rest) : Phrase.Parses (.unary e) ts rest := by
  refine parses_succ rfl fun n eof ds hn => ?_
  change Grammar.unary (n + 1) _ = _
  unfold Grammar.unary
  rw [bind_ok (acceptMap_of_none hk)]
  simp only
  rw [bind_ok (hp hn)]
  exact hs (hu.depth hn (by simp [Phrase.cost]))

theorem parses_call {head e : Expr} {args : List Expr} {paren : Token} (hk : t.kind = .leftParen)
    (hu : Past 0 ts (paren :: us)) (ha : Phrase.Parses (.arguments args) ts (paren :: us))
    (hp : paren.kind = .rightParen)
    (hs : Phrase.Parses (.suffixes (.call head paren args) e) us rest) :
    Phrase.Parses (.suffixes head e) (t :: ts) rest := by
  refine parses_succ rfl fun n eof ds hn => ?_
  change Grammar.suffixes (n + 1) head _ = _
  unfold Grammar.suffixes
  rw [bind_ok (accept_of_eq hk)]
  simp only
  rw [bind_ok (ha (((Past.refl ts).cons t).depth hn (by simp [Phrase.cost]))),
    bind_ok (expect_of_eq hp)]
  exact hs ((hu.tail.cons t).depth hn (by simp [Phrase.cost]))

theorem parses_property {head e : Expr} {property : Token} (hk : t.kind = .dot)
    (hp : property.kind = .identifier)
    (hs : Phrase.Parses (.suffixes (.get head property) e) ts rest) :
    Phrase.Parses (.suffixes head e) (t :: property :: ts) rest := by
  refine parses_succ rfl fun n eof ds hn => ?_
  change Grammar.suffixes (n + 1) head _ = _
  unfold Grammar.suffixes
  rw [bind_ok (accept_of_ne (by simp [hk]))]
  simp only
  rw [bind_ok (accept_of_eq hk)]
  simp only
  rw [bind_ok (expect_of_eq hp)]
  exact hs ((((Past.refl ts).cons property).cons t).depth hn (by simp [Phrase.cost]))

theorem parses_suffixStop {head : Expr} (hp : headKind? ts ≠ some .leftParen)
    (hd : headKind? ts ≠ some .dot) : Phrase.Parses (.suffixes head head) ts ts := by
  refine parses_succ rfl fun n eof ds _ => ?_
  change Grammar.suffixes (n + 1) head _ = _
  unfold Grammar.suffixes
  rw [bind_ok (accept_of_ne hp)]
  simp only
  rw [bind_ok (accept_of_ne hd)]
  rfl

theorem parses_noArguments (hk : headKind? ts = some .rightParen) :
    Phrase.Parses (.arguments []) ts ts := by
  refine parses_succ rfl fun n eof ds _ => ?_
  change Grammar.arguments (n + 1) _ = _
  unfold Grammar.arguments
  rw [bind_ok (check_of_eq hk)]
  rfl

theorem parses_someArguments {es : List Expr} (hk : headKind? ts ≠ some .rightParen)
    (h : Phrase.Parses (.moreArguments 0 es) ts rest) :
    Phrase.Parses (.arguments es) ts rest := by
  refine parses_succ rfl fun n eof ds hn => ?_
  change Grammar.arguments (n + 1) _ = _
  unfold Grammar.arguments
  rw [bind_ok (check_of_ne hk)]
  exact h hn

theorem parses_lastArgument {count : Nat} {e : Expr} (hc : count < maxArguments)
    (h : Phrase.Parses (.expression e) ts rest) (hk : headKind? rest ≠ some .comma) :
    Phrase.Parses (.moreArguments count [e]) ts rest := by
  refine parses_succ rfl fun n eof ds hn => ?_
  change Grammar.moreArguments (n + 1) count _ = _
  unfold Grammar.moreArguments
  simp only [Nat.not_le_of_lt hc, if_false]
  rw [bind_ok (h hn), bind_ok (accept_of_ne hk)]
  rfl

theorem parses_nextArgument {count : Nat} {e : Expr} {es : List Expr} (hc : count < maxArguments)
    (hp : Past 1 ts (t :: us)) (h : Phrase.Parses (.expression e) ts (t :: us))
    (hk : t.kind = .comma) (hm : Phrase.Parses (.moreArguments (count + 1) es) us rest) :
    Phrase.Parses (.moreArguments count (e :: es)) ts rest := by
  refine parses_succ rfl fun n eof ds hn => ?_
  change Grammar.moreArguments (n + 1) count _ = _
  unfold Grammar.moreArguments
  simp only [Nat.not_le_of_lt hc, if_false]
  rw [bind_ok (h hn), bind_ok (accept_of_eq hk)]
  simp only
  rw [bind_ok (hm (hp.tail.depth hn (by simp [Phrase.cost])))]
  rfl

theorem parses_constant (hk : start? t.kind = some .constant) :
    Phrase.Parses (.primary (.literal (t.constant?.getD .nil))) (t :: ts) ts := by
  refine parses_succ rfl fun n eof ds _ => ?_
  change Grammar.primary (n + 1) _ = _
  unfold Grammar.primary
  rw [bind_ok (acceptMap_of_some hk)]
  rfl

theorem parses_name (hk : t.kind = .identifier) :
    Phrase.Parses (.primary (.name ⟨t, none⟩)) (t :: ts) ts := by
  refine parses_succ rfl fun n eof ds _ => ?_
  change Grammar.primary (n + 1) _ = _
  unfold Grammar.primary
  rw [bind_ok (acceptMap_of_some (g := .name) (by rw [hk]; rfl))]
  rfl

theorem parses_thisWord (hk : t.kind = .kwThis) :
    Phrase.Parses (.primary (.thisRef ⟨t, none⟩)) (t :: ts) ts := by
  refine parses_succ rfl fun n eof ds _ => ?_
  change Grammar.primary (n + 1) _ = _
  unfold Grammar.primary
  rw [bind_ok (acceptMap_of_some (g := .thisWord) (by rw [hk]; rfl))]
  rfl

theorem parses_superWord {dot method : Token} (hk : t.kind = .kwSuper) (hd : dot.kind = .dot)
    (hm : method.kind = .identifier) :
    Phrase.Parses (.primary (.superRef ⟨t, none⟩ method)) (t :: dot :: method :: ts) ts := by
  refine parses_succ rfl fun n eof ds _ => ?_
  change Grammar.primary (n + 1) _ = _
  unfold Grammar.primary
  rw [bind_ok (acceptMap_of_some (g := .superWord) (by rw [hk]; rfl))]
  simp only
  rw [bind_ok (expect_of_eq hd), bind_ok (expect_of_eq hm)]
  rfl

theorem parses_group {e : Expr} {close : Token} (hk : t.kind = .leftParen)
    (h : Phrase.Parses (.expression e) ts (close :: rest)) (hc : close.kind = .rightParen) :
    Phrase.Parses (.primary (.group e)) (t :: ts) rest := by
  refine parses_succ rfl fun n eof ds hn => ?_
  change Grammar.primary (n + 1) _ = _
  unfold Grammar.primary
  rw [bind_ok (acceptMap_of_some (g := .paren) (by rw [hk]; rfl))]
  simp only
  rw [bind_ok (h (((Past.refl ts).cons t).depth hn (by simp [Phrase.cost]))),
    bind_ok (expect_of_eq hc)]
  rfl

/-! ## Statements without statements inside -/

theorem parses_varPlain {name semi : Token} (hn : name.kind = .identifier)
    (hs : semi.kind = .semicolon) :
    Phrase.Parses (.varDecl (.var name none)) (name :: semi :: ts) ts := by
  intro n eof ds _
  change Grammar.varDecl n _ = _
  unfold Grammar.varDecl
  rw [bind_ok (expect_of_eq hn), bind_ok (accept_of_ne (by simp [hs]))]
  simp only [pure_bind]
  rw [bind_ok (expect_of_eq hs)]
  rfl

theorem parses_varInit {name eq semi : Token} {e : Expr} (hn : name.kind = .identifier)
    (he : eq.kind = .equal) (h : Phrase.Parses (.expression e) ts (semi :: rest))
    (hs : semi.kind = .semicolon) :
    Phrase.Parses (.varDecl (.var name (some e))) (name :: eq :: ts) rest := by
  intro n eof ds hd
  change Grammar.varDecl n _ = _
  unfold Grammar.varDecl
  have hm : (some <$> Grammar.expression n) ⟨ts, eof, ds⟩ = .ok (some e) ⟨semi :: rest, eof, ds⟩ :=
    map_ok (h ((((Past.refl ts).cons eq).cons name).depth hd (by simp [Phrase.cost])))
  rw [bind_ok (expect_of_eq hn), bind_ok (accept_of_eq he)]
  simp only
  rw [bind_ok hm, bind_ok (expect_of_eq hs)]
  rfl

theorem parses_expressionStmt {e : Expr} {semi : Token}
    (h : Phrase.Parses (.expression e) ts (semi :: rest)) (hs : semi.kind = .semicolon) :
    Phrase.Parses (.expressionStmt (.expression e)) ts rest := by
  intro n eof ds hn
  change Grammar.expressionStmt n _ = _
  unfold Grammar.expressionStmt
  rw [bind_ok (h hn), bind_ok (expect_of_eq hs)]
  rfl

theorem parses_printStmt {e : Expr} {semi : Token}
    (h : Phrase.Parses (.expression e) ts (semi :: rest)) (hs : semi.kind = .semicolon) :
    Phrase.Parses (.printStmt (.print e)) ts rest := by
  intro n eof ds hn
  change Grammar.printStmt n _ = _
  unfold Grammar.printStmt
  rw [bind_ok (h hn), bind_ok (expect_of_eq hs)]
  rfl

theorem parses_absent {stop : TokenKind} (hk : headKind? ts = some stop) :
    Phrase.Parses (.optionalExpression stop none) ts ts := by
  intro n eof ds _
  change Grammar.optionalExpression n stop _ = _
  unfold Grammar.optionalExpression
  rw [bind_ok (check_of_eq hk)]
  rfl

theorem parses_present {stop : TokenKind} {e : Expr} (hk : headKind? ts ≠ some stop)
    (h : Phrase.Parses (.expression e) ts rest) :
    Phrase.Parses (.optionalExpression stop (some e)) ts rest := by
  intro n eof ds hn
  change Grammar.optionalExpression n stop _ = _
  unfold Grammar.optionalExpression
  rw [bind_ok (check_of_ne hk)]
  exact map_ok (h hn)

theorem parses_returnStmt {keyword semi : Token} {value : Option Expr}
    (h : Phrase.Parses (.optionalExpression .semicolon value) ts (semi :: rest))
    (hs : semi.kind = .semicolon) :
    Phrase.Parses (.returnStmt keyword (.ret keyword value)) ts rest := by
  intro n eof ds hn
  change Grammar.returnStmt n keyword _ = _
  unfold Grammar.returnStmt
  rw [bind_ok (h hn), bind_ok (expect_of_eq hs)]
  rfl

theorem parses_initNone {semi : Token} (hs : semi.kind = .semicolon) :
    Phrase.Parses (.forInit none) (semi :: ts) ts := by
  intro n eof ds _
  change Grammar.forInit n _ = _
  unfold Grammar.forInit
  rw [bind_ok (accept_of_eq hs)]
  rfl

theorem parses_initVar {stmt : Stmt} (hk : t.kind = .kwVar)
    (h : Phrase.Parses (.varDecl stmt) ts rest) :
    Phrase.Parses (.forInit (some stmt)) (t :: ts) rest := by
  intro n eof ds hn
  change Grammar.forInit n _ = _
  unfold Grammar.forInit
  rw [bind_ok (accept_of_ne (by simp [hk]))]
  simp only
  rw [bind_ok (accept_of_eq hk)]
  exact map_ok (h (((Past.refl ts).cons t).depth hn (by simp [Phrase.cost])))

theorem parses_initExpression {stmt : Stmt} (hs : headKind? ts ≠ some .semicolon)
    (hv : headKind? ts ≠ some .kwVar) (h : Phrase.Parses (.expressionStmt stmt) ts rest) :
    Phrase.Parses (.forInit (some stmt)) ts rest := by
  intro n eof ds hn
  change Grammar.forInit n _ = _
  unfold Grammar.forInit
  rw [bind_ok (accept_of_ne hs)]
  simp only
  rw [bind_ok (accept_of_ne hv)]
  exact map_ok (h hn)

theorem parses_testInParens {start stop : Expected} {openParen close : Token} {e : Expr}
    (ho : openParen.kind = .leftParen) (h : Phrase.Parses (.expression e) ts (close :: rest))
    (hc : close.kind = .rightParen) :
    Phrase.Parses (.testInParens start stop e) (openParen :: ts) rest := by
  intro n eof ds hn
  change Grammar.testInParens n start stop _ = _
  unfold Grammar.testInParens
  rw [bind_ok (expect_of_eq ho),
    bind_ok (h (((Past.refl ts).cons openParen).depth hn (by simp [Phrase.cost]))),
    bind_ok (expect_of_eq hc)]
  rfl

theorem parses_lastParameter {count : Nat} {param : Token} (hc : count < maxArguments)
    (hp : param.kind = .identifier) (hk : headKind? ts ≠ some .comma) :
    Phrase.Parses (.moreParameters count [param]) (param :: ts) ts := by
  refine parses_succ rfl fun n eof ds _ => ?_
  change Grammar.moreParameters (n + 1) count _ = _
  unfold Grammar.moreParameters
  simp only [Nat.not_le_of_lt hc, if_false]
  rw [bind_ok (expect_of_eq hp), bind_ok (accept_of_ne hk)]
  rfl

theorem parses_nextParameter {count : Nat} {param comma : Token} {params : List Token}
    (hc : count < maxArguments) (hp : param.kind = .identifier) (hk : comma.kind = .comma)
    (h : Phrase.Parses (.moreParameters (count + 1) params) ts rest) :
    Phrase.Parses (.moreParameters count (param :: params)) (param :: comma :: ts) rest := by
  refine parses_succ rfl fun n eof ds hn => ?_
  change Grammar.moreParameters (n + 1) count _ = _
  unfold Grammar.moreParameters
  simp only [Nat.not_le_of_lt hc, if_false]
  rw [bind_ok (expect_of_eq hp), bind_ok (accept_of_eq hk)]
  simp only
  rw [bind_ok (h ((((Past.refl ts).cons comma).cons param).depth hn (by simp [Phrase.cost])))]
  rfl

theorem parses_noParameters (hk : headKind? ts = some .rightParen) :
    Phrase.Parses (.parameters []) ts ts := by
  intro n eof ds _
  change Grammar.parameters n _ = _
  unfold Grammar.parameters
  rw [bind_ok (check_of_eq hk)]
  rfl

theorem parses_someParameters {params : List Token} (hk : headKind? ts ≠ some .rightParen)
    (h : Phrase.Parses (.moreParameters 0 params) ts rest) :
    Phrase.Parses (.parameters params) ts rest := by
  intro n eof ds hn
  change Grammar.parameters n _ = _
  unfold Grammar.parameters
  rw [bind_ok (check_of_ne hk)]
  exact h hn

/-! ## Statements and declarations -/

theorem recover_ok {α : Type} {x : Parser α} {c c' : Cursor} {a : α} (h : x c = .ok a c') :
    recover x c = .ok (some a) c' := by
  simp only [recover, h]

theorem parses_classForm {stmt : Stmt} (hk : t.kind = .kwClass)
    (h : Phrase.Parses (.classDecl stmt) ts rest) :
    Phrase.Parses (.declaration stmt) (t :: ts) rest := by
  refine parses_succ rfl fun n eof ds hn => recover_ok ?_
  rw [bind_ok (acceptMap_of_some (g := .classForm) (by rw [hk]; rfl))]
  exact h (((Past.refl ts).cons t).depth hn (by simp [Phrase.cost]))

theorem parses_funForm {d : FunDecl Stmt} (hk : t.kind = .kwFun)
    (h : Phrase.Parses (.function .function d) ts rest) :
    Phrase.Parses (.declaration (.function d)) (t :: ts) rest := by
  refine parses_succ rfl fun n eof ds hn => recover_ok ?_
  rw [bind_ok (acceptMap_of_some (g := .funForm) (by rw [hk]; rfl))]
  exact map_ok (h (((Past.refl ts).cons t).depth hn (by simp [Phrase.cost])))

theorem parses_varForm {stmt : Stmt} (hk : t.kind = .kwVar)
    (h : Phrase.Parses (.varDecl stmt) ts rest) :
    Phrase.Parses (.declaration stmt) (t :: ts) rest := by
  refine parses_succ rfl fun n eof ds hn => recover_ok ?_
  rw [bind_ok (acceptMap_of_some (g := .varForm) (by rw [hk]; rfl))]
  exact h (((Past.refl ts).cons t).depth hn (by simp [Phrase.cost]))

theorem parses_statementForm {stmt : Stmt} (hk : (headKind? ts).bind declarationForm? = none)
    (h : Phrase.Parses (.statement stmt) ts rest) : Phrase.Parses (.declaration stmt) ts rest := by
  refine parses_succ rfl fun n eof ds hn => recover_ok ?_
  rw [bind_ok (acceptMap_of_none hk)]
  exact h hn

theorem parses_baseClass {name openBrace close : Token} {methods : List (FunDecl Stmt)}
    (hn : name.kind = .identifier) (ho : openBrace.kind = .leftBrace)
    (h : Phrase.Parses (.methods methods) ts (close :: rest)) (hc : close.kind = .rightBrace) :
    Phrase.Parses (.classDecl (.classDecl name none methods)) (name :: openBrace :: ts) rest := by
  refine parses_succ rfl fun n eof ds hd => ?_
  change Grammar.classDecl (n + 1) _ = _
  unfold Grammar.classDecl
  rw [bind_ok (expect_of_eq hn), bind_ok (accept_of_ne (by simp [ho]))]
  simp only [pure_bind]
  rw [bind_ok (expect_of_eq ho),
    bind_ok (h ((((Past.refl ts).cons openBrace).cons name).depth hd (by simp [Phrase.cost]))),
    bind_ok (expect_of_eq hc)]
  rfl

theorem parses_derivedClass {name less super openBrace close : Token}
    {methods : List (FunDecl Stmt)} (hn : name.kind = .identifier) (hl : less.kind = .less)
    (hs : super.kind = .identifier) (ho : openBrace.kind = .leftBrace)
    (h : Phrase.Parses (.methods methods) ts (close :: rest)) (hc : close.kind = .rightBrace) :
    Phrase.Parses (.classDecl (.classDecl name (some ⟨super, none⟩) methods))
      (name :: less :: super :: openBrace :: ts) rest := by
  refine parses_succ rfl fun n eof ds hd => ?_
  change Grammar.classDecl (n + 1) _ = _
  unfold Grammar.classDecl
  rw [bind_ok (expect_of_eq hn), bind_ok (accept_of_eq hl)]
  simp only
  rw [bind_ok (map_ok (expect_of_eq hs)), bind_ok (expect_of_eq ho),
    bind_ok (h ((((((Past.refl ts).cons openBrace).cons super).cons less).cons name).depth hd
      (by simp [Phrase.cost]))), bind_ok (expect_of_eq hc)]
  rfl

theorem parses_noMethods (hk : headKind? ts = some .rightBrace ∨ ts = []) :
    Phrase.Parses (.methods []) ts ts := by
  refine parses_succ rfl fun n eof ds _ => ?_
  change Grammar.methods (n + 1) _ = _
  unfold Grammar.methods
  rcases hk with hk | rfl
  · rw [bind_ok (check_of_eq hk)]
    rfl
  · rfl

theorem parses_nextMethod {d : FunDecl Stmt} {ds : List (FunDecl Stmt)}
    (hk : headKind? ts ≠ some .rightBrace) (hne : ts ≠ []) (hp : Past 1 ts us)
    (h : Phrase.Parses (.function .method d) ts us) (hm : Phrase.Parses (.methods ds) us rest) :
    Phrase.Parses (.methods (d :: ds)) ts rest := by
  refine parses_succ rfl fun n eof faults hn => ?_
  change Grammar.methods (n + 1) _ = _
  unfold Grammar.methods
  rw [bind_ok (check_of_ne hk), bind_ok (atEnd_of_ne hne)]
  simp only [Bool.or_self, Bool.false_eq_true, if_false]
  rw [bind_ok (h hn), bind_ok (hm (hp.depth hn (by simp [Phrase.cost])))]
  rfl

theorem parses_function {routine : Routine} {name openParen close openBrace : Token}
    {params : List Token} {body : List Stmt} (hn : name.kind = .identifier)
    (ho : openParen.kind = .leftParen) (hu : Past 0 ts (close :: openBrace :: us))
    (hp : Phrase.Parses (.parameters params) ts (close :: openBrace :: us))
    (hc : close.kind = .rightParen) (hb : openBrace.kind = .leftBrace)
    (h : Phrase.Parses (.block body) us rest) :
    Phrase.Parses (.function routine ⟨name, params, body⟩) (name :: openParen :: ts) rest := by
  refine parses_succ rfl fun n eof ds hd => ?_
  change Grammar.function (n + 1) routine _ = _
  unfold Grammar.function
  rw [bind_ok (expect_of_eq hn), bind_ok (expect_of_eq ho),
    bind_ok (hp ((((Past.refl ts).cons openParen).cons name).depth hd (by simp [Phrase.cost]))),
    bind_ok (expect_of_eq hc), bind_ok (expect_of_eq hb),
    bind_ok (h (((hu.tail.tail.cons openParen).cons name).depth hd (by simp [Phrase.cost])))]
  rfl

theorem parses_blockEnd {close : Token} (hc : close.kind = .rightBrace) :
    Phrase.Parses (.block []) (close :: ts) ts := by
  refine parses_succ rfl fun n eof ds _ => ?_
  change Grammar.block (n + 1) _ = _
  unfold Grammar.block
  rw [bind_ok (check_of_eq (by simp [hc])), bind_ok (atEnd_of_ne (by simp))]
  simp only [Bool.true_or, if_true]
  rw [bind_ok (expect_of_eq hc)]
  rfl

theorem parses_blockNext {stmt : Stmt} {body : List Stmt} (hk : headKind? ts ≠ some .rightBrace)
    (hne : ts ≠ []) (hp : Past 1 ts us) (h : Phrase.Parses (.declaration stmt) ts us)
    (hb : Phrase.Parses (.block body) us rest) : Phrase.Parses (.block (stmt :: body)) ts rest := by
  refine parses_succ rfl fun n eof ds hn => ?_
  change Grammar.block (n + 1) _ = _
  unfold Grammar.block
  rw [bind_ok (check_of_ne hk), bind_ok (atEnd_of_ne hne)]
  simp only [Bool.or_self, Bool.false_eq_true, if_false]
  rw [bind_ok (h hn), bind_ok (hb (hp.depth hn (by simp [Phrase.cost])))]
  rfl

theorem parses_forForm {stmt : Stmt} (hk : t.kind = .kwFor)
    (h : Phrase.Parses (.forStmt stmt) ts rest) :
    Phrase.Parses (.statement stmt) (t :: ts) rest := by
  refine parses_succ rfl fun n eof ds hn => ?_
  change Grammar.statement (n + 1) _ = _
  unfold Grammar.statement
  rw [bind_ok (acceptMap_of_some (g := .forForm) (by rw [hk]; rfl))]
  exact h (((Past.refl ts).cons t).depth hn (by simp [Phrase.cost]))

theorem parses_ifForm {stmt : Stmt} (hk : t.kind = .kwIf)
    (h : Phrase.Parses (.ifStmt stmt) ts rest) :
    Phrase.Parses (.statement stmt) (t :: ts) rest := by
  refine parses_succ rfl fun n eof ds hn => ?_
  change Grammar.statement (n + 1) _ = _
  unfold Grammar.statement
  rw [bind_ok (acceptMap_of_some (g := .ifForm) (by rw [hk]; rfl))]
  exact h (((Past.refl ts).cons t).depth hn (by simp [Phrase.cost]))

theorem parses_printForm {stmt : Stmt} (hk : t.kind = .kwPrint)
    (h : Phrase.Parses (.printStmt stmt) ts rest) :
    Phrase.Parses (.statement stmt) (t :: ts) rest := by
  refine parses_succ rfl fun n eof ds hn => ?_
  change Grammar.statement (n + 1) _ = _
  unfold Grammar.statement
  rw [bind_ok (acceptMap_of_some (g := .printForm) (by rw [hk]; rfl))]
  exact h (((Past.refl ts).cons t).depth hn (by simp [Phrase.cost]))

theorem parses_returnForm {stmt : Stmt} (hk : t.kind = .kwReturn)
    (h : Phrase.Parses (.returnStmt t stmt) ts rest) :
    Phrase.Parses (.statement stmt) (t :: ts) rest := by
  refine parses_succ rfl fun n eof ds hn => ?_
  change Grammar.statement (n + 1) _ = _
  unfold Grammar.statement
  rw [bind_ok (acceptMap_of_some (g := .returnForm) (by rw [hk]; rfl))]
  exact h (((Past.refl ts).cons t).depth hn (by simp [Phrase.cost]))

theorem parses_whileForm {test : Expr} {body : Stmt} (hk : t.kind = .kwWhile) (hp : Past 1 ts us)
    (ht : Phrase.Parses (.testInParens .whileStart .whileEnd test) ts us)
    (hb : Phrase.Parses (.statement body) us rest) :
    Phrase.Parses (.statement (.loop test body)) (t :: ts) rest := by
  refine parses_succ rfl fun n eof ds hn => ?_
  change Grammar.statement (n + 1) _ = _
  unfold Grammar.statement
  rw [bind_ok (acceptMap_of_some (g := .whileForm) (by rw [hk]; rfl))]
  simp only
  rw [bind_ok (ht (((Past.refl ts).cons t).depth hn (by simp [Phrase.cost]))),
    bind_ok (hb ((hp.cons t).depth hn (by simp [Phrase.cost])))]
  rfl

theorem parses_blockForm {body : List Stmt} (hk : t.kind = .leftBrace)
    (h : Phrase.Parses (.block body) ts rest) :
    Phrase.Parses (.statement (.block body)) (t :: ts) rest := by
  refine parses_succ rfl fun n eof ds hn => ?_
  change Grammar.statement (n + 1) _ = _
  unfold Grammar.statement
  rw [bind_ok (acceptMap_of_some (g := .blockForm) (by rw [hk]; rfl))]
  exact map_ok (h (((Past.refl ts).cons t).depth hn (by simp [Phrase.cost])))

theorem parses_expressionForm {stmt : Stmt} (hk : (headKind? ts).bind statementForm? = none)
    (h : Phrase.Parses (.expressionStmt stmt) ts rest) :
    Phrase.Parses (.statement stmt) ts rest := by
  refine parses_succ rfl fun n eof ds hn => ?_
  change Grammar.statement (n + 1) _ = _
  unfold Grammar.statement
  rw [bind_ok (acceptMap_of_none hk)]
  exact h hn

theorem parses_forStmt {openParen semi close : Token} {init : Option Stmt}
    {test update : Option Expr} {body : Stmt} {vs ws : List Token}
    (ho : openParen.kind = .leftParen) (hp : Past 1 ts us)
    (hi : Phrase.Parses (.forInit init) ts us) (hq : Past 0 us (semi :: vs))
    (ht : Phrase.Parses (.optionalExpression .semicolon test) us (semi :: vs))
    (hs : semi.kind = .semicolon) (hr : Past 0 vs (close :: ws))
    (hu : Phrase.Parses (.optionalExpression .rightParen update) vs (close :: ws))
    (hc : close.kind = .rightParen) (hb : Phrase.Parses (.statement body) ws rest) :
    Phrase.Parses (.forStmt (.forLoop init test update body)) (openParen :: ts) rest := by
  refine parses_succ rfl fun n eof ds hn => ?_
  change Grammar.forStmt (n + 1) _ = _
  unfold Grammar.forStmt
  rw [bind_ok (expect_of_eq ho),
    bind_ok (hi (((Past.refl ts).cons openParen).depth hn (by simp [Phrase.cost]))),
    bind_ok (ht ((hp.cons openParen).depth hn (by simp [Phrase.cost]))), bind_ok (expect_of_eq hs),
    bind_ok (hu (((hp.trans hq.tail).cons openParen).depth hn (by simp [Phrase.cost]))),
    bind_ok (expect_of_eq hc),
    bind_ok (hb (((hp.trans (hq.tail.trans hr.tail)).cons openParen).depth hn
      (by simp [Phrase.cost])))]
  rfl

theorem parses_ifThen {test : Expr} {yes : Stmt} (hp : Past 1 ts us)
    (ht : Phrase.Parses (.testInParens .ifStart .ifEnd test) ts us)
    (hy : Phrase.Parses (.statement yes) us rest) (hk : headKind? rest ≠ some .kwElse) :
    Phrase.Parses (.ifStmt (.ifThen test yes)) ts rest := by
  refine parses_succ rfl fun n eof ds hn => ?_
  change Grammar.ifStmt (n + 1) _ = _
  unfold Grammar.ifStmt
  rw [bind_ok (ht hn), bind_ok (hy (hp.depth hn (by simp [Phrase.cost]))),
    bind_ok (accept_of_ne hk)]
  rfl

theorem parses_ifElse {test : Expr} {yes no : Stmt} {kw : Token} {vs : List Token}
    (hp : Past 1 ts us) (ht : Phrase.Parses (.testInParens .ifStart .ifEnd test) ts us)
    (hq : Past 1 us (kw :: vs)) (hy : Phrase.Parses (.statement yes) us (kw :: vs))
    (hk : kw.kind = .kwElse) (hno : Phrase.Parses (.statement no) vs rest) :
    Phrase.Parses (.ifStmt (.ifElse test yes no)) ts rest := by
  refine parses_succ rfl fun n eof ds hn => ?_
  change Grammar.ifStmt (n + 1) _ = _
  unfold Grammar.ifStmt
  rw [bind_ok (ht hn), bind_ok (hy (hp.depth hn (by simp [Phrase.cost]))),
    bind_ok (accept_of_eq hk)]
  simp only
  rw [bind_ok (hno ((hp.trans hq.tail).depth hn (by simp [Phrase.cost])))]
  rfl

theorem parses_further {stmt : Stmt} {stmts : List Stmt} (hne : ts ≠ []) (hp : Past 1 ts us)
    (h : Phrase.Parses (.declaration stmt) ts us) (hd : Phrase.Parses (.declarations stmts) us rest) :
    Phrase.Parses (.declarations (stmt :: stmts)) ts rest := by
  refine parses_succ rfl fun n eof ds hn => ?_
  change Grammar.declarations (n + 1) _ = _
  unfold Grammar.declarations
  rw [bind_ok (atEnd_of_ne hne)]
  simp only [Bool.false_eq_true, if_false]
  rw [bind_ok (h hn), bind_ok (hd (hp.depth hn (by simp [Phrase.cost])))]
  rfl

end

/-- **What can be read is parsed.** -/
theorem Reads.parses {ph : Phrase} {ts rest : List Token} (h : Reads ph ts rest) :
    ph.Parses ts rest := by
  induction h with
  | plain _ hk ih => exact parses_plain ih hk
  | assignName h hk _ ih₁ ih₂ => exact parses_assign h.past ih₁ hk ih₂ rfl
  | assignProperty h hk _ ih₁ ih₂ => exact parses_assign h.past ih₁ hk ih₂ rfl
  | operand hl _ ih₁ ih₂ => exact parses_operand hl.past ih₁ ih₂
  | descend hl _ ih => exact parses_descend hl ih
  | tightest hl _ ih => exact parses_tightest hl ih
  | joinedStop hk => exact parses_joinedStop hk
  | joinedMore hk hr _ ih₁ ih₂ => exact parses_joinedMore hr.past hk ih₁ ih₂
  | prefixed hk _ ih => exact parses_prefixed hk ih
  | unprefixed hk hp _ ih₁ ih₂ => exact parses_unprefixed hk hp.past ih₁ ih₂
  | call hk ha hp _ ih₁ ih₂ => exact parses_call hk ha.past ih₁ hp ih₂
  | property hk hp _ ih => exact parses_property hk hp ih
  | suffixStop hp hd => exact parses_suffixStop hp hd
  | noArguments hk => exact parses_noArguments hk
  | someArguments hk _ ih => exact parses_someArguments hk ih
  | lastArgument hc _ hk ih => exact parses_lastArgument hc ih hk
  | nextArgument hc h hk _ ih₁ ih₂ => exact parses_nextArgument hc h.past ih₁ hk ih₂
  | constant hk => exact parses_constant hk
  | name hk => exact parses_name hk
  | thisWord hk => exact parses_thisWord hk
  | superWord hk hd hm => exact parses_superWord hk hd hm
  | group hk _ hc ih => exact parses_group hk ih hc
  | varPlain hn hs => exact parses_varPlain hn hs
  | varInit hn he _ hs ih => exact parses_varInit hn he ih hs
  | expressionStmt _ hs ih => exact parses_expressionStmt ih hs
  | printStmt _ hs ih => exact parses_printStmt ih hs
  | absent hk => exact parses_absent hk
  | present hk _ ih => exact parses_present hk ih
  | returnStmt _ hs ih => exact parses_returnStmt ih hs
  | initNone hs => exact parses_initNone hs
  | initVar hk _ ih => exact parses_initVar hk ih
  | initExpression hs hv _ ih => exact parses_initExpression hs hv ih
  | testInParens ho _ hc ih => exact parses_testInParens ho ih hc
  | lastParameter hc hp hk => exact parses_lastParameter hc hp hk
  | nextParameter hc hp hk _ ih => exact parses_nextParameter hc hp hk ih
  | noParameters hk => exact parses_noParameters hk
  | someParameters hk _ ih => exact parses_someParameters hk ih
  | classForm hk _ ih => exact parses_classForm hk ih
  | funForm hk _ ih => exact parses_funForm hk ih
  | varForm hk _ ih => exact parses_varForm hk ih
  | statementForm hk _ ih => exact parses_statementForm hk ih
  | baseClass hn ho _ hc ih => exact parses_baseClass hn ho ih hc
  | derivedClass hn hl hs ho _ hc ih => exact parses_derivedClass hn hl hs ho ih hc
  | noMethods hk => exact parses_noMethods hk
  | nextMethod hk hne h _ ih₁ ih₂ => exact parses_nextMethod hk hne h.past ih₁ ih₂
  | function hn ho hp hc hb _ ih₁ ih₂ => exact parses_function hn ho hp.past ih₁ hc hb ih₂
  | blockEnd hc => exact parses_blockEnd hc
  | blockNext hk hne h _ ih₁ ih₂ => exact parses_blockNext hk hne h.past ih₁ ih₂
  | forForm hk _ ih => exact parses_forForm hk ih
  | ifForm hk _ ih => exact parses_ifForm hk ih
  | printForm hk _ ih => exact parses_printForm hk ih
  | returnForm hk _ ih => exact parses_returnForm hk ih
  | whileForm hk ht _ ih₁ ih₂ => exact parses_whileForm hk ht.past ih₁ ih₂
  | blockForm hk _ ih => exact parses_blockForm hk ih
  | expressionForm hk _ ih => exact parses_expressionForm hk ih
  | forStmt ho hi ht hs hu hc _ ih₁ ih₂ ih₃ ih₄ =>
    exact parses_forStmt ho hi.past ih₁ ht.past ih₂ hs hu.past ih₃ hc ih₄
  | ifThen ht _ hk ih₁ ih₂ => exact parses_ifThen ht.past ih₁ ih₂ hk
  | ifElse ht hy hk _ ih₁ ih₂ ih₃ => exact parses_ifElse ht.past ih₁ hy.past ih₂ hk ih₃
  | finished => exact parses_succ rfl fun n eof ds _ => rfl
  | further hne h _ ih₁ ih₂ => exact parses_further hne h.past ih₁ ih₂

/-- Parsing without a fault is reading all tokens. -/
theorem parse_eq_iff {ts : List Token} {eof : Token} {stmts : List Stmt} :
    parse ts eof = ⟨stmts, []⟩ ↔ Reads (.declarations stmts) ts [] := by
  constructor
  · intro h
    have hd : (parse ts eof).diagnostics = [] := by rw [h]
    have hr := reads_of_parse hd
    rwa [h] at hr
  · intro h
    have hp : declarations (depthFor ts) ⟨ts, eof, []⟩ = .ok stmts ⟨[], eof, []⟩ :=
      h.parses (by simp only [depthFor, Phrase.cost]; omega)
    simp only [parse, hp]

end Lox.Grammar

import Lox.Proofs.Parsing
import Lox.Proofs.Surface
import Lox.Token.Scan

/-!
# Nothing but surface trees is parsed

What the parser reads without a fault has a surface tree (`surfaces_of_reads`): the tokens read are
the tokens of the tree, in their order and with none left out, and the tree read is the one it stands
for. While a chain of operators or of calls is read, its tree grows on the left.
-/

namespace Lox.Surface

open Grammar

/-! ## Operators -/

theorem tighter_of_tighter? {level level' : Level} (h : level.tighter? = some level') :
    Tighter level level' := by
  cases level <;> cases h <;> constructor

theorem operator_of_joint? {level : Level} {kind : TokenKind} {joint : Joint}
    (h : level.joint? kind = some joint) : Operator level kind joint.join := by
  unfold Level.joint? at h
  split at h <;> cases h <;> constructor

theorem prefixOperator_of_unaryOp? {kind : TokenKind} {op : UnaryOp} (h : unaryOp? kind = some op) :
    PrefixOperator kind op := by
  unfold unaryOp? at h
  split at h <;> cases h <;> constructor

theorem constant?_of_start? {t : Token} (h : start? t.kind = some .constant) :
    t.constant? = some (t.constant?.getD .nil) := by
  unfold Token.constant?
  generalize t.kind = kind at h
  cases kind <;> first | rfl | cases h

/-! ## Targets of assignments -/

/-- The expressions that can be assigned to. -/
def isTarget : Expr → Bool
  | .name _ | .get _ _ => true
  | _ => false

theorem Operator.not_isTarget {level : Level} {kind : TokenKind}
    {node : Token → Expr → Expr → Expr} (h : Operator level kind node) (op : Token)
    (left right : Expr) : isTarget (node op left right) = false := by
  cases h <;> rfl

mutual

/-- A target that was read as operators and operands has no operator in it. -/
theorem Chain.call_of_isTarget : ∀ {level : Level} (e : Chain level), isTarget e.tree = true →
    ∃ c : Call, c.tree = e.tree ∧ c.tokens = e.tokens
  | _, .single e, h => e.call_of_isTarget h
  | _, .joined left op node means right, h => by
    rw [Chain.tree, means.not_isTarget] at h
    cases h

theorem Operand.call_of_isTarget : ∀ {level : Level} (e : Operand level), isTarget e.tree = true →
    ∃ c : Call, c.tree = e.tree ∧ c.tokens = e.tokens
  | _, .tighter _ e, h => e.call_of_isTarget h
  | _, .unary (.plain e), _ => ⟨e, rfl, rfl⟩

end

theorem Call.eq_name {c : Call} {ref : Reference} (h : c.tree = .name ref) :
    ∃ t : Word .identifier, ref = ⟨t.1, none⟩ ∧ c.tokens = [t.1] := by
  cases c with
  | primary e =>
    cases e with
    | name t =>
      cases h
      exact ⟨t, rfl, rfl⟩
    | _ => cases h
  | _ => cases h

theorem Call.eq_get {c : Call} {object : Expr} {property : Token}
    (h : c.tree = .get object property) :
    ∃ (o : Call) (dot : Word .dot) (name : Word .identifier), o.tree = object ∧ name.1 = property ∧
      c.tokens = o.tokens ++ [dot.1, name.1] := by
  cases c with
  | primary e => cases e <;> cases h
  | get o dot name =>
    cases h
    exact ⟨o, dot, name, rfl, rfl, rfl⟩
  | _ => cases h

/-! ## Phrases -/

/-- The phrase has a surface tree, whose tokens are those between `ts` and `rest`. -/
def Surfaces (ts rest : List Token) : Phrase → Prop
  | .expression e => ∃ x : Expression, x.tree = e ∧ ts = x.tokens ++ rest
  | .operand level e => ∃ x : Chain level, x.tree = e ∧ ts = x.tokens ++ rest
  | .tighter level e => ∃ x : Operand level, x.tree = e ∧ ts = x.tokens ++ rest
  | .joined level left e => ∀ x : Chain level, x.tree = left →
    ∃ y : Chain level, y.tree = e ∧ x.tokens ++ ts = y.tokens ++ rest
  | .unary e => ∃ x : Unary, x.tree = e ∧ ts = x.tokens ++ rest
  | .suffixes head e => ∀ x : Call, x.tree = head →
    ∃ y : Call, y.tree = e ∧ x.tokens ++ ts = y.tokens ++ rest
  | .arguments es => (es = [] ∧ ts = rest) ∨
    ∃ (count : Nat) (x : Arguments count), count ≤ 255 ∧ x.trees = es ∧ ts = x.tokens ++ rest
  | .moreArguments n es =>
    ∃ (count : Nat) (x : Arguments count), n + count ≤ 255 ∧ x.trees = es ∧ ts = x.tokens ++ rest
  | .primary e => ∃ x : Primary, x.tree = e ∧ ts = x.tokens ++ rest
  | .varDecl stmt => ∀ keyword : Word .kwVar,
    ∃ d : VarDecl, d.tree = stmt ∧ keyword.1 :: ts = d.tokens ++ rest
  | .expressionStmt stmt => ∃ x : ExpressionStmt, x.tree = stmt ∧ ts = x.tokens ++ rest
  | .printStmt stmt => ∃ x : ExpressionStmt, .print x.e.tree = stmt ∧ ts = x.tokens ++ rest
  | .optionalExpression _ o =>
    ∃ x : Option Expression, x.map (·.tree) = o ∧ ts = optionalTokens x ++ rest
  | .returnStmt keyword stmt => ∃ (x : Option Expression) (semicolon : Word .semicolon),
    .ret keyword (x.map (·.tree)) = stmt ∧ ts = optionalTokens x ++ semicolon.1 :: rest
  | .forInit o => ∃ x : ForInit, x.tree? = o ∧ ts = x.tokens ++ rest
  | .testInParens _ _ e =>
    ∃ (openParen : Word .leftParen) (x : Expression) (close : Word .rightParen), x.tree = e ∧
      ts = openParen.1 :: (x.tokens ++ close.1 :: rest)
  | .moreParameters n params =>
    ∃ (first : Word .identifier) (others : List (Word .comma × Word .identifier)),
      n + others.length + 1 ≤ 255 ∧ first.1 :: others.map (·.2.1) = params ∧
      ts = first.1 :: (others.flatMap (fun p => [p.1.1, p.2.1]) ++ rest)
  | .parameters params => ∃ x : Option Parameters, (x.map (·.names)).getD [] = params ∧
    ts = (x.map (·.tokens)).getD [] ++ rest
  | .declaration stmt => ∃ d : Declaration, d.tree = stmt ∧ ts = d.tokens ++ rest
  | .classDecl stmt => ∀ keyword : Word .kwClass,
    ∃ d : Declaration, d.tree = stmt ∧ keyword.1 :: ts = d.tokens ++ rest
  | .methods ds => ∃ fs : List Function, Function.trees fs = ds ∧ ts = Function.tokensAll fs ++ rest
  | .function _ d => ∃ f : Function, f.tree = d ∧ ts = f.tokens ++ rest
  | .block body => ∃ (ds : List Declaration) (close : Word .rightBrace),
    Declaration.trees ds = body ∧ ts = Declaration.tokensAll ds ++ close.1 :: rest
  | .statement stmt => ∃ (takesElse : Bool) (s : Statement takesElse), s.tree = stmt ∧
    ts = s.tokens ++ rest ∧ (takesElse = true → headKind? rest ≠ some .kwElse)
  | .forStmt stmt => ∀ keyword : Word .kwFor,
    ∃ (takesElse : Bool) (s : Statement takesElse), s.tree = stmt ∧
      keyword.1 :: ts = s.tokens ++ rest ∧ (takesElse = true → headKind? rest ≠ some .kwElse)
  | .ifStmt stmt => ∀ keyword : Word .kwIf,
    ∃ (takesElse : Bool) (s : Statement takesElse), s.tree = stmt ∧
      keyword.1 :: ts = s.tokens ++ rest ∧ (takesElse = true → headKind? rest ≠ some .kwElse)
  | .declarations stmts => ∃ p : Program, p.tree = stmts ∧ ts = p.tokens ++ rest

/-- What is read has a surface tree. -/
theorem surfaces_of_reads {ph : Phrase} {ts rest : List Token} (h : Reads ph ts rest) :
    Surfaces ts rest ph := by
  induction h with
  -- expressions
  | plain _ _ ih =>
    obtain ⟨x, rfl, rfl⟩ := ih
    exact ⟨.plain x, rfl, rfl⟩
  | assignName _ hk _ ih₁ ih₂ =>
    obtain ⟨target, htree, rfl⟩ := ih₁
    obtain ⟨value, rfl, rfl⟩ := ih₂
    obtain ⟨c, hc, htokens⟩ := target.call_of_isTarget (by rw [htree]; rfl)
    obtain ⟨name, rfl, hname⟩ := Call.eq_name (hc.trans htree)
    exact ⟨.assign name ⟨_, hk⟩ value, rfl, by rw [← htokens, hname]; rfl⟩
  | assignProperty _ hk _ ih₁ ih₂ =>
    obtain ⟨target, htree, rfl⟩ := ih₁
    obtain ⟨value, rfl, rfl⟩ := ih₂
    obtain ⟨c, hc, htokens⟩ := target.call_of_isTarget (by rw [htree]; rfl)
    obtain ⟨object, dot, name, rfl, rfl, hget⟩ := Call.eq_get (hc.trans htree)
    refine ⟨.set object dot name ⟨_, hk⟩ value, rfl, ?_⟩
    simp [← htokens, hget, Expression.tokens]
  | operand _ _ ih₁ ih₂ =>
    obtain ⟨x, rfl, rfl⟩ := ih₁
    exact ih₂ (.single x) rfl
  | descend hl _ ih =>
    obtain ⟨x, rfl, rfl⟩ := ih
    exact ⟨.tighter (tighter_of_tighter? hl) x, rfl, rfl⟩
  | @tightest level _ _ _ hl _ ih =>
    obtain ⟨x, rfl, rfl⟩ := ih
    cases level <;> first | exact ⟨.unary x, rfl, rfl⟩ | cases hl
  | joinedStop => exact fun x hx => ⟨x, hx, rfl⟩
  | joinedMore hk _ _ ih₁ ih₂ =>
    rintro x rfl
    obtain ⟨right, rfl, rfl⟩ := ih₁
    obtain ⟨y, rfl, hy⟩ := ih₂ (.joined x _ _ (operator_of_joint? hk) right) rfl
    exact ⟨y, rfl, by simpa [Chain.tokens] using hy⟩
  | prefixed hk _ ih =>
    obtain ⟨x, rfl, rfl⟩ := ih
    exact ⟨.prefixed _ _ (prefixOperator_of_unaryOp? hk) x, rfl, rfl⟩
  | unprefixed _ _ _ ih₁ ih₂ =>
    obtain ⟨x, rfl, rfl⟩ := ih₁
    obtain ⟨y, rfl, hy⟩ := ih₂ (.primary x) rfl
    exact ⟨.plain y, rfl, hy⟩
  | call hk _ hp _ ih₁ ih₂ =>
    rintro x rfl
    rcases ih₁ with ⟨rfl, rfl⟩ | ⟨count, args, hcount, rfl, rfl⟩
    · obtain ⟨y, rfl, hy⟩ := ih₂ (.call x ⟨_, hk⟩ ⟨_, hp⟩) rfl
      exact ⟨y, rfl, by simpa [Call.tokens] using hy⟩
    · obtain ⟨y, rfl, hy⟩ := ih₂ (.callWith x ⟨_, hk⟩ args hcount ⟨_, hp⟩) rfl
      exact ⟨y, rfl, by simpa [Call.tokens] using hy⟩
  | property hk hp _ ih =>
    rintro x rfl
    obtain ⟨y, rfl, hy⟩ := ih (.get x ⟨_, hk⟩ ⟨_, hp⟩) rfl
    exact ⟨y, rfl, by simpa [Call.tokens] using hy⟩
  | suffixStop => exact fun x hx => ⟨x, hx, rfl⟩
  | noArguments => exact .inl ⟨rfl, rfl⟩
  | someArguments _ _ ih =>
    obtain ⟨count, x, hcount, rfl, rfl⟩ := ih
    exact .inr ⟨count, x, by omega, rfl, rfl⟩
  | lastArgument hc _ _ ih =>
    obtain ⟨x, rfl, rfl⟩ := ih
    exact ⟨1, .one x, hc, rfl, rfl⟩
  | nextArgument _ _ hk _ ih₁ ih₂ =>
    obtain ⟨x, rfl, rfl⟩ := ih₁
    obtain ⟨count, others, hcount, rfl, rfl⟩ := ih₂
    exact ⟨count + 1, .more x ⟨_, hk⟩ others, by omega, rfl, by simp [Arguments.tokens]⟩
  | constant hk => exact ⟨.constant _ _ (constant?_of_start? hk), rfl, rfl⟩
  | name hk => exact ⟨.name ⟨_, hk⟩, rfl, rfl⟩
  | thisWord hk => exact ⟨.thisWord ⟨_, hk⟩, rfl, rfl⟩
  | superWord hk hd hm => exact ⟨.superWord ⟨_, hk⟩ ⟨_, hd⟩ ⟨_, hm⟩, rfl, rfl⟩
  | group hk _ hc ih =>
    obtain ⟨x, rfl, rfl⟩ := ih
    exact ⟨.group ⟨_, hk⟩ x ⟨_, hc⟩, rfl, by simp [Primary.tokens]⟩
  -- statements without statements inside
  | varPlain hn hs => exact fun keyword => ⟨⟨keyword, ⟨_, hn⟩, none, ⟨_, hs⟩⟩, rfl, rfl⟩
  | varInit hn he _ hs ih =>
    intro keyword
    obtain ⟨x, rfl, rfl⟩ := ih
    exact ⟨⟨keyword, ⟨_, hn⟩, some (⟨_, he⟩, x), ⟨_, hs⟩⟩, rfl,
      by simp [VarDecl.tokens, VarDecl.clause]⟩
  | expressionStmt _ hs ih =>
    obtain ⟨x, rfl, rfl⟩ := ih
    exact ⟨⟨x, ⟨_, hs⟩⟩, rfl, by simp [ExpressionStmt.tokens]⟩
  | printStmt _ hs ih =>
    obtain ⟨x, rfl, rfl⟩ := ih
    exact ⟨⟨x, ⟨_, hs⟩⟩, rfl, by simp [ExpressionStmt.tokens]⟩
  | absent => exact ⟨none, rfl, rfl⟩
  | present _ _ ih =>
    obtain ⟨x, rfl, rfl⟩ := ih
    exact ⟨some x, rfl, rfl⟩
  | returnStmt _ hs ih =>
    obtain ⟨x, rfl, rfl⟩ := ih
    exact ⟨x, ⟨_, hs⟩, rfl, rfl⟩
  | initNone hs => exact ⟨.absent ⟨_, hs⟩, rfl, rfl⟩
  | initVar hk _ ih =>
    obtain ⟨d, rfl, hd⟩ := ih ⟨_, hk⟩
    exact ⟨.var d, rfl, hd⟩
  | initExpression _ _ _ ih =>
    obtain ⟨x, rfl, rfl⟩ := ih
    exact ⟨.expression x, rfl, rfl⟩
  | testInParens ho _ hc ih =>
    obtain ⟨x, rfl, rfl⟩ := ih
    exact ⟨⟨_, ho⟩, x, ⟨_, hc⟩, rfl, rfl⟩
  | lastParameter hc hp _ => exact ⟨⟨_, hp⟩, [], hc, rfl, rfl⟩
  | nextParameter _ hp hk _ ih =>
    obtain ⟨first, others, hcount, rfl, rfl⟩ := ih
    exact ⟨⟨_, hp⟩, (⟨_, hk⟩, first) :: others, by simp only [List.length_cons]; omega, rfl, rfl⟩
  | noParameters => exact ⟨none, rfl, rfl⟩
  | someParameters _ _ ih =>
    obtain ⟨first, others, hcount, rfl, rfl⟩ := ih
    exact ⟨some ⟨first, others, by omega⟩, rfl, rfl⟩
  -- declarations
  | classForm hk _ ih => exact ih ⟨_, hk⟩
  | funForm hk _ ih =>
    obtain ⟨f, rfl, rfl⟩ := ih
    exact ⟨.function ⟨_, hk⟩ f, rfl, rfl⟩
  | varForm hk _ ih =>
    obtain ⟨d, rfl, hd⟩ := ih ⟨_, hk⟩
    exact ⟨.var d, rfl, hd⟩
  | statementForm _ _ ih =>
    obtain ⟨_, s, rfl, rfl, -⟩ := ih
    exact ⟨.statement s, rfl, rfl⟩
  | baseClass hn ho _ hc ih =>
    intro keyword
    obtain ⟨fs, rfl, rfl⟩ := ih
    exact ⟨.classDecl keyword ⟨_, hn⟩ none ⟨_, ho⟩ fs ⟨_, hc⟩, rfl, by simp [Declaration.tokens]⟩
  | derivedClass hn hl hs ho _ hc ih =>
    intro keyword
    obtain ⟨fs, rfl, rfl⟩ := ih
    exact ⟨.classDecl keyword ⟨_, hn⟩ (some (⟨_, hl⟩, ⟨_, hs⟩)) ⟨_, ho⟩ fs ⟨_, hc⟩, rfl,
      by simp [Declaration.tokens]⟩
  | noMethods => exact ⟨[], rfl, rfl⟩
  | nextMethod _ _ _ _ ih₁ ih₂ =>
    obtain ⟨f, rfl, rfl⟩ := ih₁
    obtain ⟨fs, rfl, rfl⟩ := ih₂
    exact ⟨f :: fs, rfl, by simp [Function.tokensAll]⟩
  | function hn ho _ hc hb _ ih₁ ih₂ =>
    obtain ⟨params, rfl, rfl⟩ := ih₁
    obtain ⟨ds, close, rfl, rfl⟩ := ih₂
    exact ⟨.mk ⟨_, hn⟩ ⟨_, ho⟩ params ⟨_, hc⟩ ⟨_, hb⟩ ds close, rfl, by simp [Function.tokens]⟩
  | blockEnd hc => exact ⟨[], ⟨_, hc⟩, rfl, rfl⟩
  | blockNext _ _ _ _ ih₁ ih₂ =>
    obtain ⟨d, rfl, rfl⟩ := ih₁
    obtain ⟨ds, close, rfl, rfl⟩ := ih₂
    exact ⟨d :: ds, close, rfl, by simp [Declaration.tokensAll]⟩
  -- statements
  | forForm hk _ ih => exact ih ⟨_, hk⟩
  | ifForm hk _ ih => exact ih ⟨_, hk⟩
  | printForm hk _ ih =>
    obtain ⟨x, rfl, rfl⟩ := ih
    exact ⟨false, .print ⟨_, hk⟩ x, rfl, rfl, fun h => by cases h⟩
  | returnForm hk _ ih =>
    obtain ⟨x, semicolon, rfl, rfl⟩ := ih
    exact ⟨false, .ret ⟨_, hk⟩ x semicolon, rfl, by simp [Statement.tokens], fun h => by cases h⟩
  | whileForm hk _ _ ih₁ ih₂ =>
    obtain ⟨openParen, test, close, rfl, rfl⟩ := ih₁
    obtain ⟨takesElse, body, rfl, rfl, helse⟩ := ih₂
    exact ⟨takesElse, .whileLoop ⟨_, hk⟩ openParen test close body, rfl,
      by simp [Statement.tokens], helse⟩
  | blockForm hk _ ih =>
    obtain ⟨ds, close, rfl, rfl⟩ := ih
    exact ⟨false, .block ⟨_, hk⟩ ds close, rfl, by simp [Statement.tokens], fun h => by cases h⟩
  | expressionForm _ _ ih =>
    obtain ⟨x, rfl, rfl⟩ := ih
    exact ⟨false, .expression x, rfl, rfl, fun h => by cases h⟩
  | forStmt ho _ _ hs _ hc _ ih₁ ih₂ ih₃ ih₄ =>
    intro keyword
    obtain ⟨init, rfl, rfl⟩ := ih₁
    obtain ⟨test, rfl, rfl⟩ := ih₂
    obtain ⟨update, rfl, rfl⟩ := ih₃
    obtain ⟨takesElse, body, rfl, rfl, helse⟩ := ih₄
    exact ⟨takesElse, .forLoop keyword ⟨_, ho⟩ init test ⟨_, hs⟩ update ⟨_, hc⟩ body,
      tree_forLoop .., by simp [Statement.tokens], helse⟩
  | ifThen _ _ hk ih₁ ih₂ =>
    intro keyword
    obtain ⟨openParen, test, close, rfl, rfl⟩ := ih₁
    obtain ⟨_, yes, rfl, rfl, -⟩ := ih₂
    exact ⟨true, .ifThen keyword openParen test close yes, rfl, by simp [Statement.tokens],
      fun _ => hk⟩
  | ifElse _ _ hk _ ih₁ ih₂ ih₃ =>
    intro keyword
    obtain ⟨openParen, test, close, rfl, rfl⟩ := ih₁
    obtain ⟨takes, yes, rfl, rfl, hyes⟩ := ih₂
    obtain ⟨takesElse, no, rfl, rfl, helse⟩ := ih₃
    cases takes with
    | false =>
      exact ⟨takesElse, .ifElse keyword openParen test close yes ⟨_, hk⟩ no, rfl,
        by simp [Statement.tokens], helse⟩
    -- a branch that takes an `else` has taken the one that follows
    | true => exact absurd (congrArg some hk) (hyes rfl)
  | finished => exact ⟨[], rfl, rfl⟩
  | further _ _ _ ih₁ ih₂ =>
    obtain ⟨d, rfl, rfl⟩ := ih₁
    obtain ⟨p, rfl, rfl⟩ := ih₂
    exact ⟨d :: p, rfl, by simp [Program.tokens, Declaration.tokensAll]⟩

/-- **Nothing but programs of the grammar is parsed without a fault.** If parsing reports nothing,
the tokens are those of a surface tree, and the statements are those that the tree stands for. -/
theorem surface_of_parse {ts : List Token} {eof : Token}
    (h : (parse ts eof).diagnostics = []) :
    ∃ p : Program, ts = p.tokens ∧ (parse ts eof).statements = p.tree := by
  obtain ⟨p, htree, htokens⟩ := surfaces_of_reads (reads_of_parse h)
  exact ⟨p, by simpa using htokens, htree.symm⟩

/-- The `else` of this text belongs to the inner condition, and the text ends in a call. -/
theorem surface_of_nested_else :
    (parse (scan "if (a) if (b) x = 1; else a.b = c(d, 2);").tokens ⟨.eof, "", 1, 40⟩).diagnostics =
        [] ∧
      ∃ p : Program, (scan "if (a) if (b) x = 1; else a.b = c(d, 2);").tokens = p.tokens ∧
        (parse (scan "if (a) if (b) x = 1; else a.b = c(d, 2);").tokens
          ⟨.eof, "", 1, 40⟩).statements = p.tree := by
  have h : (parse (scan "if (a) if (b) x = 1; else a.b = c(d, 2);").tokens
      ⟨.eof, "", 1, 40⟩).diagnostics = [] := by decide +kernel
  exact ⟨h, surface_of_parse h⟩

end Lox.Surface

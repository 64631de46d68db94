import Lox.Proofs.Relabel
import Lox.Proofs.Surface

/-!
# Every surface tree is parsed

The tokens of a surface tree, whatever comes after them, can be read as the tree
(`Expression.reads`, `Statement.reads`). A chain of operators and a chain of calls grow to the right
in the parser and to the left in the tree; so they are read up to some token, and what is read from
there on is given (`Chain.reads`, `Call.reads`).

What comes after must not go on with the phrase. `Stops n ts` says that no operator of the levels
from `n` on comes next, and neither a call nor a property access.
-/

namespace Lox.Grammar

/-! ## What phrases begin with -/

/-- The tokens that can begin an expression. -/
def beginsExpression (kind : TokenKind) : Bool := (unaryOp? kind).isSome || (start? kind).isSome

/-- The tokens that can begin a declaration or statement. -/
def beginsDeclaration (kind : TokenKind) : Bool :=
  beginsExpression kind || (statementForm? kind).isSome || (declarationForm? kind).isSome

/-- The tokens that can begin a phrase of those that a statement can begin with. -/
def Phrase.begins : Phrase → TokenKind → Bool
  | .statement _ | .declaration _ => beginsDeclaration
  | _ => beginsExpression

theorem Reads.begins {ph : Phrase} {ts rest : List Token} (h : Reads ph ts rest) :
    ph.isLeading = true → ∃ kind, headKind? ts = some kind ∧ ph.begins kind = true := by
  induction h with
  | plain _ _ ih | descend _ _ ih | tightest _ _ ih => exact fun _ => ih rfl
  | assignName _ _ _ ih _ | assignProperty _ _ _ ih _ | operand _ _ ih _ | unprefixed _ _ _ ih _ =>
    exact fun _ => ih rfl
  | expressionStmt _ _ ih => exact fun _ => ih rfl
  | statementForm _ _ ih => exact fun _ => ih rfl
  | expressionForm _ _ ih =>
    intro _
    obtain ⟨kind, hk, hb⟩ := ih rfl
    have hb : beginsExpression kind = true := hb
    exact ⟨kind, hk, by simp [Phrase.begins, beginsDeclaration, hb]⟩
  | prefixed hk | constant hk =>
    exact fun _ => ⟨_, rfl, by simp [Phrase.begins, beginsExpression, hk]⟩
  | name hk | thisWord hk | superWord hk | group hk | classForm hk | funForm hk | varForm hk
  | forForm hk | ifForm hk | printForm hk | returnForm hk | whileForm hk | blockForm hk =>
    exact fun _ => ⟨_, congrArg some hk, rfl⟩
  | _ => exact fun hl => by cases hl

theorem forms_of_beginsExpression {kind : TokenKind} (h : beginsExpression kind = true) :
    statementForm? kind = none ∧ declarationForm? kind = none := by
  cases kind <;> first | exact ⟨rfl, rfl⟩ | cases h

/-- What begins like an expression begins with none of the tokens that can stand in its place. -/
theorem Reads.head_ne {ph : Phrase} {ts rest : List Token} (h : Reads ph ts rest)
    (hl : ph.isLeading = true) {kind : TokenKind} (hk : ph.begins kind = false) :
    headKind? ts ≠ some kind := by
  obtain ⟨first, hf, hb⟩ := h.begins hl
  rintro he
  cases hf.symm.trans he
  rw [hk] at hb
  cases hb

end Lox.Grammar

namespace Lox.Surface

open Grammar

/-! ## Operators -/

theorem Tighter.tighter? {level level' : Level} (h : Tighter level level') :
    level.tighter? = some level' := by
  cases h <;> rfl

theorem Operator.joint? {level : Level} {kind : TokenKind} {node : Token → Expr → Expr → Expr}
    (h : Operator level kind node) :
    ∃ joint, level.joint? kind = some joint ∧ joint.join = node := by
  cases h <;> exact ⟨_, rfl, rfl⟩

theorem PrefixOperator.unaryOp? {kind : TokenKind} {op : UnaryOp} (h : PrefixOperator kind op) :
    Grammar.unaryOp? kind = some op := by
  cases h <;> rfl

/-- The levels in the order of their strength. -/
def rank : Level → Nat
  | .or => 0
  | .and => 1
  | .equality => 2
  | .comparison => 3
  | .term => 4
  | .factor => 5

theorem Tighter.rank_eq {level level' : Level} (h : Tighter level level') :
    rank level' = rank level + 1 := by
  cases h <;> rfl

/-! ## What comes after -/

/-- What comes next goes on neither with an operand nor with operators of strength `n` or more. -/
structure Stops (n : Nat) (ts : List Token) : Prop where
  joints : ∀ level, n ≤ rank level → (headKind? ts).bind level.joint? = none
  paren : headKind? ts ≠ some .leftParen
  dot : headKind? ts ≠ some .dot

theorem Stops.mono {n n' : Nat} {ts : List Token} (h : Stops n ts) (hn : n ≤ n') : Stops n' ts :=
  ⟨fun level hl => h.joints level (Nat.le_trans hn hl), h.paren, h.dot⟩

/-- An operator ends the operand before it. -/
theorem Operator.stops {level : Level} {t : Token} {node : Token → Expr → Expr → Expr}
    (h : Operator level t.kind node) (ts : List Token) : Stops (rank level + 1) (t :: ts) := by
  generalize hk : t.kind = kind at h
  refine ⟨fun level' hl => ?_, ?_, ?_⟩
  · rw [headKind?_cons, hk]
    cases h <;> cases level' <;> first | rfl | (simp [rank] at hl)
  · rw [headKind?_cons, hk]
    cases h <;> simp
  · rw [headKind?_cons, hk]
    cases h <;> simp

/-- What comes next does not go on with an expression. -/
structure Closed (ts : List Token) : Prop where
  stops : Stops 0 ts
  equal : headKind? ts ≠ some .equal

theorem stops_cons {t : Token} (ts : List Token)
    (h : t.kind = .semicolon ∨ t.kind = .rightParen ∨ t.kind = .comma ∨ t.kind = .equal) :
    Stops 0 (t :: ts) := by
  rcases h with h | h | h | h <;> refine ⟨fun level _ => ?_, ?_, ?_⟩ <;>
    rw [headKind?_cons, h] <;> first | (cases level <;> rfl) | simp

/-- The tokens that the grammar has after expressions. -/
theorem closed_cons {t : Token} (ts : List Token)
    (h : t.kind = .semicolon ∨ t.kind = .rightParen ∨ t.kind = .comma) : Closed (t :: ts) := by
  refine ⟨stops_cons ts (h.imp_right (·.imp_right .inl)), ?_⟩
  rcases h with h | h | h <;> simp [h]

/-! ## Expressions -/

/-- A unary expression is an operand of every level, if no operator follows. -/
theorem operand_of_unary {e : Expr} {ts rest : List Token} (h : Reads (.unary e) ts rest)
    (level : Level) (hs : Stops (rank level) rest) : Reads (.operand level e) ts rest := by
  have step : ∀ {level level' : Level}, Tighter level level' → Stops (rank level) rest →
      (Stops (rank level') rest → Reads (.operand level' e) ts rest) →
      Reads (.operand level e) ts rest := by
    intro level level' ht hs ih
    have hs' : Stops (rank level') rest := hs.mono (by rw [ht.rank_eq]; omega)
    exact .operand (.descend ht.tighter? (ih hs')) (.joinedStop (hs.joints level (Nat.le_refl _)))
  have factor : Stops (rank .factor) rest → Reads (.operand .factor e) ts rest := fun hs =>
    .operand (.tightest rfl h) (.joinedStop (hs.joints .factor (Nat.le_refl _)))
  have term := fun hs => step .term hs factor
  have comparison := fun hs => step .comparison hs term
  have equality := fun hs => step .equality hs comparison
  have and := fun hs => step .and hs equality
  have or := fun hs => step .or hs and
  cases level with
  | or => exact or hs
  | and => exact and hs
  | equality => exact equality hs
  | comparison => exact comparison hs
  | term => exact term hs
  | factor => exact factor hs

theorem start?_of_constant? {t : Token} {value : Constant} (h : t.constant? = some value) :
    start? t.kind = some .constant := by
  unfold Token.constant? at h
  split at h <;> first | (rename_i hk; rw [hk]; rfl) | cases h

theorem unaryOp?_of_primary {e : Expr} {ts rest : List Token} (h : Reads (.primary e) ts rest) :
    (headKind? ts).bind unaryOp? = none := by
  cases h with
  | @constant t _ hk =>
    rw [headKind?_cons, Option.bind_some]
    generalize t.kind = kind at hk
    cases kind <;> first | rfl | cases hk
  | name hk | thisWord hk | superWord hk | group hk => rw [headKind?_cons, hk]; rfl

theorem head_of_moreArguments {n : Nat} {es : List Expr} {ts rest : List Token}
    (h : Reads (.moreArguments n es) ts rest) : headKind? ts ≠ some .rightParen := by
  cases h with
  | lastArgument _ h _ => exact h.head_ne rfl rfl
  | nextArgument _ h _ _ => exact h.head_ne rfl rfl

mutual

/-- An expression is read up to a token that does not go on with it. -/
theorem Expression.reads : ∀ (e : Expression) {rest : List Token}, Closed rest →
    Reads (.expression e.tree) (e.tokens ++ rest) rest
  | .assign name equals value, rest, hr => by
    have hname : Reads (.primary (.name ⟨name.1, none⟩))
        (name.1 :: equals.1 :: (value.tokens ++ rest))
        (equals.1 :: (value.tokens ++ rest)) := .name name.2
    have hs := stops_cons (value.tokens ++ rest) (t := equals.1) (by simp [equals.2])
    have hunary := Reads.unprefixed (unaryOp?_of_primary hname) hname (.suffixStop hs.paren hs.dot)
    exact .assignName (operand_of_unary hunary .or hs) equals.2 (value.reads hr)
  | .set object dot property equals value, rest, hr => by
    have hs := stops_cons (value.tokens ++ rest) (t := equals.1) (by simp [equals.2])
    have hunary := object.reads (.property dot.2 property.2 (.suffixStop hs.paren hs.dot))
    have htarget := operand_of_unary hunary .or hs
    have h := Reads.assignProperty htarget equals.2 (value.reads hr)
    simpa only [Expression.tokens, Expression.tree, List.append_assoc, List.cons_append] using h
  | .plain e, rest, hr =>
    .plain (e.reads (hr.stops.mono (Nat.zero_le _))
      (.joinedStop (hr.stops.joints .or (Nat.le_refl _)))) hr.equal

/-- A chain of operands, with what is read after it on its level. -/
theorem Chain.reads : ∀ {level : Level} (e : Chain level) {e' : Expr} {us rest : List Token},
    Stops (rank level + 1) us → Reads (.joined level e.tree e') us rest →
    Reads (.operand level e') (e.tokens ++ us) rest
  | _, .single e, _, _, _, hs, hj => .operand (e.reads hs) hj
  | level, .joined left op node means right, e', us, rest, hs, hj => by
    obtain ⟨joint, hjoint, rfl⟩ := means.joint?
    have h := left.reads (means.stops (right.tokens ++ us)) (.joinedMore hjoint (right.reads hs) hj)
    simpa only [Chain.tokens, List.append_assoc, List.cons_append] using h

theorem Operand.reads : ∀ {level : Level} (e : Operand level) {us : List Token},
    Stops (rank level + 1) us → Reads (.tighter level e.tree) (e.tokens ++ us) us
  | _, @Operand.tighter _ level' h e, us, hs => by
    rw [← h.rank_eq] at hs
    exact .descend h.tighter? (e.reads (hs.mono (Nat.le_succ _))
      (.joinedStop (hs.joints level' (Nat.le_refl _))))
  | _, .unary e, us, hs => .tightest rfl (e.reads hs)

theorem Unary.reads : ∀ (e : Unary) {us : List Token}, Stops (rank .factor + 1) us →
    Reads (.unary e.tree) (e.tokens ++ us) us
  | .prefixed _ _ means right, _, hs => .prefixed means.unaryOp? (right.reads hs)
  | .plain e, _, hs => e.reads (.suffixStop hs.paren hs.dot)

/-- A primary form with calls and property accesses, and those that are read after it. -/
theorem Call.reads : ∀ (e : Call) {e' : Expr} {us rest : List Token},
    Reads (.suffixes e.tree e') us rest → Reads (.unary e') (e.tokens ++ us) rest
  | .primary e, _, us, _, hs => .unprefixed (unaryOp?_of_primary e.reads) e.reads hs
  | .call callee openParen close, e', us, rest, hs => by
    have hargs : Reads (.arguments []) (close.1 :: us) (close.1 :: us) :=
      .noArguments (by simp [close.2])
    have h := callee.reads (.call openParen.2 hargs close.2 hs)
    simpa only [Call.tokens, List.append_assoc, List.cons_append, List.nil_append] using h
  | .callWith callee openParen args few close, e', us, rest, hs => by
    have hmore := args.reads (n := 0) (by simpa using few) us close.2
    have hargs := Reads.someArguments (head_of_moreArguments hmore) hmore
    have h := callee.reads (.call openParen.2 hargs close.2 hs)
    simpa only [Call.tokens, List.append_assoc, List.cons_append, List.nil_append] using h
  | .get object dot property, e', us, rest, hs => by
    have h := object.reads (.property dot.2 property.2 hs)
    simpa only [Call.tokens, List.append_assoc, List.cons_append, List.nil_append] using h

/-- Arguments, after `n` others, up to the closing parenthesis. -/
theorem Arguments.reads : ∀ {count : Nat} (args : Arguments count) {n : Nat}, n + count ≤ 255 →
    ∀ (us : List Token) {close : Token}, close.kind = .rightParen →
    Reads (.moreArguments n args.trees) (args.tokens ++ close :: us) (close :: us)
  | _, .one e, n, hn, us, close, hc =>
    .lastArgument (Nat.lt_of_succ_le hn) (e.reads (closed_cons us (.inr (.inl hc)))) (by simp [hc])
  | _, .more e comma others, n, hn, us, close, hc => by
    have hothers := others.reads (n := n + 1) (by omega) us hc
    have he := e.reads (closed_cons (others.tokens ++ close :: us) (.inr (.inr comma.2)))
    have hlt : n < maxArguments := by
      show n < 255
      omega
    have h := Reads.nextArgument hlt he comma.2 hothers
    simpa only [Arguments.tokens, Arguments.trees, List.append_assoc, List.cons_append] using h

theorem Primary.reads : ∀ (e : Primary) {us : List Token},
    Reads (.primary e.tree) (e.tokens ++ us) us
  | .constant token value spells, us => by
    have h : Reads (.primary (.literal (token.constant?.getD .nil))) (token :: us) us :=
      .constant (start?_of_constant? spells)
    rwa [spells] at h
  | .name token, us => .name token.2
  | .thisWord keyword, us => .thisWord keyword.2
  | .superWord keyword dot method, us => .superWord keyword.2 dot.2 method.2
  | .group openParen inner close, us => by
    have h := Reads.group openParen.2 (inner.reads (closed_cons us (.inr (.inl close.2)))) close.2
    simpa only [Primary.tokens, Primary.tree, List.append_assoc, List.cons_append, List.nil_append]
      using h

end

/-! ## Statements without statements inside -/

theorem VarDecl.reads (d : VarDecl) (rest : List Token) :
    Reads (.varDecl d.tree) (d.clause ++ rest) rest := by
  obtain ⟨keyword, name, init, semicolon⟩ := d
  cases init with
  | none => exact .varPlain name.2 semicolon.2
  | some p =>
    obtain ⟨equals, e⟩ := p
    have h := e.reads (closed_cons rest (.inl semicolon.2))
    have hvar := Reads.varInit name.2 equals.2 h semicolon.2
    simpa [VarDecl.clause, VarDecl.tree] using hvar

theorem ExpressionStmt.reads (s : ExpressionStmt) (rest : List Token) :
    Reads (.expression s.e.tree) (s.tokens ++ rest) (s.semicolon.1 :: rest) := by
  have h := s.e.reads (closed_cons rest (.inl s.semicolon.2))
  simpa only [ExpressionStmt.tokens, List.append_assoc, List.cons_append, List.nil_append] using h

theorem ForInit.reads (init : ForInit) (rest : List Token) :
    Reads (.forInit init.tree?) (init.tokens ++ rest) rest := by
  cases init with
  | absent semicolon => exact .initNone semicolon.2
  | var d => exact .initVar d.keyword.2 (d.reads rest)
  | expression s =>
    have h := s.reads rest
    exact .initExpression (h.head_ne rfl rfl) (h.head_ne rfl rfl)
      (.expressionStmt h s.semicolon.2)

/-- An expression that may be missing, up to the token that ends its place. -/
theorem reads_optional (e : Option Expression) {stop : Token} (rest : List Token)
    (h : stop.kind = .semicolon ∨ stop.kind = .rightParen) :
    Reads (.optionalExpression stop.kind (e.map (·.tree))) (optionalTokens e ++ stop :: rest)
      (stop :: rest) := by
  cases e with
  | none => exact .absent rfl
  | some e =>
    have he := e.reads (closed_cons rest (h.imp_right .inl))
    refine .present ?_ he
    rcases h with h | h <;> rw [h] <;> exact he.head_ne rfl rfl

/-- Parameters, after `n` others, up to the closing parenthesis. -/
theorem reads_moreParameters {close : Token} (hc : close.kind = .rightParen) (us : List Token) :
    ∀ (others : List (Word .comma × Word .identifier)) (first : Word .identifier) (n : Nat),
      n + others.length + 1 ≤ 255 →
      Reads (.moreParameters n (first.1 :: others.map (·.2.1)))
        (first.1 :: (others.flatMap (fun p => [p.1.1, p.2.1]) ++ close :: us)) (close :: us)
  | [], first, n, hn => .lastParameter (Nat.lt_of_succ_le hn) first.2 (by simp [hc])
  | (comma, next) :: others, first, n, hn => by
    simp only [List.length_cons] at hn
    have h := reads_moreParameters hc us others next (n + 1) (by omega)
    have hlt : n < maxArguments := by
      show n < 255
      omega
    exact .nextParameter hlt first.2 comma.2 h

theorem reads_parameters (params : Option Parameters) {close : Token}
    (hc : close.kind = .rightParen) (us : List Token) :
    Reads (.parameters ((params.map (·.names)).getD []))
      ((params.map (·.tokens)).getD [] ++ close :: us) (close :: us) := by
  cases params with
  | none => exact .noParameters (by simp [hc])
  | some ps =>
    have h := reads_moreParameters hc us ps.others ps.first 0 (by have := ps.few; omega)
    exact .someParameters (by simp [Parameters.tokens, ps.first.2]) h

/-! ## Statements and declarations -/

theorem head_of_block {body : List Stmt} {ts rest : List Token} (h : Reads (.block body) ts rest) :
    headKind? ts ≠ some .kwElse := by
  cases h with
  | blockEnd hc => simp [hc]
  | blockNext _ _ h _ => exact h.head_ne rfl rfl

theorem head_of_declarations {stmts : List Stmt} {ts rest : List Token}
    (h : Reads (.declarations stmts) ts rest) : headKind? ts ≠ some .kwElse := by
  cases h with
  | finished => simp
  | further _ h _ => exact h.head_ne rfl rfl

theorem declarationForm?_of_statement {stmt : Stmt} {ts rest : List Token}
    (h : Reads (.statement stmt) ts rest) : (headKind? ts).bind declarationForm? = none := by
  cases h with
  | expressionForm _ h =>
    obtain ⟨kind, hk, hb⟩ := h.begins rfl
    rw [hk]
    exact (forms_of_beginsExpression hb).2
  | forForm hk | ifForm hk | printForm hk | returnForm hk | whileForm hk | blockForm hk =>
    rw [headKind?_cons, hk]
    rfl

mutual

/-- A declaration is read whatever comes after it, but for an `else`. -/
theorem Declaration.reads : ∀ (d : Declaration) {rest : List Token},
    headKind? rest ≠ some .kwElse → Reads (.declaration d.tree) (d.tokens ++ rest) rest
  | .classDecl keyword name superclass openBrace methods close, rest, _ => by
    have hmethods := Function.readsAll methods close.2 rest
    cases superclass with
    | none =>
      have h := Reads.classForm keyword.2 (.baseClass name.2 openBrace.2 hmethods close.2)
      simpa [Declaration.tokens, Declaration.tree] using h
    | some p =>
      obtain ⟨less, super⟩ := p
      have h := Reads.classForm keyword.2
        (.derivedClass name.2 less.2 super.2 openBrace.2 hmethods close.2)
      simpa [Declaration.tokens, Declaration.tree] using h
  | .function keyword f, rest, _ => .funForm keyword.2 (f.reads .function rest)
  | .var d, rest, _ => .varForm d.keyword.2 (d.reads rest)
  | .statement s, rest, helse => by
    have h := s.reads fun _ => helse
    exact .statementForm (declarationForm?_of_statement h) h

/-- A statement is read whatever comes after it, but for an `else` that it would take. -/
theorem Statement.reads : ∀ {takesElse : Bool} (s : Statement takesElse) {rest : List Token},
    (takesElse = true → headKind? rest ≠ some .kwElse) →
    Reads (.statement s.tree) (s.tokens ++ rest) rest
  | _, .expression s, rest, _ => by
    have h := s.reads rest
    obtain ⟨kind, hk, hb⟩ := h.begins rfl
    have hform : (headKind? (s.tokens ++ rest)).bind statementForm? = none := by
      rw [hk]
      exact (forms_of_beginsExpression hb).1
    exact .expressionForm hform (.expressionStmt h s.semicolon.2)
  | _, .print keyword s, rest, _ => .printForm keyword.2 (.printStmt (s.reads rest) s.semicolon.2)
  | _, .ret keyword value semicolon, rest, _ => by
    have h := reads_optional value rest (.inl semicolon.2)
    rw [semicolon.2] at h
    have hret := Reads.returnForm keyword.2 (.returnStmt h semicolon.2)
    simpa [Statement.tokens, Statement.tree] using hret
  | _, .block openBrace body close, rest, _ => by
    have h := Reads.blockForm openBrace.2 (Declaration.readsAll body close.2 rest)
    simpa [Statement.tokens, Statement.tree] using h
  | _, .ifThen keyword openParen test close yes, rest, helse => by
    have htest := test.reads (closed_cons (yes.tokens ++ rest) (.inr (.inl close.2)))
    have h := Reads.ifForm keyword.2 (.ifThen (.testInParens openParen.2 htest close.2)
      (yes.reads fun _ => helse rfl) (helse rfl))
    simpa [Statement.tokens, Statement.tree] using h
  | _, .ifElse keyword openParen test close yes elseWord no, rest, helse => by
    have htest := test.reads
      (closed_cons (yes.tokens ++ elseWord.1 :: (no.tokens ++ rest)) (.inr (.inl close.2)))
    have h := Reads.ifForm keyword.2 (.ifElse (.testInParens openParen.2 htest close.2)
      (yes.reads fun he => by cases he) elseWord.2 (no.reads helse))
    simpa [Statement.tokens, Statement.tree] using h
  | _, .whileLoop keyword openParen test close body, rest, helse => by
    have htest := test.reads (closed_cons (body.tokens ++ rest) (.inr (.inl close.2)))
    have h := Reads.whileForm keyword.2 (.testInParens openParen.2 htest close.2) (body.reads helse)
    simpa [Statement.tokens, Statement.tree] using h
  | _, .forLoop keyword openParen init test semicolon update close body, rest, helse => by
    have hupdate := reads_optional update (body.tokens ++ rest) (.inr close.2)
    have htest := reads_optional test (optionalTokens update ++ close.1 :: (body.tokens ++ rest))
      (.inl semicolon.2)
    rw [close.2] at hupdate
    rw [semicolon.2] at htest
    have h := Reads.forForm keyword.2 (.forStmt openParen.2 (init.reads _) htest semicolon.2 hupdate
      close.2 (body.reads helse))
    rw [tree_forLoop]
    simpa [Statement.tokens] using h

theorem Function.reads : ∀ (f : Function) (routine : Routine) (rest : List Token),
    Reads (.function routine f.tree) (f.tokens ++ rest) rest
  | .mk name openParen params close openBrace body closeBrace, routine, rest => by
    have hbody := Declaration.readsAll body closeBrace.2 rest
    have hparams := reads_parameters params close.2
      (openBrace.1 :: (Declaration.tokensAll body ++ closeBrace.1 :: rest))
    have h : Reads (.function routine _) _ _ :=
      .function name.2 openParen.2 hparams close.2 openBrace.2 hbody
    simpa [Function.tokens, Function.tree] using h

/-- The declarations of a block, and its closing brace. -/
theorem Declaration.readsAll : ∀ (ds : List Declaration) {close : Token},
    close.kind = .rightBrace → ∀ rest : List Token,
    Reads (.block (Declaration.trees ds)) (Declaration.tokensAll ds ++ close :: rest) rest
  | [], _, hc, _ => .blockEnd hc
  | d :: ds, close, hc, rest => by
    have hds := Declaration.readsAll ds hc rest
    have hd := d.reads (head_of_block hds)
    have h := Reads.blockNext (hd.head_ne rfl rfl) hd.past.ne_nil hd hds
    simpa only [Declaration.tokensAll, Declaration.trees, List.append_assoc] using h

/-- The methods of a class, up to its closing brace. -/
theorem Function.readsAll : ∀ (fs : List Function) {close : Token},
    close.kind = .rightBrace → ∀ rest : List Token,
    Reads (.methods (Function.trees fs)) (Function.tokensAll fs ++ close :: rest) (close :: rest)
  | [], _, hc, _ => .noMethods (.inl (by simp [Function.tokensAll, hc]))
  | f :: fs, close, hc, rest => by
    have hfs := Function.readsAll fs hc rest
    have hf := f.reads .method (Function.tokensAll fs ++ close :: rest)
    have hne :
        headKind? (f.tokens ++ (Function.tokensAll fs ++ close :: rest)) ≠ some .rightBrace := by
      obtain ⟨name, _, _, _, _, _, _⟩ := f
      simp [Function.tokens, name.2]
    have h := Reads.nextMethod hne hf.past.ne_nil hf hfs
    simpa only [Function.tokensAll, Function.trees, List.append_assoc] using h

end

theorem Program.reads : ∀ p : Program, Reads (.declarations p.tree) p.tokens []
  | [] => .finished
  | d :: ds => by
    have hds := Program.reads ds
    have hd := d.reads (head_of_declarations hds)
    exact .further hd.past.ne_nil hd hds

/-- **Every program of the grammar is parsed.** The tokens of a surface tree, with any mark of the
end after them, are parsed without a fault, and the statements are those that the tree stands for. -/
theorem parse_tokens (p : Program) (eof : Token) : parse p.tokens eof = ⟨p.tree, []⟩ :=
  parse_eq_iff.2 p.reads

end Lox.Surface

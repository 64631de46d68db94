import Lox.Proofs.Bare
import Lox.Proofs.Exec

/-!
# Parsing is blind to places

The parser looks at the kinds of tokens, at their texts and at the constants they spell, never at
their places. So from bare tokens it makes the bare tree and reports the same faults without their
lines, also where it refuses a declaration and goes on behind it. `Blind r x x'` says so of two
parsers: on bare tokens `x'` does what `x` does, and `r` makes its result from that of `x`.

Main statement: `Grammar.parse_bare`.
-/

namespace Lox.Grammar

/-- The cursor without the places of its tokens. -/
def Cursor.bare (c : Cursor) : Cursor :=
  ⟨c.rest.map .bare, c.eof.bare, c.diagnostics.map .bare⟩

section
variable {α β γ δ : Type} {r : α → β} {q : γ → δ} {x : Parser α} {x' : Parser β}

/-- What a parser comes to, without places. -/
def bareResult (r : α → β) : EStateM.Result Abort Cursor α → EStateM.Result Abort Cursor β
  | .ok a c => .ok (r a) c.bare
  | .error e c => .error e c.bare

/-- On bare tokens the second parser does what the first one does (module doc). -/
def Blind (r : α → β) (x : Parser α) (x' : Parser β) : Prop :=
  ∀ c : Cursor, x' c.bare = bareResult r (x c)

theorem blind_pure {a : α} {b : β} (h : b = r a) : Blind r (pure a) (pure b) := by
  subst h
  exact fun _ => rfl

theorem blind_throw (e : Abort) : Blind r (throw e) (throw e) := fun _ => rfl

theorem blind_bind {f : α → Parser γ} {f' : β → Parser δ} (hx : Blind r x x')
    (hf : ∀ a, Blind q (f a) (f' (r a))) : Blind q (x >>= f) (x' >>= f') := by
  intro c
  change EStateM.bind x' f' c.bare = bareResult q (EStateM.bind x f c)
  unfold EStateM.bind
  rw [hx c]
  cases x c with
  | ok a c₁ => exact hf a c₁
  | error e c₁ => rfl

theorem blind_map {g : α → γ} {g' : β → δ} (hx : Blind r x x') (hg : ∀ a, g' (r a) = q (g a)) :
    Blind q (g <$> x) (g' <$> x') := by
  intro c
  change EStateM.map g' x' c.bare = bareResult q (EStateM.map g x c)
  unfold EStateM.map
  rw [hx c]
  cases x c with
  | ok a c₁ => exact congrArg (EStateM.Result.ok · c₁.bare) (hg a)
  | error e c₁ => rfl

/-! ## Single tokens -/

theorem head?_bare (c : Cursor) : c.bare.rest.head? = c.rest.head?.map .bare := List.head?_map

theorem here_bare (c : Cursor) : c.bare.here = c.here.bare := by
  unfold Cursor.here
  cases hr : c.rest <;> simp [Cursor.bare, hr]

theorem blind_check (kind : TokenKind) : Blind id (check kind) (check kind) := by
  intro c
  unfold check
  rw [head?_bare]
  cases c.rest.head? <;> rfl

theorem blind_atEnd : Blind id atEnd atEnd := by
  intro c
  unfold atEnd
  rw [show c.bare.rest.isEmpty = c.rest.isEmpty from List.isEmpty_map]
  rfl

/-- A token that was found, without its place. -/
def bareFound {ι : Type} : Option (ι × Token) → Option (ι × Token) :=
  Option.map fun (a, t) => (a, t.bare)

theorem blind_acceptMap {ι : Type} (f : TokenKind → Option ι) :
    Blind bareFound (acceptMap f) (acceptMap f) := by
  intro c
  obtain ⟨ts, eof, ds⟩ := c
  cases ts with
  | nil => rfl
  | cons t ts =>
    simp only [acceptMap, Cursor.bare, List.map_cons, Token.kind_bare]
    cases f t.kind <;> rfl

theorem blind_accept (kind : TokenKind) :
    Blind (Option.map Token.bare) (accept kind) (accept kind) := by
  intro c
  obtain ⟨ts, eof, ds⟩ := c
  cases ts with
  | nil => rfl
  | cons t ts =>
    simp only [accept, Cursor.bare, List.map_cons, Token.kind_bare]
    split <;> rfl

theorem blind_complainAt (t : Token) (cause : Cause) :
    Blind id (complainAt t cause) (complainAt t.bare cause) := by
  intro c
  simp only [complainAt, Cursor.report, Cursor.bare, bareResult, List.map_append, List.map_cons,
    List.map_nil, Diagnostic.ofToken_bare, id]

theorem blind_complain (cause : Cause) : Blind id (complain cause) (complain cause) := by
  intro c
  unfold complain
  rw [here_bare]
  exact blind_complainAt c.here cause c

/-- A complaint on the way. -/
theorem blind_warn {p : Prop} [Decidable p] {cause : Cause} {k : Unit → Parser α}
    {k' : Unit → Parser β} (hk : Blind r (k ()) (k' ())) :
    Blind r (if p then complain cause >>= k else k ())
      (if p then complain cause >>= k' else k' ()) := by
  split
  · exact blind_bind (blind_complain cause) fun _ => hk
  · exact hk

theorem blind_refuse (e : Expected) : Blind r (refuse e) (refuse e) :=
  blind_bind (blind_complain _) fun _ => blind_throw _

theorem blind_expect (kind : TokenKind) (e : Expected) :
    Blind Token.bare (expect kind e) (expect kind e) := by
  refine blind_bind (blind_accept kind) fun o => ?_
  cases o with
  | some t => exact blind_pure rfl
  | none => exact blind_refuse e

theorem skipPast_bare (last : Token) (ts : List Token) :
    skipPast last.bare (ts.map .bare) = (skipPast last ts).map .bare := by
  induction ts generalizing last with
  | nil => rfl
  | cons t ts ih =>
    by_cases hend : last.kind = .semicolon
    · simp [skipPast, hend]
    by_cases hbegins : beginsStatement t.kind
    · simp [skipPast, hend, hbegins]
    · simp [skipPast, hend, hbegins, ih t]

theorem synchronize_bare (ts : List Token) :
    synchronize (ts.map .bare) = (synchronize ts).map .bare := by
  cases ts with
  | nil => rfl
  | cons t ts => exact skipPast_bare t ts

theorem blind_recover (hx : Blind r x x') : Blind (Option.map r) (recover x) (recover x') := by
  intro c
  unfold recover
  rw [hx c]
  cases x c with
  | ok a c₁ => rfl
  | error e c₁ =>
    cases e with
    | refused =>
      simp only [bareResult, Cursor.bare, synchronize_bare]
      rfl
    | outOfFuel => rfl

end

/-! ## Expressions -/

/-- A parser of expressions is blind to places. -/
abbrev BlindExpr (x : Parser Expr) : Prop := Blind (Expr.relabel .bare) x x

/-- The parsers of expressions with the depth `n` are blind to places. -/
structure BlindExpressions (n : Nat) : Prop where
  expression : BlindExpr (expression n)
  operand : ∀ level, BlindExpr (operand n level)
  tighter : ∀ level, BlindExpr (tighter n level)
  joined : ∀ level left,
    Blind (Expr.relabel .bare) (joined n level left) (joined n level (left.relabel .bare))
  unary : BlindExpr (unary n)
  suffixes : ∀ head,
    Blind (Expr.relabel .bare) (suffixes n head) (suffixes n (head.relabel .bare))
  arguments : Blind (Expr.relabelAll .bare) (arguments n) (arguments n)
  moreArguments : ∀ count,
    Blind (Expr.relabelAll .bare) (moreArguments n count) (moreArguments n count)
  primary : BlindExpr (primary n)

theorem blind_assignTo (target : Expr) (equals : Token) (value : Expr) :
    Blind (Expr.relabel .bare) (assignTo target equals value)
      (assignTo (target.relabel .bare) equals.bare (value.relabel .bare)) := by
  cases target with
  | name ref => exact blind_pure rfl
  | get object property => exact blind_pure rfl
  | _ => exact blind_bind (blind_complainAt equals _) fun _ => blind_pure rfl

section
variable {n : Nat} (ih : BlindExpressions n)
include ih

theorem BlindExpressions.expression_succ : BlindExpr (Grammar.expression (n + 1)) := by
  unfold Grammar.expression
  refine blind_bind (ih.operand .or) fun target => ?_
  refine blind_bind (blind_accept .equal) fun o => ?_
  cases o with
  | none => exact blind_pure rfl
  | some equals => exact blind_bind ih.expression fun value => blind_assignTo target equals value

theorem BlindExpressions.tighter_succ (level : Level) :
    BlindExpr (Grammar.tighter (n + 1) level) := by
  unfold Grammar.tighter
  split
  · exact ih.operand _
  · exact ih.unary

theorem BlindExpressions.joined_succ (level : Level) (left : Expr) :
    Blind (Expr.relabel .bare) (Grammar.joined (n + 1) level left)
      (Grammar.joined (n + 1) level (left.relabel .bare)) := by
  unfold Grammar.joined
  refine blind_bind (blind_acceptMap level.joint?) fun o => ?_
  cases o with
  | none => exact blind_pure rfl
  | some p =>
    obtain ⟨joint, token⟩ := p
    refine blind_bind (ih.tighter level) fun right => ?_
    rw [← joint.relabel_join .bare]
    exact ih.joined level _

theorem BlindExpressions.unary_succ : BlindExpr (Grammar.unary (n + 1)) := by
  unfold Grammar.unary
  refine blind_bind (blind_acceptMap unaryOp?) fun o => ?_
  cases o with
  | none => exact blind_bind ih.primary ih.suffixes
  | some p => exact blind_bind ih.unary fun right => blind_pure rfl

theorem BlindExpressions.suffixes_succ (head : Expr) :
    Blind (Expr.relabel .bare) (Grammar.suffixes (n + 1) head)
      (Grammar.suffixes (n + 1) (head.relabel .bare)) := by
  unfold Grammar.suffixes
  refine blind_bind (blind_accept .leftParen) fun o => ?_
  cases o with
  | some t =>
    refine blind_bind ih.arguments fun args => ?_
    refine blind_bind (blind_expect .rightParen _) fun paren => ?_
    exact ih.suffixes (.call head paren args)
  | none =>
    refine blind_bind (blind_accept .dot) fun o => ?_
    cases o with
    | some t =>
      refine blind_bind (blind_expect .identifier _) fun property => ?_
      exact ih.suffixes (.get head property)
    | none => exact blind_pure rfl

theorem BlindExpressions.arguments_succ :
    Blind (Expr.relabelAll .bare) (Grammar.arguments (n + 1)) (Grammar.arguments (n + 1)) := by
  unfold Grammar.arguments
  refine blind_bind (blind_check .rightParen) fun b => ?_
  cases b with
  | true => exact blind_pure rfl
  | false => exact ih.moreArguments 0

theorem BlindExpressions.moreArguments_succ (count : Nat) :
    Blind (Expr.relabelAll .bare) (Grammar.moreArguments (n + 1) count)
      (Grammar.moreArguments (n + 1) count) := by
  unfold Grammar.moreArguments
  refine blind_warn (blind_bind ih.expression fun arg => ?_)
  refine blind_bind (blind_accept .comma) fun o => ?_
  cases o with
  | some t => exact blind_bind (ih.moreArguments (count + 1)) fun args => blind_pure rfl
  | none => exact blind_pure rfl

theorem BlindExpressions.primary_succ : BlindExpr (Grammar.primary (n + 1)) := by
  unfold Grammar.primary
  refine blind_bind (blind_acceptMap start?) fun o => ?_
  cases o with
  | none => exact blind_refuse _
  | some p =>
    obtain ⟨start, token⟩ := p
    cases start with
    | constant => exact blind_pure rfl
    | name => exact blind_pure rfl
    | thisWord => exact blind_pure rfl
    | superWord =>
      refine blind_bind (blind_expect .dot _) fun _ => ?_
      exact blind_bind (blind_expect .identifier _) fun method => blind_pure rfl
    | paren =>
      refine blind_bind ih.expression fun inner => ?_
      exact blind_bind (blind_expect .rightParen _) fun _ => blind_pure rfl

end

theorem blindExpressions : ∀ n, BlindExpressions n
  | 0 => by constructor <;> intros <;> exact blind_throw _
  | n + 1 =>
    have ih := blindExpressions n
    { expression := ih.expression_succ
      operand := fun level => blind_bind (ih.tighter level) (ih.joined level)
      tighter := ih.tighter_succ
      joined := ih.joined_succ
      unary := ih.unary_succ
      suffixes := ih.suffixes_succ
      arguments := ih.arguments_succ
      moreArguments := ih.moreArguments_succ
      primary := ih.primary_succ }

/-! ## Statements without statements inside -/

/-- A parser of statements is blind to places. -/
abbrev BlindStmt (x : Parser Stmt) : Prop := Blind (Stmt.relabel .bare) x x

section
variable (n : Nat)

theorem blind_varDecl : BlindStmt (varDecl n) := by
  unfold varDecl
  refine blind_bind (blind_expect .identifier _) fun name => ?_
  refine blind_bind (blind_accept .equal) fun o => ?_
  cases o with
  | some t =>
    refine blind_bind (r := Option.map (Expr.relabel .bare))
      (blind_map (blindExpressions n).expression fun _ => rfl) fun init => ?_
    exact blind_bind (blind_expect .semicolon _) fun _ => blind_pure rfl
  | none =>
    refine blind_bind (r := Option.map (Expr.relabel .bare)) (blind_pure rfl) fun init => ?_
    exact blind_bind (blind_expect .semicolon _) fun _ => blind_pure rfl

theorem blind_expressionStmt : BlindStmt (expressionStmt n) := by
  unfold expressionStmt
  refine blind_bind (blindExpressions n).expression fun e => ?_
  exact blind_bind (blind_expect .semicolon _) fun _ => blind_pure rfl

theorem blind_printStmt : BlindStmt (printStmt n) := by
  unfold printStmt
  refine blind_bind (blindExpressions n).expression fun e => ?_
  exact blind_bind (blind_expect .semicolon _) fun _ => blind_pure rfl

theorem blind_optionalExpression (stop : TokenKind) :
    Blind (Option.map (Expr.relabel .bare)) (optionalExpression n stop)
      (optionalExpression n stop) := by
  unfold optionalExpression
  refine blind_bind (blind_check stop) fun b => ?_
  cases b with
  | true => exact blind_pure rfl
  | false => exact blind_map (blindExpressions n).expression fun _ => rfl

theorem blind_returnStmt (keyword : Token) :
    Blind (Stmt.relabel .bare) (returnStmt n keyword) (returnStmt n keyword.bare) := by
  unfold returnStmt
  refine blind_bind (blind_optionalExpression n .semicolon) fun value => ?_
  exact blind_bind (blind_expect .semicolon _) fun _ => blind_pure rfl

theorem blind_forInit : Blind (Option.map (Stmt.relabel .bare)) (forInit n) (forInit n) := by
  unfold forInit
  refine blind_bind (blind_accept .semicolon) fun o => ?_
  cases o with
  | some t => exact blind_pure rfl
  | none =>
    refine blind_bind (blind_accept .kwVar) fun o => ?_
    cases o with
    | some t => exact blind_map (blind_varDecl n) fun _ => rfl
    | none => exact blind_map (blind_expressionStmt n) fun _ => rfl

theorem blind_testInParens (start stop : Expected) : BlindExpr (testInParens n start stop) := by
  unfold testInParens
  refine blind_bind (blind_expect .leftParen start) fun _ => ?_
  refine blind_bind (blindExpressions n).expression fun test => ?_
  exact blind_bind (blind_expect .rightParen stop) fun _ => blind_pure rfl

end

theorem blind_moreParameters : ∀ n count : Nat,
    Blind (List.map Token.bare) (moreParameters n count) (moreParameters n count)
  | 0, _ => blind_throw _
  | n + 1, count => by
    unfold moreParameters
    refine blind_warn (blind_bind (blind_expect .identifier _) fun param => ?_)
    refine blind_bind (blind_accept .comma) fun o => ?_
    cases o with
    | some t => exact blind_bind (blind_moreParameters n (count + 1)) fun params => blind_pure rfl
    | none => exact blind_pure rfl

theorem blind_parameters (n : Nat) :
    Blind (List.map Token.bare) (parameters n) (parameters n) := by
  unfold parameters
  refine blind_bind (blind_check .rightParen) fun b => ?_
  cases b with
  | true => exact blind_pure rfl
  | false => exact blind_moreParameters n 0

/-! ## Statements and declarations -/

/-- The parsers of statements with the depth `n` are blind to places. -/
structure BlindStatements (n : Nat) : Prop where
  declaration : Blind (Option.map (Stmt.relabel .bare)) (declaration n) (declaration n)
  classDecl : BlindStmt (classDecl n)
  methods : Blind (FunDecl.relabelAll .bare) (methods n) (methods n)
  function : ∀ routine, Blind (FunDecl.relabel .bare) (function n routine) (function n routine)
  block : Blind (Stmt.relabelAll .bare) (block n) (block n)
  statement : BlindStmt (statement n)
  forStmt : BlindStmt (forStmt n)
  ifStmt : BlindStmt (ifStmt n)

theorem relabelAll_toList_append (φ : Token → Token) (first : Option Stmt) (rest : List Stmt) :
    (first.map (Stmt.relabel φ)).toList ++ Stmt.relabelAll φ rest =
      Stmt.relabelAll φ (first.toList ++ rest) := by
  cases first <;> rfl

section
variable {n : Nat} (ih : BlindStatements n)
include ih

theorem BlindStatements.declaration_succ :
    Blind (Option.map (Stmt.relabel .bare)) (Grammar.declaration (n + 1))
      (Grammar.declaration (n + 1)) := by
  unfold Grammar.declaration
  refine blind_recover (blind_bind (blind_acceptMap declarationForm?) fun o => ?_)
  cases o with
  | none => exact ih.statement
  | some p =>
    obtain ⟨form, t⟩ := p
    cases form with
    | classForm => exact ih.classDecl
    | funForm => exact blind_map (ih.function .function) fun _ => rfl
    | _ => exact blind_varDecl n

theorem BlindStatements.classDecl_succ : BlindStmt (Grammar.classDecl (n + 1)) := by
  unfold Grammar.classDecl
  refine blind_bind (blind_expect .identifier _) fun name => ?_
  refine blind_bind (blind_accept .less) fun o => ?_
  have hrest : ∀ superclass : Option Reference, Blind (Stmt.relabel .bare)
      (do
        let _ ← expect .leftBrace .classBody
        let methods ← Grammar.methods n
        let _ ← expect .rightBrace .classEnd
        pure (Stmt.classDecl name superclass methods))
      (do
        let _ ← expect .leftBrace .classBody
        let methods ← Grammar.methods n
        let _ ← expect .rightBrace .classEnd
        pure (Stmt.classDecl name.bare (superclass.map (·.relabel .bare)) methods)) := by
    intro superclass
    refine blind_bind (blind_expect .leftBrace _) fun _ => ?_
    refine blind_bind ih.methods fun methods => ?_
    exact blind_bind (blind_expect .rightBrace _) fun _ => blind_pure rfl
  cases o with
  | some t =>
    exact blind_bind (r := Option.map (Reference.relabel .bare))
      (blind_map (blind_expect .identifier _) fun _ => rfl) hrest
  | none => exact blind_bind (r := Option.map (Reference.relabel .bare)) (blind_pure rfl) hrest

theorem BlindStatements.methods_succ :
    Blind (FunDecl.relabelAll .bare) (Grammar.methods (n + 1)) (Grammar.methods (n + 1)) := by
  unfold Grammar.methods
  refine blind_bind (blind_check .rightBrace) fun b => ?_
  refine blind_bind blind_atEnd fun b' => ?_
  simp only [id]
  split
  · exact blind_pure rfl
  · refine blind_bind (ih.function .method) fun method => ?_
    exact blind_bind ih.methods fun rest => blind_pure rfl

theorem BlindStatements.function_succ (routine : Routine) :
    Blind (FunDecl.relabel .bare) (Grammar.function (n + 1) routine)
      (Grammar.function (n + 1) routine) := by
  unfold Grammar.function
  refine blind_bind (blind_expect .identifier _) fun name => ?_
  refine blind_bind (blind_expect .leftParen _) fun _ => ?_
  refine blind_bind (blind_parameters n) fun params => ?_
  refine blind_bind (blind_expect .rightParen _) fun _ => ?_
  refine blind_bind (blind_expect .leftBrace _) fun _ => ?_
  exact blind_bind ih.block fun body => blind_pure rfl

theorem BlindStatements.block_succ :
    Blind (Stmt.relabelAll .bare) (Grammar.block (n + 1)) (Grammar.block (n + 1)) := by
  unfold Grammar.block
  refine blind_bind (blind_check .rightBrace) fun b => ?_
  refine blind_bind blind_atEnd fun b' => ?_
  simp only [id]
  split
  · exact blind_bind (blind_expect .rightBrace _) fun _ => blind_pure rfl
  · refine blind_bind ih.declaration fun first => ?_
    exact blind_bind ih.block fun rest => blind_pure (relabelAll_toList_append .bare first rest)

theorem BlindStatements.statement_succ : BlindStmt (Grammar.statement (n + 1)) := by
  unfold Grammar.statement
  refine blind_bind (blind_acceptMap statementForm?) fun o => ?_
  have hblock : BlindStmt (Stmt.block <$> Grammar.block n) := blind_map ih.block fun _ => rfl
  cases o with
  | none => exact blind_expressionStmt n
  | some p =>
    obtain ⟨form, t⟩ := p
    cases form with
    | forForm => exact ih.forStmt
    | ifForm => exact ih.ifStmt
    | printForm => exact blind_printStmt n
    | returnForm => exact blind_returnStmt n t
    | whileForm =>
      refine blind_bind (blind_testInParens n _ _) fun test => ?_
      exact blind_bind ih.statement fun body => blind_pure rfl
    | _ => exact hblock

theorem BlindStatements.forStmt_succ : BlindStmt (Grammar.forStmt (n + 1)) := by
  unfold Grammar.forStmt
  refine blind_bind (blind_expect .leftParen _) fun _ => ?_
  refine blind_bind (blind_forInit n) fun init => ?_
  refine blind_bind (blind_optionalExpression n .semicolon) fun test => ?_
  refine blind_bind (blind_expect .semicolon _) fun _ => ?_
  refine blind_bind (blind_optionalExpression n .rightParen) fun update => ?_
  refine blind_bind (blind_expect .rightParen _) fun _ => ?_
  exact blind_bind ih.statement fun body => blind_pure (Stmt.relabel_forLoop ..).symm

theorem BlindStatements.ifStmt_succ : BlindStmt (Grammar.ifStmt (n + 1)) := by
  unfold Grammar.ifStmt
  refine blind_bind (blind_testInParens n _ _) fun test => ?_
  refine blind_bind ih.statement fun yes => ?_
  refine blind_bind (blind_accept .kwElse) fun o => ?_
  cases o with
  | some t => exact blind_bind ih.statement fun no => blind_pure rfl
  | none => exact blind_pure rfl

end

theorem blindStatements : ∀ n, BlindStatements n
  | 0 => by constructor <;> intros <;> exact blind_throw _
  | n + 1 =>
    have ih := blindStatements n
    { declaration := ih.declaration_succ
      classDecl := ih.classDecl_succ
      methods := ih.methods_succ
      function := ih.function_succ
      block := ih.block_succ
      statement := ih.statement_succ
      forStmt := ih.forStmt_succ
      ifStmt := ih.ifStmt_succ }

/-! ## Programs -/

theorem blind_declarations : ∀ n,
    Blind (Stmt.relabelAll .bare) (declarations n) (declarations n)
  | 0 => blind_throw _
  | n + 1 => by
    unfold declarations
    refine blind_bind blind_atEnd fun b => ?_
    cases b with
    | true => exact blind_pure rfl
    | false =>
      refine blind_bind (blindStatements n).declaration fun first => ?_
      exact blind_bind (blind_declarations n) fun rest =>
        blind_pure (relabelAll_toList_append .bare first rest)

/-- **Parsing is blind to places**: bare tokens are parsed to the bare statements, with the same
faults in the same order but for their lines. -/
theorem parse_bare (ts : List Token) (eof : Token) :
    parse (ts.map .bare) eof.bare =
      ⟨Stmt.relabelAll .bare (parse ts eof).statements,
        (parse ts eof).diagnostics.map .bare⟩ := by
  have hrun : declarations (depthFor ts) ⟨ts.map .bare, eof.bare, []⟩ =
      bareResult (Stmt.relabelAll .bare) (declarations (depthFor ts) ⟨ts, eof, []⟩) :=
    blind_declarations (depthFor ts) ⟨ts, eof, []⟩
  unfold parse
  rw [depthFor, List.length_map, ← depthFor, hrun]
  cases declarations (depthFor ts) ⟨ts, eof, []⟩ <;> rfl

end Lox.Grammar

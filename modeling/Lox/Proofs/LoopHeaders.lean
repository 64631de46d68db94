import Lox.Proofs.Acceptance
import Lox.Proofs.BlindParsing
import Lox.Proofs.Recognition
import Lox.Scope

/-!
# Loops with a header

A loop with a header can be written with a block, a plain loop and a block for each round
(`Header.expansion`). If its clauses and its body are understood each on its own, both texts are
parsed to the same tree, that of the clauses put together (`Header.parse_loop`,
`Header.parse_expansion`): no clause takes a token of the next one, in either of them. Binding the
loop binds its clauses, in the scopes that the blocks open (`Clauses.bind_loop`).
-/

namespace Lox

open Grammar Surface

/-! ## Clauses -/

/-- The clauses of a loop header and the body of the loop. -/
structure Clauses where
  init : Option Stmt
  test : Option Expr
  update : Option Expr
  body : Stmt

namespace Clauses

/-- The loop with these clauses. -/
def loop (c : Clauses) : Stmt := .forLoop c.init c.test c.update c.body

/-- What is tested before each round. -/
def condition (c : Clauses) : Expr := c.test.getD (.literal (.bool true))

/-- What a round executes: the body, and the update after it. -/
def round (c : Clauses) : Stmt :=
  match c.update with
  | some e => .block [c.body, .expression e]
  | none => c.body

/-- The plain loop. -/
def rounds (c : Clauses) : Stmt := .loop c.condition c.round

theorem loop_eq (c : Clauses) :
    c.loop = match c.init with
      | some stmt => .block [stmt, c.rounds]
      | none => c.rounds := rfl

/-- The scopes around the rounds, and those around a body. -/
def scopes (c : Clauses) (σ : Scopes) : Scopes × Scopes :=
  let outer := match c.init with
    | some stmt => stmt.declare ([] :: σ)
    | none => σ
  (outer, if c.update.isSome then [] :: outer else outer)

/-- The clauses bound, each in its scopes. -/
def bind (c : Clauses) (σ : Scopes) : Clauses where
  init := c.init.map (·.bind ([] :: σ))
  test := c.test.map (·.bind (c.scopes σ).1)
  update := c.update.map (·.bind (c.body.declare (c.scopes σ).2))
  body := c.body.bind (c.scopes σ).2

/-- Binding a loop binds its clauses. -/
theorem bind_loop (c : Clauses) (σ : Scopes) : c.loop.bind σ = (c.bind σ).loop := by
  obtain ⟨init, test, update, body⟩ := c
  cases init <;> cases test <;> cases update <;> rfl

end Clauses

/-! ## Texts -/

/-- The texts of the clauses and the body; a clause that is missing is `none`. The first clause has
its semicolon. -/
structure Header where
  init : Option (List Token)
  test : Option (List Token)
  update : Option (List Token)
  body : List Token

namespace Header

/-- A token with a spelling, at no place. -/
def word (kind : TokenKind) (lexeme : String) : Word kind := ⟨⟨kind, lexeme, 0, 0⟩, rfl⟩

/-- The loop: `for ( init test ; update ) body`. -/
def tokens (h : Header) : List Token :=
  [(word .kwFor "for").1, (word .leftParen "(").1] ++ h.init.getD [(word .semicolon ";").1] ++
    h.test.getD [] ++ [(word .semicolon ";").1] ++ h.update.getD [] ++ [(word .rightParen ")").1] ++
    h.body

/-- What a round executes: `{ body update ; }`, or the body alone. -/
def round (h : Header) : List Token :=
  match h.update with
  | some update =>
    [(word .leftBrace "\x7b").1] ++ h.body ++ update ++
      [(word .semicolon ";").1, (word .rightBrace "\x7d").1]
  | none => h.body

/-- The plain loop: `while ( test ) round`, with `true` for a missing test. -/
def rounds (h : Header) : List Token :=
  [(word .kwWhile "while").1, (word .leftParen "(").1] ++
    h.test.getD [(word .kwTrue "true").1] ++ [(word .rightParen ")").1] ++ h.round

/-- The loop written out: `{ init rounds }`, or the plain loop alone. -/
def expansion (h : Header) : List Token :=
  match h.init with
  | some init => [(word .leftBrace "\x7b").1] ++ init ++ h.rounds ++ [(word .rightBrace "\x7d").1]
  | none => h.rounds

end Header

namespace Grammar

/-- The parser takes the tokens, all of them, reports nothing and yields `a`. -/
def Alone {α : Type} (x : Nat → Parser α) (ts : List Token) (a : α) : Prop :=
  ∃ (n : Nat) (eof : Token), x n ⟨ts, eof, []⟩ = .ok a ⟨[], eof, []⟩

theorem Alone.reads_expression {ts : List Token} {e : Expr} (h : Alone expression ts e) :
    Reads (.expression e) ts [] := by
  obtain ⟨n, eof, hrun⟩ := h
  exact (((readsExpressions n).expression ⟨ts, eof, []⟩).ok hrun).2 rfl

theorem Alone.reads_statement {ts : List Token} {stmt : Stmt} (h : Alone statement ts stmt) :
    Reads (.statement stmt) ts [] := by
  obtain ⟨n, eof, hrun⟩ := h
  exact (((readsStatements n).statement ⟨ts, eof, []⟩).ok hrun).2 rfl

theorem Alone.reads_declaration {ts : List Token} {stmt : Stmt}
    (h : Alone declaration ts (some stmt)) : Reads (.declaration stmt) ts [] := by
  obtain ⟨n, eof, hrun⟩ := h
  obtain ⟨stmt', he, hr⟩ := (((readsStatements n).declaration ⟨ts, eof, []⟩).ok hrun).2 rfl
  cases he
  exact hr

end Grammar

/-- The statements that can be the first clause of a header. -/
def Stmt.isClause : Stmt → Bool
  | .var _ _ | .expression _ => true
  | _ => false

/-- Each clause that is there, and the body, is understood on its own. -/
structure Header.Parses (h : Header) (c : Clauses) : Prop where
  init : Option.Rel (fun ts stmt => Alone declaration ts (some stmt) ∧ stmt.isClause = true)
    h.init c.init
  test : Option.Rel (Alone expression) h.test c.test
  update : Option.Rel (Alone expression) h.update c.update
  body : Alone statement h.body c.body

/-- Two related options are both missing or both there. -/
theorem rel_cases {α β : Type} {R : α → β → Prop} {o : Option α} {o' : Option β}
    (h : Option.Rel R o o') :
    (o = none ∧ o' = none) ∨ ∃ a b, o = some a ∧ o' = some b ∧ R a b := by
  cases h with
  | none => exact .inl ⟨rfl, rfl⟩
  | some h => exact .inr ⟨_, _, rfl, rfl, h⟩

/-! ## Surface trees of the parts -/

namespace Header

/-- An expression that is understood has a surface tree. -/
theorem surface_expression {ts : List Token} {e : Expr} (h : Alone expression ts e) :
    ∃ x : Expression, x.tree = e ∧ x.tokens = ts := by
  obtain ⟨x, ht, hts⟩ := surfaces_of_reads h.reads_expression
  exact ⟨x, ht, by simpa using hts.symm⟩

theorem surface_optional {ts : Option (List Token)} {e : Option Expr}
    (h : Option.Rel (Alone expression) ts e) :
    ∃ x : Option Expression, x.map (·.tree) = e ∧ x.map (·.tokens) = ts := by
  cases h with
  | none => exact ⟨none, rfl, rfl⟩
  | some h =>
    obtain ⟨x, rfl, rfl⟩ := surface_expression h
    exact ⟨some x, rfl, rfl⟩

theorem surface_statement {ts : List Token} {stmt : Stmt} (h : Alone statement ts stmt) :
    ∃ (takesElse : Bool) (x : Statement takesElse), x.tree = stmt ∧ x.tokens = ts := by
  obtain ⟨takesElse, x, ht, hts, -⟩ := surfaces_of_reads h.reads_statement
  exact ⟨takesElse, x, ht, by simpa using hts.symm⟩

theorem not_isClause_forLoop (init : Option Stmt) (test update : Option Expr) (body : Stmt) :
    (Stmt.forLoop init test update body).isClause = false := by
  cases init <;> rfl

/-- Only an expression statement is a statement that can be a clause. -/
theorem eq_expression_of_isClause : ∀ {takesElse : Bool} (x : Statement takesElse),
    x.tree.isClause = true → ∃ y : ExpressionStmt, y.tree = x.tree ∧ y.tokens = x.tokens
  | _, .expression y, _ => ⟨y, rfl, rfl⟩
  | _, .print .., h | _, .ret .., h | _, .block .., h | _, .ifThen .., h | _, .ifElse .., h
  | _, .whileLoop .., h => by cases h
  | _, .forLoop keyword openParen init test semicolon update close body, h => by
    rw [tree_forLoop, not_isClause_forLoop] at h
    cases h

/-- A first clause has a surface tree, as a clause and as a declaration. -/
theorem surface_init {ts : List Token} {stmt : Stmt} (h : Alone declaration ts (some stmt))
    (hc : stmt.isClause = true) :
    (∃ x : ForInit, x.tree? = some stmt ∧ x.tokens = ts) ∧
      ∃ d : Declaration, d.tree = stmt ∧ d.tokens = ts := by
  obtain ⟨d, rfl, hts⟩ := surfaces_of_reads h.reads_declaration
  rw [List.append_nil] at hts
  subst hts
  refine ⟨?_, d, rfl, rfl⟩
  cases d with
  | classDecl | function => cases hc
  | var d => exact ⟨.var d, rfl, rfl⟩
  | statement x =>
    obtain ⟨y, ht, hts⟩ := eq_expression_of_isClause x hc
    exact ⟨.expression y, congrArg some ht, hts⟩

theorem surface_forInit {ts : Option (List Token)} {stmt : Option Stmt}
    (h : Option.Rel (fun ts stmt => Alone declaration ts (some stmt) ∧ stmt.isClause = true)
      ts stmt) :
    ∃ x : ForInit, x.tree? = stmt ∧ x.tokens = ts.getD [(word .semicolon ";").1] := by
  cases h with
  | none => exact ⟨.absent (word .semicolon ";"), rfl, rfl⟩
  | some h => exact (surface_init h.1 h.2).1

/-- The test of the plain loop: the test of the header, or `true`. -/
theorem surface_condition {ts : Option (List Token)} {test : Option Expr}
    (h : Option.Rel (Alone expression) ts test) :
    ∃ x : Expression, x.tree = test.getD (.literal (.bool true)) ∧
      x.tokens = ts.getD [(word .kwTrue "true").1] := by
  cases h with
  | none => exact surface_expression ⟨20, ⟨.eof, "", 0, 0⟩, rfl⟩
  | some h => exact surface_expression h

/-- A statement with a surface tree is parsed as a program. -/
theorem parse_of_surface {ts : List Token} {stmt : Stmt}
    (h : ∃ (takesElse : Bool) (x : Statement takesElse), x.tree = stmt ∧ x.tokens = ts)
    (eof : Token) : parse ts eof = ⟨[stmt], []⟩ := by
  obtain ⟨takesElse, x, rfl, rfl⟩ := h
  refine parse_eq_iff.2 ?_
  have hreads := Program.reads [.statement x]
  rwa [Program.tokens, Declaration.tokensAll, Declaration.tokensAll, List.append_nil] at hreads

/-! ## The two texts -/

section
variable {h : Header} {c : Clauses} (hp : h.Parses c)
include hp

theorem surface_tokens : ∃ (takesElse : Bool) (x : Statement takesElse),
    x.tree = c.loop ∧ x.tokens = h.tokens := by
  obtain ⟨init, hinit, hinit'⟩ := surface_forInit hp.init
  obtain ⟨test, htest, htest'⟩ := surface_optional hp.test
  obtain ⟨update, hupdate, hupdate'⟩ := surface_optional hp.update
  obtain ⟨takesElse, body, hbody, hbody'⟩ := surface_statement hp.body
  refine ⟨takesElse, .forLoop (word .kwFor "for") (word .leftParen "(") init test
    (word .semicolon ";") update (word .rightParen ")") body, ?_, ?_⟩
  · rw [tree_forLoop, hinit, htest, hupdate, hbody]
    rfl
  · simp only [Statement.tokens, optionalTokens, hinit', htest', hupdate', hbody', tokens,
      List.append_assoc, List.cons_append, List.nil_append]

/-- A round has a surface tree: the update cannot be taken for a branch of the body. -/
theorem surface_round : ∃ (takesElse : Bool) (x : Statement takesElse),
    x.tree = c.round ∧ x.tokens = h.round := by
  obtain ⟨takesElse, body, hbody, hbody'⟩ := surface_statement hp.body
  unfold Clauses.round round
  rcases rel_cases hp.update with ⟨hts, he⟩ | ⟨ts, e, hts, he, hu⟩
  · rw [hts, he]
    exact ⟨takesElse, body, hbody, hbody'⟩
  · obtain ⟨update, htree, htokens⟩ := surface_expression hu
    rw [hts, he]
    refine ⟨false, .block (word .leftBrace "\x7b") [.statement body,
      .statement (.expression ⟨update, word .semicolon ";"⟩)] (word .rightBrace "\x7d"), ?_, ?_⟩
    · simp only [Statement.tree, Declaration.trees, Declaration.tree, ExpressionStmt.tree, hbody,
        htree]
    · simp only [Statement.tokens, Declaration.tokensAll, Declaration.tokens,
        ExpressionStmt.tokens, hbody', htokens, List.append_assoc, List.cons_append,
        List.nil_append]

theorem surface_rounds : ∃ (takesElse : Bool) (x : Statement takesElse),
    x.tree = c.rounds ∧ x.tokens = h.rounds := by
  obtain ⟨test, htest, htest'⟩ := surface_condition hp.test
  obtain ⟨takesElse, round, hround, hround'⟩ := surface_round hp
  refine ⟨takesElse, .whileLoop (word .kwWhile "while") (word .leftParen "(") test
    (word .rightParen ")") round, ?_, ?_⟩
  · simp only [Statement.tree, htest, hround]
    rfl
  · simp only [Statement.tokens, htest', hround', rounds, List.append_assoc, List.cons_append,
      List.nil_append]

theorem surface_expansion : ∃ (takesElse : Bool) (x : Statement takesElse),
    x.tree = c.loop ∧ x.tokens = h.expansion := by
  obtain ⟨takesElse, rounds, hrounds, hrounds'⟩ := surface_rounds hp
  rw [c.loop_eq]
  unfold expansion
  rcases rel_cases hp.init with ⟨hts, hs⟩ | ⟨ts, stmt, hts, hs, hi⟩
  · rw [hts, hs]
    exact ⟨takesElse, rounds, hrounds, hrounds'⟩
  · obtain ⟨d, htree, htokens⟩ := (surface_init hi.1 hi.2).2
    rw [hts, hs]
    refine ⟨false, .block (word .leftBrace "\x7b") [d, .statement rounds]
      (word .rightBrace "\x7d"), ?_, ?_⟩
    · simp only [Statement.tree, Declaration.trees, Declaration.tree, htree, hrounds]
    · simp only [Statement.tokens, Declaration.tokensAll, Declaration.tokens, htokens,
        hrounds', List.append_assoc, List.cons_append, List.nil_append]

/-- **A loop with a header is parsed to its clauses put together.** -/
theorem parse_loop (eof : Token) : parse h.tokens eof = ⟨[c.loop], []⟩ :=
  parse_of_surface (surface_tokens hp) eof

/-- **The loop written out is parsed to the same tree.** -/
theorem parse_expansion (eof : Token) : parse h.expansion eof = ⟨[c.loop], []⟩ :=
  parse_of_surface (surface_expansion hp) eof

end

end Header

namespace Grammar

/-- Tokens at other places are parsed to the same tree but for the places. -/
theorem parse_of_map_bare {ts ts' : List Token} {stmts : List Stmt}
    (h : ∀ eof, parse ts eof = ⟨stmts, []⟩) (hts : ts'.map Token.bare = ts.map Token.bare)
    (eof : Token) :
    (parse ts' eof).diagnostics = [] ∧
      Stmt.relabelAll .bare (parse ts' eof).statements = Stmt.relabelAll .bare stmts := by
  have hbare := parse_bare ts eof
  rw [← hts, parse_bare ts' eof, h eof] at hbare
  injection hbare with hstmts hdiagnostics
  exact ⟨List.map_eq_nil_iff.1 hdiagnostics, hstmts⟩

end Grammar

end Lox

import Lox.Proofs.Respelling
import Lox.Proofs.TextOrder

/-!
# Parsing keeps the order of the text

What the parser returns keeps to the order of the tokens it has read, also where it has reported
faults and dropped declarations on the way. `Takes x c P` says so of a parser: it leaves an end of
the tokens it finds, whether it returns or refuses, and what it returns is in `P`. For trees, `P` is
`Expr.Comes` or `Stmt.Comes`, with the tokens found and the tokens left.

Main statement: the statements of every source are formed and in order (`Program.comes`).
-/

namespace Lox

/-! ## Fair tokens -/

/-- Tokens as the scanner yields them: well spelled, and in the order of their places. -/
structure Fair (ts : List Token) : Prop where
  spelled : ∀ t ∈ ts, t.Spelled
  sorted : ts.Pairwise fun t t' => t.offset < t'.offset

theorem Fair.suffix {ts rest : List Token} (h : Fair ts) (hs : rest <:+ ts) : Fair rest :=
  ⟨fun t ht => h.spelled t (hs.subset ht), h.sorted.sublist hs.sublist⟩

theorem Fair.between_head {t : Token} {ts : List Token} (h : Fair (t :: ts)) :
    Between (t :: ts) ts [t] := by
  intro x hx
  cases List.mem_singleton.1 hx
  exact ⟨List.mem_cons_self, (List.pairwise_cons.1 h.sorted).1⟩

theorem fair_scan (source : String) : Fair (scan source).tokens :=
  ⟨spelled_scan source, (Piece.tokens_sorted (Piece.pieces source.toList) .start
    fun piece hp => (Piece.proper_pieces _ piece hp).1).2⟩

namespace Grammar

section
variable {α β : Type} {x : Parser α} {f : α → Parser β} {c : Cursor} {P : α → List Token → Prop}
  {Q : β → List Token → Prop}

/-- How a parser goes on in the text (module doc). -/
def Takes (x : Parser α) (c : Cursor) (P : α → List Token → Prop) : Prop :=
  Fair c.rest → Ends x c (fun a c' => c'.rest <:+ c.rest ∧ P a c'.rest)
    (fun _ c' => c'.rest <:+ c.rest)

theorem takes_pure {a : α} (h : P a c.rest) : Takes (pure a) c P :=
  fun _ => ends_pure ⟨List.suffix_refl _, h⟩

theorem takes_outOfFuel : Takes (throw .outOfFuel) c P :=
  fun _ => ends_throw (List.suffix_refl _)

theorem Takes.mono {P' : α → List Token → Prop} (hx : Takes x c P)
    (h : ∀ a rest, rest <:+ c.rest → P a rest → P' a rest) : Takes x c P' :=
  fun hc => Ends.mono (hx hc) (fun a c' _ hq => ⟨hq.1, h a c'.rest hq.1 hq.2⟩) fun _ _ he => he

theorem takes_bind (hx : Takes x c P)
    (hf : ∀ a c', c'.rest <:+ c.rest → P a c'.rest → Takes (f a) c' Q) :
    Takes (x >>= f) c Q := by
  intro hc
  refine ends_bind (Ends.mono (hx hc) (fun a c₁ _ h _ => ?_) fun _ _ he => he)
  exact Ends.mono (hf a c₁ h.1 h.2 (hc.suffix h.1)) (fun b c₂ _ hq => ⟨hq.1.trans h.1, hq.2⟩)
    fun _ _ he => he.trans h.1

theorem takes_map {g : α → β} (hx : Takes x c fun a => Q (g a)) : Takes (g <$> x) c Q :=
  fun hc => ends_map (hx hc)

/-! ## Single tokens -/

theorem takes_check (kind : TokenKind) : Takes (check kind) c fun _ rest => rest = c.rest :=
  fun _ => ends_of_ok rfl ⟨List.suffix_refl _, rfl⟩

theorem takes_atEnd : Takes atEnd c fun _ rest => rest = c.rest :=
  fun _ => ends_of_ok rfl ⟨List.suffix_refl _, rfl⟩

theorem takes_acceptMap {γ : Type} (g : TokenKind → Option γ) :
    Takes (acceptMap g) c fun o rest => ∀ k t, o = some (k, t) →
      g t.kind = some k ∧ t.Comes c.rest rest := by
  intro hc
  unfold acceptMap
  cases hr : c.rest with
  | nil =>
    exact ends_of_ok (a := none) (t := c) (by simp only [hr])
      ⟨by rw [hr], fun _ _ h => by cases h⟩
  | cons t rest =>
    cases hg : g t.kind with
    | some k =>
      refine ends_of_ok (a := some (k, t)) (t := { c with rest }) (by simp only [hr, hg])
        ⟨List.suffix_cons t rest, fun k' t' h => ?_⟩
      cases h
      rw [hr] at hc
      exact ⟨hg, hc.spelled t List.mem_cons_self, hc.between_head⟩
    | none =>
      exact ends_of_ok (a := none) (t := c) (by simp only [hr, hg])
        ⟨by rw [hr], fun _ _ h => by cases h⟩

theorem takes_accept (kind : TokenKind) :
    Takes (accept kind) c fun o rest => ∀ t, o = some t → t.kind = kind ∧ t.Comes c.rest rest := by
  intro hc
  unfold accept
  cases hr : c.rest with
  | nil =>
    exact ends_of_ok (a := none) (t := c) (by simp only [hr])
      ⟨by rw [hr], fun _ h => by cases h⟩
  | cons t rest =>
    by_cases hk : t.kind = kind
    · refine ends_of_ok (a := some t) (t := { c with rest }) (by simp only [hr, hk, if_true])
        ⟨List.suffix_cons t rest, fun t' h => ?_⟩
      cases h
      rw [hr] at hc
      exact ⟨hk, hc.spelled t List.mem_cons_self, hc.between_head⟩
    · exact ends_of_ok (a := none) (t := c) (by simp only [hr, hk, if_false])
        ⟨by rw [hr], fun _ h => by cases h⟩

theorem takes_complainAt (t : Token) (cause : Cause) :
    Takes (complainAt t cause) c fun _ rest => rest = c.rest :=
  fun _ => ends_of_ok rfl ⟨List.suffix_refl _, rfl⟩

theorem takes_complain (cause : Cause) : Takes (complain cause) c fun _ rest => rest = c.rest :=
  takes_complainAt c.here cause

/-- A complaint on the way takes nothing. -/
theorem takes_warn {p : Prop} [Decidable p] {cause : Cause} {k : Unit → Parser α}
    (hk : ∀ c', c'.rest = c.rest → Takes (k ()) c' P) :
    Takes (if p then complain cause >>= k else k ()) c P := by
  split
  · exact takes_bind (takes_complain cause) fun _ c' _ h => hk c' h
  · exact hk c rfl

theorem takes_refuse (e : Expected) : Takes (refuse e : Parser α) c P :=
  fun _ => ends_of_error rfl (List.suffix_refl _)

theorem takes_expect (kind : TokenKind) (e : Expected) :
    Takes (expect kind e) c fun t rest => t.kind = kind ∧ t.Comes c.rest rest := by
  refine takes_bind (takes_accept kind) fun o c₁ _ h => ?_
  cases o with
  | some t => exact takes_pure (h t rfl)
  | none => exact takes_refuse e

theorem skipPast_suffix (last : Token) (ts : List Token) : skipPast last ts <:+ ts := by
  fun_induction skipPast last ts with
  | case1 => exact List.suffix_refl _
  | case2 => exact List.suffix_refl _
  | case3 => exact List.suffix_refl _
  | case4 last t rest _ _ ih => exact ih.trans (List.suffix_cons t rest)

theorem synchronize_suffix (ts : List Token) : synchronize ts <:+ ts := by
  cases ts with
  | nil => exact List.suffix_refl _
  | cons t rest => exact (skipPast_suffix t rest).trans (List.suffix_cons t rest)

/-- Where something is refused, reading goes on further behind, and nothing is returned. -/
theorem takes_recover (hx : Takes x c P) :
    Takes (recover x) c fun o rest => ∀ a, o = some a → P a rest := by
  intro hc
  cases h : x c with
  | ok a c' =>
    have h1 := Ends.ok (hx hc) h
    refine ends_of_ok (a := some a) (t := c') (by simp only [recover, h]) ⟨h1.1, fun a' he => ?_⟩
    cases he
    exact h1.2
  | error i c' =>
    have h1 := Ends.error (hx hc) h
    cases i with
    | refused =>
      exact ends_of_ok (a := none) (t := { c' with rest := synchronize c'.rest })
        (by simp only [recover, h]) ⟨(synchronize_suffix _).trans h1, fun _ he => by cases he⟩
    | outOfFuel => exact ends_of_error (e := .outOfFuel) (t := c') (by simp only [recover, h]) h1

end

/-! ## Expressions -/

/-- How the parsers of expressions go on with the depth `n`. The parsers that go on from an
expression know where it has come from. -/
structure TakesExpressions (n : Nat) : Prop where
  expression : ∀ c, Takes (expression n) c fun e rest => e.Comes c.rest rest
  operand : ∀ level c, Takes (operand n level) c fun e rest => e.Comes c.rest rest
  tighter : ∀ level c, Takes (tighter n level) c fun e rest => e.Comes c.rest rest
  joined : ∀ level {left c ts}, left.Comes ts c.rest → c.rest <:+ ts →
    Takes (joined n level left) c fun e rest => e.Comes ts rest
  unary : ∀ c, Takes (unary n) c fun e rest => e.Comes c.rest rest
  suffixes : ∀ {head c ts}, head.Comes ts c.rest → c.rest <:+ ts →
    Takes (suffixes n head) c fun e rest => e.Comes ts rest
  arguments : ∀ c, Takes (arguments n) c fun es rest => Expr.ComesAll c.rest rest es
  moreArguments : ∀ count c,
    Takes (moreArguments n count) c fun es rest => Expr.ComesAll c.rest rest es
  primary : ∀ c, Takes (primary n) c fun e rest => e.Comes c.rest rest

section
variable {ts mid rest : List Token} {left right : Expr}

theorem comes_join (joint : Joint) (token : Token) (hl : left.Comes ts rest)
    (hr : right.Comes ts rest) : (joint.join token left right).Comes ts rest :=
  ⟨joint.formed_join token hl.1 hr.1, by rw [joint.nameTokens_join]; exact hl.2.append hr.2⟩

theorem comesAll_cons {e : Expr} {es : List Expr} (h : e.Comes ts rest)
    (h' : Expr.ComesAll ts rest es) : Expr.ComesAll ts rest (e :: es) :=
  ⟨⟨h.1, h'.1⟩, h.2.append h'.2⟩

end

section
variable {n : Nat} (ih : TakesExpressions n)
include ih

theorem TakesExpressions.expression_succ (c : Cursor) :
    Takes (Grammar.expression (n + 1)) c fun e rest => e.Comes c.rest rest := by
  unfold Grammar.expression
  refine takes_bind (ih.operand .or c) fun target c₁ s₁ h => ?_
  refine takes_bind (takes_accept .equal) fun o c₂ s₂ _ => ?_
  cases o with
  | none => exact takes_pure (h.till s₂)
  | some equals =>
    refine takes_bind (ih.expression c₂) fun value c₃ s₃ hv => ?_
    have h := h.till (s₃.trans s₂)
    have hv := hv.since (s₂.trans s₁)
    unfold assignTo
    split
    · exact takes_pure ⟨⟨h.1, hv.1⟩, h.2.append hv.2⟩
    · exact takes_pure ⟨⟨h.1, hv.1⟩, Between.append h.2 hv.2⟩
    · exact takes_bind (takes_complainAt equals _) fun _ c₄ _ hc => takes_pure (hc ▸ h)

theorem TakesExpressions.operand_succ (level : Level) (c : Cursor) :
    Takes (Grammar.operand (n + 1) level) c fun e rest => e.Comes c.rest rest := by
  unfold Grammar.operand
  exact takes_bind (ih.tighter level c) fun left c₁ s₁ h => ih.joined level h s₁

theorem TakesExpressions.tighter_succ (level : Level) (c : Cursor) :
    Takes (Grammar.tighter (n + 1) level) c fun e rest => e.Comes c.rest rest := by
  unfold Grammar.tighter
  split
  · exact ih.operand _ c
  · exact ih.unary c

theorem TakesExpressions.joined_succ (level : Level) {left : Expr} {c : Cursor} {ts : List Token}
    (hl : left.Comes ts c.rest) (hs : c.rest <:+ ts) :
    Takes (Grammar.joined (n + 1) level left) c fun e rest => e.Comes ts rest := by
  unfold Grammar.joined
  refine takes_bind (takes_acceptMap level.joint?) fun o c₁ s₁ _ => ?_
  cases o with
  | none => exact takes_pure (hl.till s₁)
  | some p =>
    obtain ⟨joint, token⟩ := p
    refine takes_bind (ih.tighter level c₁) fun right c₂ s₂ hr => ?_
    exact ih.joined level (comes_join joint token (hl.till (s₂.trans s₁))
      (hr.since (s₁.trans hs))) (s₂.trans (s₁.trans hs))

theorem TakesExpressions.unary_succ (c : Cursor) :
    Takes (Grammar.unary (n + 1)) c fun e rest => e.Comes c.rest rest := by
  unfold Grammar.unary
  refine takes_bind (takes_acceptMap unaryOp?) fun o c₁ s₁ _ => ?_
  cases o with
  | none =>
    refine takes_bind (ih.primary c₁) fun head c₂ s₂ h => ?_
    exact ih.suffixes (h.since s₁) (s₂.trans s₁)
  | some p =>
    refine takes_bind (ih.unary c₁) fun right c₂ s₂ h => takes_pure ?_
    exact h.since s₁

theorem TakesExpressions.suffixes_succ {head : Expr} {c : Cursor} {ts : List Token}
    (hh : head.Comes ts c.rest) (hs : c.rest <:+ ts) :
    Takes (Grammar.suffixes (n + 1) head) c fun e rest => e.Comes ts rest := by
  unfold Grammar.suffixes
  refine takes_bind (takes_accept .leftParen) fun o c₁ s₁ _ => ?_
  cases o with
  | some t =>
    refine takes_bind (ih.arguments c₁) fun args c₂ s₂ ha => ?_
    refine takes_bind (takes_expect .rightParen _) fun paren c₃ s₃ _ => ?_
    have hh := hh.till (s₃.trans (s₂.trans s₁))
    exact ih.suffixes ⟨⟨hh.1, ha.1⟩, hh.2.append ((ha.2.since (s₁.trans hs)).till s₃)⟩
      (s₃.trans (s₂.trans (s₁.trans hs)))
  | none =>
    refine takes_bind (takes_accept .dot) fun o c₂ s₂ _ => ?_
    cases o with
    | some t =>
      refine takes_bind (takes_expect .identifier _) fun property c₃ s₃ hp => ?_
      have hh := hh.till (s₃.trans (s₂.trans s₁))
      have hs₂ := s₂.trans (s₁.trans hs)
      exact ih.suffixes ⟨hh.1, (hp.2.2.since hs₂).cons hh.2⟩ (s₃.trans hs₂)
    | none => exact takes_pure (hh.till (s₂.trans s₁))

theorem TakesExpressions.arguments_succ (c : Cursor) :
    Takes (Grammar.arguments (n + 1)) c fun es rest => Expr.ComesAll c.rest rest es := by
  unfold Grammar.arguments
  refine takes_bind (takes_check .rightParen) fun b c₁ _ h => ?_
  cases b with
  | true => exact takes_pure ⟨trivial, .nil⟩
  | false =>
    rw [← h]
    exact ih.moreArguments 0 c₁

theorem TakesExpressions.moreArguments_succ (count : Nat) (c : Cursor) :
    Takes (Grammar.moreArguments (n + 1) count) c fun es rest => Expr.ComesAll c.rest rest es := by
  unfold Grammar.moreArguments
  refine takes_warn fun c' hc => ?_
  rw [← hc]
  refine takes_bind (ih.expression c') fun arg c₁ s₁ h => ?_
  refine takes_bind (takes_accept .comma) fun o c₂ s₂ _ => ?_
  cases o with
  | some t =>
    refine takes_bind (ih.moreArguments (count + 1) c₂) fun args c₃ s₃ hm => takes_pure ?_
    exact comesAll_cons (h.till (s₃.trans s₂)) ⟨hm.1, hm.2.since (s₂.trans s₁)⟩
  | none => exact takes_pure (comesAll_cons (h.till s₂) ⟨trivial, .nil⟩)

theorem TakesExpressions.primary_succ (c : Cursor) :
    Takes (Grammar.primary (n + 1)) c fun e rest => e.Comes c.rest rest := by
  unfold Grammar.primary
  refine takes_bind (takes_acceptMap start?) fun o c₁ s₁ h => ?_
  cases o with
  | none => exact takes_refuse _
  | some p =>
    obtain ⟨start, token⟩ := p
    obtain ⟨hk, hspelled, hbetween⟩ := h start token rfl
    cases start with
    | constant => exact takes_pure ⟨trivial, .nil⟩
    | name => exact takes_pure ⟨hspelled.not_isWord (kind_of_start? hk rfl), hbetween⟩
    | thisWord => exact takes_pure ⟨hspelled.eq_this (kind_of_start? hk rfl), hbetween⟩
    | superWord =>
      refine takes_bind (takes_expect .dot _) fun dot c₂ s₂ _ => ?_
      refine takes_bind (takes_expect .identifier _) fun method c₃ s₃ hm => takes_pure ?_
      exact ⟨hspelled.eq_super (kind_of_start? hk rfl),
        (hbetween.till (s₃.trans s₂)).cons
          (hm.2.2.since (s₂.trans s₁))⟩
    | paren =>
      refine takes_bind (ih.expression c₁) fun inner c₂ s₂ h => ?_
      refine takes_bind (takes_expect .rightParen _) fun close c₃ s₃ _ => takes_pure ?_
      exact (h.since s₁).till s₃

end

theorem takesExpressions : ∀ n, TakesExpressions n
  | 0 => by constructor <;> intros <;> exact takes_outOfFuel
  | n + 1 =>
    have ih := takesExpressions n
    { expression := ih.expression_succ
      operand := ih.operand_succ
      tighter := ih.tighter_succ
      joined := ih.joined_succ
      unary := ih.unary_succ
      suffixes := ih.suffixes_succ
      arguments := ih.arguments_succ
      moreArguments := ih.moreArguments_succ
      primary := ih.primary_succ }

/-! ## Statements without statements inside -/

section
variable (n : Nat) (c : Cursor)

theorem takes_varDecl : Takes (varDecl n) c fun s rest => s.Comes c.rest rest := by
  unfold varDecl
  refine takes_bind (takes_expect .identifier _) fun name c₁ s₁ hn => ?_
  refine takes_bind (takes_accept .equal) fun o c₂ s₂ _ => ?_
  have hend : ∀ init c₃, c₃.rest <:+ c₂.rest → Expr.MayCome c₂.rest c₃.rest init →
      Takes (do
        let _ ← expect .semicolon .variableEnd
        pure (Stmt.var name init)) c₃ fun s rest => s.Comes c.rest rest := by
    intro init c₃ s₃ hi
    refine takes_bind (takes_expect .semicolon _) fun semi c₄ s₄ _ => takes_pure ?_
    have hi := (hi.since s₂).till s₄
    exact
      { formed := ⟨hn.2.1.not_isWord hn.1, hi.formed⟩
        ordered := trivial
        leads := fun d hd x hx => by
          cases hd
          exact hn.2.2.lt hi.between List.mem_cons_self hx
        between := (hn.2.2.till (s₄.trans (s₃.trans s₂))).cons
          (hi.between.since s₁) }
  cases o with
  | some _ =>
    refine takes_bind (P := fun o rest => Expr.MayCome c₂.rest rest o) ?_ hend
    exact takes_map (((takesExpressions n).expression c₂).mono fun e rest _ h => h.mayCome)
  | none =>
    exact takes_bind (P := fun o rest => Expr.MayCome c₂.rest rest o) (takes_pure .none) hend

/-- An expression makes a statement in order. -/
theorem comesPlain_expression {ts rest : List Token} {e : Expr} (h : e.Comes ts rest) :
    (Stmt.expression e).ComesPlain ts rest :=
  ⟨⟨h.1, trivial, Stmt.leads_of_not_isDeclaration rfl, h.2⟩, rfl⟩

theorem takes_expressionStmt :
    Takes (expressionStmt n) c fun s rest => s.ComesPlain c.rest rest := by
  unfold expressionStmt
  refine takes_bind ((takesExpressions n).expression c) fun e c₁ s₁ h => ?_
  refine takes_bind (takes_expect .semicolon _) fun semi c₂ s₂ _ => takes_pure ?_
  exact comesPlain_expression (h.till s₂)

theorem takes_printStmt : Takes (printStmt n) c fun s rest => s.ComesPlain c.rest rest := by
  unfold printStmt
  refine takes_bind ((takesExpressions n).expression c) fun e c₁ s₁ h => ?_
  refine takes_bind (takes_expect .semicolon _) fun semi c₂ s₂ _ => takes_pure ?_
  have h := h.till s₂
  exact ⟨⟨h.1, trivial, Stmt.leads_of_not_isDeclaration rfl, h.2⟩, rfl⟩

theorem takes_optionalExpression (stop : TokenKind) :
    Takes (optionalExpression n stop) c fun o rest => Expr.MayCome c.rest rest o := by
  unfold optionalExpression
  refine takes_bind (takes_check stop) fun b c₁ _ hc => ?_
  cases b with
  | true => exact takes_pure .none
  | false =>
    rw [← hc]
    exact takes_map (((takesExpressions n).expression c₁).mono fun e rest _ h => h.mayCome)

theorem takes_returnStmt (keyword : Token) :
    Takes (returnStmt n keyword) c fun s rest => s.ComesPlain c.rest rest := by
  unfold returnStmt
  refine takes_bind (takes_optionalExpression n c .semicolon) fun value c₁ s₁ h => ?_
  refine takes_bind (takes_expect .semicolon _) fun semi c₂ s₂ _ => takes_pure ?_
  have h := h.till s₂
  exact ⟨⟨h.formed, trivial, Stmt.leads_of_not_isDeclaration rfl, h.between⟩, rfl⟩

theorem takes_forInit :
    Takes (forInit n) c fun o rest => ∀ s, o = some s → s.Comes c.rest rest := by
  unfold forInit
  refine takes_bind (takes_accept .semicolon) fun o c₁ s₁ _ => ?_
  cases o with
  | some _ => exact takes_pure fun s hs => by cases hs
  | none =>
    refine takes_bind (takes_accept .kwVar) fun o c₂ s₂ _ => ?_
    cases o with
    | some _ =>
      refine takes_map ((takes_varDecl n c₂).mono fun s rest _ h s' hs => ?_)
      cases hs
      exact h.since (s₂.trans s₁)
    | none =>
      refine takes_map ((takes_expressionStmt n c₂).mono fun s rest _ h s' hs => ?_)
      cases hs
      exact h.1.since (s₂.trans s₁)

theorem takes_testInParens (start stop : Expected) :
    Takes (testInParens n start stop) c fun e rest => e.Comes c.rest rest := by
  unfold testInParens
  refine takes_bind (takes_expect .leftParen start) fun _ c₁ s₁ _ => ?_
  refine takes_bind ((takesExpressions n).expression c₁) fun e c₂ s₂ h => ?_
  refine takes_bind (takes_expect .rightParen stop) fun _ c₃ s₃ _ => takes_pure ?_
  exact (h.since s₁).till s₃

end

/-- The parameters are names, and stand between the tokens. -/
def ParametersCome (ts rest : List Token) (params : List Token) : Prop :=
  (∀ p ∈ params, ¬ Heap.isWord p.lexeme) ∧ Between ts rest params

theorem takes_moreParameters : ∀ (n count : Nat) (c : Cursor),
    Takes (moreParameters n count) c fun params rest => ParametersCome c.rest rest params
  | 0, _, _ => takes_outOfFuel
  | n + 1, count, c => by
    unfold moreParameters
    refine takes_warn fun c' hc => ?_
    rw [← hc]
    refine takes_bind (takes_expect .identifier _) fun param c₁ s₁ hp => ?_
    have hword := hp.2.1.not_isWord hp.1
    refine takes_bind (takes_accept .comma) fun o c₂ s₂ _ => ?_
    cases o with
    | some t =>
      refine takes_bind (takes_moreParameters n (count + 1) c₂) fun params c₃ s₃ h => ?_
      refine takes_pure ⟨fun p hm => ?_, (hp.2.2.till (s₃.trans s₂)).cons
        (h.2.since (s₂.trans s₁))⟩
      rcases List.mem_cons.1 hm with rfl | hm
      · exact hword
      · exact h.1 p hm
    | none =>
      refine takes_pure ⟨fun p hm => ?_, hp.2.2.till s₂⟩
      cases List.mem_singleton.1 hm
      exact hword

theorem takes_parameters (n : Nat) (c : Cursor) :
    Takes (parameters n) c fun params rest => ParametersCome c.rest rest params := by
  unfold parameters
  refine takes_bind (takes_check .rightParen) fun b c₁ _ h => ?_
  cases b with
  | true => exact takes_pure ⟨fun p hp => (by cases hp), .nil⟩
  | false =>
    rw [← h]
    exact takes_moreParameters n 0 c₁

/-! ## Statements and declarations -/

/-- How the parsers of statements go on with the depth `n`. -/
structure TakesStatements (n : Nat) : Prop where
  declaration : ∀ c, Takes (declaration n) c
    fun o rest => ∀ s, o = some s → s.Comes c.rest rest
  classDecl : ∀ c, Takes (classDecl n) c fun s rest => s.Comes c.rest rest
  methods : ∀ c, Takes (methods n) c fun ds rest => FunDecl.ComesAll c.rest rest ds
  function : ∀ routine c, Takes (function n routine) c fun d rest => FunDecl.Comes c.rest rest d
  block : ∀ c, Takes (block n) c fun body rest => Stmt.ComesAll c.rest rest body
  statement : ∀ c, Takes (statement n) c fun s rest => s.ComesPlain c.rest rest
  forStmt : ∀ c, Takes (forStmt n) c fun s rest => s.ComesPlain c.rest rest
  ifStmt : ∀ c, Takes (ifStmt n) c fun s rest => s.ComesPlain c.rest rest

/-- A declaration, if it was not refused, and the statements after it. -/
theorem comesAll_toList_append {ts mid rest : List Token} {first : Option Stmt} {ss : List Stmt}
    (h : ∀ s, first = some s → s.Comes ts mid) (h' : Stmt.ComesAll mid rest ss) (hl : mid <:+ ts)
    (hr : rest <:+ mid) : Stmt.ComesAll ts rest (first.toList ++ ss) := by
  cases first with
  | none => exact h'.since hl
  | some s => exact .cons (h s rfl) h' hl hr

section
variable {n : Nat} (ih : TakesStatements n)
include ih

theorem TakesStatements.declaration_succ (c : Cursor) :
    Takes (Grammar.declaration (n + 1)) c fun o rest => ∀ s, o = some s → s.Comes c.rest rest := by
  unfold Grammar.declaration
  refine takes_recover (takes_bind (takes_acceptMap declarationForm?) fun o c₁ s₁ _ => ?_)
  have hvar : Takes (varDecl n) c₁ fun s rest => s.Comes c.rest rest :=
    (takes_varDecl n c₁).mono fun s rest _ h => h.since s₁
  cases o with
  | none =>
    exact (ih.statement c₁).mono fun s rest _ h => h.1.since s₁
  | some p =>
    obtain ⟨form, t⟩ := p
    cases form with
    | classForm =>
      exact (ih.classDecl c₁).mono fun s rest _ h => h.since s₁
    | funForm =>
      refine takes_map ((ih.function .function c₁).mono fun d rest _ h => ?_)
      exact ⟨h.formed, h.ordered, h.leads, h.between.since s₁⟩
    | _ => exact hvar

theorem TakesStatements.classDecl_succ (c : Cursor) :
    Takes (Grammar.classDecl (n + 1)) c fun s rest => s.Comes c.rest rest := by
  unfold Grammar.classDecl
  refine takes_bind (takes_expect .identifier _) fun name c₁ s₁ hn => ?_
  refine takes_bind (takes_accept .less) fun o c₂ s₂ _ => ?_
  have hend : ∀ superclass c₃, c₃.rest <:+ c₂.rest → Reference.MayCome c₂.rest c₃.rest superclass →
      Takes (do
        let _ ← expect .leftBrace .classBody
        let methods ← Grammar.methods n
        let _ ← expect .rightBrace .classEnd
        pure (Stmt.classDecl name superclass methods)) c₃ fun s rest => s.Comes c.rest rest := by
    intro superclass c₃ s₃ hs
    refine takes_bind (takes_expect .leftBrace _) fun _ c₄ s₄ _ => ?_
    refine takes_bind (ih.methods c₄) fun methods c₅ s₅ hm => ?_
    refine takes_bind (takes_expect .rightBrace _) fun _ c₆ s₆ _ => takes_pure ?_
    have hinner :
        Between c₁.rest c₆.rest (Stmt.classDecl name superclass methods).innerTokens := by
      refine Between.append ?_ ((hm.between.since (s₄.trans (s₃.trans s₂))).till s₆)
      cases superclass with
      | none => exact .nil
      | some ref => exact ((hs ref rfl).2.since s₂).till (s₆.trans (s₅.trans s₄))
    exact
      { formed := ⟨hn.2.1.not_isWord hn.1, fun ref he => (hs ref he).1, hm.formed⟩
        ordered := hm.ordered
        leads := fun d hd x hx => by
          cases hd
          exact hn.2.2.lt hinner List.mem_cons_self hx
        between := (hn.2.2.till (s₆.trans (s₅.trans (s₄.trans (s₃.trans s₂))))).cons
          (hinner.since s₁) }
  cases o with
  | some _ =>
    refine takes_bind (P := fun o rest => Reference.MayCome c₂.rest rest o) ?_ hend
    refine takes_map ((takes_expect .identifier _).mono fun t rest _ h ref he => ?_)
    cases he
    exact ⟨h.2.1.not_isWord h.1, h.2.2⟩
  | none =>
    exact takes_bind (P := fun o rest => Reference.MayCome c₂.rest rest o)
      (takes_pure fun ref he => by cases he) hend

theorem TakesStatements.methods_succ (c : Cursor) :
    Takes (Grammar.methods (n + 1)) c fun ds rest => FunDecl.ComesAll c.rest rest ds := by
  unfold Grammar.methods
  refine takes_bind (takes_check .rightBrace) fun closes c₁ _ hc => ?_
  refine takes_bind takes_atEnd fun ends c₂ _ he => ?_
  rw [← hc, ← he]
  split
  · exact takes_pure ⟨trivial, trivial, .nil⟩
  · refine takes_bind (ih.function .method c₂) fun d c₃ s₃ h => ?_
    refine takes_bind (ih.methods c₃) fun ds c₄ s₄ h' => takes_pure ?_
    exact ⟨⟨h.formed, h'.formed⟩, ⟨h.ordered, h'.ordered⟩,
      (h.between.till s₄).append (h'.between.since s₃)⟩

theorem TakesStatements.function_succ (routine : Routine) (c : Cursor) :
    Takes (Grammar.function (n + 1) routine) c fun d rest => FunDecl.Comes c.rest rest d := by
  unfold Grammar.function
  refine takes_bind (takes_expect .identifier _) fun name c₁ s₁ hn => ?_
  refine takes_bind (takes_expect .leftParen _) fun _ c₂ s₂ _ => ?_
  refine takes_bind (takes_parameters n c₂) fun params c₃ s₃ hp => ?_
  refine takes_bind (takes_expect .rightParen _) fun _ c₄ s₄ _ => ?_
  refine takes_bind (takes_expect .leftBrace _) fun _ c₅ s₅ _ => ?_
  refine takes_bind (ih.block c₅) fun body c₆ s₆ hb => takes_pure ?_
  have hinner : Between c₁.rest c₆.rest (params ++ Stmt.nameTokensAll body) :=
    ((hp.2.since s₂).till (s₆.trans (s₅.trans s₄))).append
      (hb.between.since (s₅.trans (s₄.trans (s₃.trans s₂))))
  exact
    { formed := ⟨hn.2.1.not_isWord hn.1, hp.1, hb.formed⟩
      ordered := hb.ordered
      leads := fun d hd x hx => by
        cases hd
        exact hn.2.2.lt hinner List.mem_cons_self hx
      between := (hn.2.2.till (s₆.trans (s₅.trans (s₄.trans (s₃.trans s₂))))).cons
        (hinner.since s₁) }

theorem TakesStatements.block_succ (c : Cursor) :
    Takes (Grammar.block (n + 1)) c fun body rest => Stmt.ComesAll c.rest rest body := by
  unfold Grammar.block
  refine takes_bind (takes_check .rightBrace) fun closes c₁ _ hc => ?_
  refine takes_bind takes_atEnd fun ends c₂ _ he => ?_
  rw [← hc, ← he]
  split
  · exact takes_bind (takes_expect .rightBrace _) fun _ _ _ _ => takes_pure .nil
  · refine takes_bind (ih.declaration c₂) fun first c₃ s₃ h => ?_
    refine takes_bind (ih.block c₃) fun body c₄ s₄ h' => takes_pure ?_
    exact comesAll_toList_append h h' s₃ s₄

theorem TakesStatements.statement_succ (c : Cursor) :
    Takes (Grammar.statement (n + 1)) c fun s rest => s.ComesPlain c.rest rest := by
  unfold Grammar.statement
  refine takes_bind (takes_acceptMap statementForm?) fun o c₁ s₁ _ => ?_
  have hblock : Takes (Stmt.block <$> Grammar.block n) c₁
      fun s rest => s.ComesPlain c.rest rest := by
    refine takes_map ((ih.block c₁).mono fun body rest _ h => ?_)
    exact ⟨⟨h.formed, h.ordered, Stmt.leads_of_not_isDeclaration rfl, h.between.since s₁⟩, rfl⟩
  cases o with
  | none => exact (takes_expressionStmt n c₁).mono fun _ _ _ h => h.since s₁
  | some p =>
    obtain ⟨form, t⟩ := p
    cases form with
    | forForm => exact (ih.forStmt c₁).mono fun _ _ _ h => h.since s₁
    | ifForm => exact (ih.ifStmt c₁).mono fun _ _ _ h => h.since s₁
    | printForm => exact (takes_printStmt n c₁).mono fun _ _ _ h => h.since s₁
    | returnForm => exact (takes_returnStmt n c₁ t).mono fun _ _ _ h => h.since s₁
    | whileForm =>
      refine takes_bind (takes_testInParens n c₁ _ _) fun test c₂ s₂ ht => ?_
      refine takes_bind (ih.statement c₂) fun body c₃ s₃ hb => ?_
      refine takes_pure (Stmt.ComesPlain.since ?_ s₁)
      exact ⟨⟨⟨ht.1, hb.1.formed, hb.2⟩, hb.1.ordered, Stmt.leads_of_not_isDeclaration rfl,
        (ht.2.till s₃).append
          (hb.1.between.since s₂)⟩, rfl⟩
    | _ => exact hblock

theorem TakesStatements.forStmt_succ (c : Cursor) :
    Takes (Grammar.forStmt (n + 1)) c fun s rest => s.ComesPlain c.rest rest := by
  unfold Grammar.forStmt
  refine takes_bind (takes_expect .leftParen _) fun _ c₁ s₁ _ => ?_
  refine takes_bind (takes_forInit n c₁) fun init c₂ s₂ hi => ?_
  refine takes_bind (takes_optionalExpression n c₂ .semicolon) fun test c₃ s₃ ht => ?_
  refine takes_bind (takes_expect .semicolon _) fun _ c₄ s₄ _ => ?_
  refine takes_bind (takes_optionalExpression n c₄ .rightParen) fun update c₅ s₅ hu => ?_
  refine takes_bind (takes_expect .rightParen _) fun _ c₆ s₆ _ => ?_
  refine takes_bind (ih.statement c₆) fun body c₇ s₇ hb => takes_pure ?_
  have s₄₂ := s₄.trans s₃
  have s₆₄ := s₆.trans s₅
  have s₆₂ := s₆₄.trans s₄₂
  exact Stmt.comesPlain_forLoop (fun s hs => (hi s hs).since s₁)
    (ht.till (s₇.trans (s₆₄.trans s₄))) ((hu.since s₄₂).till (s₇.trans s₆))
    ⟨hb.1.since s₆₂, hb.2⟩ (s₂.trans s₁) (s₇.trans s₆₂)

theorem TakesStatements.ifStmt_succ (c : Cursor) :
    Takes (Grammar.ifStmt (n + 1)) c fun s rest => s.ComesPlain c.rest rest := by
  unfold Grammar.ifStmt
  refine takes_bind (takes_testInParens n c _ _) fun test c₁ s₁ ht => ?_
  refine takes_bind (ih.statement c₁) fun yes c₂ s₂ hy => ?_
  refine takes_bind (takes_accept .kwElse) fun o c₃ s₃ _ => ?_
  cases o with
  | some _ =>
    refine takes_bind (ih.statement c₃) fun no c₄ s₄ hn => takes_pure ?_
    have s₄₂ := s₄.trans s₃
    exact ⟨⟨⟨ht.1, ⟨hy.1.formed, hy.2⟩, hn.1.formed, hn.2⟩, ⟨hy.1.ordered, hn.1.ordered⟩,
      Stmt.leads_of_not_isDeclaration rfl, (ht.2.till (s₄₂.trans s₂)).append
        (((hy.1.between.since s₁).till s₄₂).append
          (hn.1.between.since (s₃.trans (s₂.trans s₁))))⟩, rfl⟩
  | none =>
    exact takes_pure ⟨⟨⟨ht.1, hy.1.formed, hy.2⟩, hy.1.ordered, Stmt.leads_of_not_isDeclaration rfl,
      (ht.2.till (s₃.trans s₂)).append ((hy.1.between.since s₁).till s₃)⟩, rfl⟩

end

theorem takesStatements : ∀ n, TakesStatements n
  | 0 => by constructor <;> intros <;> exact takes_outOfFuel
  | n + 1 =>
    have ih := takesStatements n
    { declaration := ih.declaration_succ
      classDecl := ih.classDecl_succ
      methods := ih.methods_succ
      function := ih.function_succ
      block := ih.block_succ
      statement := ih.statement_succ
      forStmt := ih.forStmt_succ
      ifStmt := ih.ifStmt_succ }

theorem takes_declarations : ∀ (n : Nat) (c : Cursor),
    Takes (declarations n) c fun ss rest => Stmt.ComesAll c.rest rest ss
  | 0, _ => takes_outOfFuel
  | n + 1, c => by
    unfold declarations
    refine takes_bind takes_atEnd fun b c₁ _ he => ?_
    rw [← he]
    cases b with
    | true => exact takes_pure .nil
    | false =>
      refine takes_bind ((takesStatements n).declaration c₁) fun first c₂ s₂ h => ?_
      refine takes_bind (takes_declarations n c₂) fun ss c₃ s₃ h' => takes_pure ?_
      exact comesAll_toList_append h h' s₂ s₃

end Grammar

/-- **The statements of a source are formed and in the order of its text**, whatever faults the
source has. -/
theorem Program.comes (source : String) :
    Stmt.FormedAll (Program.compile source).statements ∧
      Stmt.OrderedAll (Program.compile source).statements := by
  unfold Program.compile Grammar.parse
  have h := Grammar.takes_declarations (Grammar.depthFor (scan source).tokens)
    ⟨(scan source).tokens, (scan source).eof, []⟩ (fair_scan source)
  cases hd : Grammar.declarations (Grammar.depthFor (scan source).tokens)
    ⟨(scan source).tokens, (scan source).eof, []⟩ with
  | ok ss c =>
    obtain ⟨-, hss⟩ := h.ok hd
    simp only [hd]
    exact ⟨hss.formed, hss.ordered⟩
  | error i c =>
    simp only [hd]
    exact ⟨trivial, trivial⟩

end Lox
